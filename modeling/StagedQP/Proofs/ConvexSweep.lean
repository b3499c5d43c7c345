import StagedQP.Proofs.InteriorPoint
import StagedQP.Proofs.PackedProblem
import StagedQP.Proofs.ReachedWorkspace
import StagedQP.Proofs.SemidefiniteFactor

/-!
# Convex horizons never break down

On a convex horizon the condensed Hessian of every stage is positive semidefinite at every point of
the interior: the barrier terms add squares with positive weights. Going backward, a semidefinite
cost-to-go pulled back through the dynamics leaves the total Hessian semidefinite, so the control
block has a factor, with the first shift at worst. The cost-to-go of the stage is then the total
form at the answer of the feedback law, plus the shift times the square of that answer,

```text
dxᵀ cost dx = [K dx; dx]ᵀ total [K dx; dx] + shift |K dx|²,
```

hence semidefinite again. So the sweep never fails, however degenerate the data: without control
costs, with redundant controls, with rank-deficient dynamics. What is left to end a run early is a
step that is too short.

## Main results

* `StageState.Swept.cost_form` — the cost-to-go of a stage.
* `Riccati.convex_factorizeFrom` — the sweep over semidefinite stages.
* `no_breakdown_of_convex` — a whole solve of a convex horizon.
-/

namespace StagedQP

open Finset

variable {K : Type} [Field K] [LinearOrder K] [SquareRoot K]

/-! ## The forms of a stage -/

namespace StageState

variable {s : StageState K} {n : Nat} {next : Mat K} {shift : Option K}

/-- The barrier terms add weighted squares of the rows. -/
theorem condensed_hess_form (hs : s.Shaped n)
    (hc : s.condensed.hess = s.condenseHessian.condensed.hess) (x : Nat → K) :
    quadForm s.condensed.hess.get (s.nu + s.nx) x = s.data.quadratic (s.nu + s.nx) x +
      ∑ k ∈ range s.nc, s.condenseHessian.condensed.weight.get k *
        (rowSum s.data.jac.get (s.nu + s.nx) x k * rowSum s.data.jac.get (s.nu + s.nx) x k) := by
  have hrow : ∀ i ∈ range (s.nu + s.nx), x i * rowSum s.condensed.hess.get (s.nu + s.nx) x i =
      x i * rowSum s.data.hess.get (s.nu + s.nx) x i + colSum s.data.jac.get s.nc
        (fun k => s.condenseHessian.condensed.weight.get k *
          rowSum s.data.jac.get (s.nu + s.nx) x k) i * x i := by
    intro i hi
    rw [rowSum_condensed_hess hs hc x (mem_range.1 hi)]
    ring
  rw [quadForm, sum_congr rfl hrow, sum_add_distrib, ← sum_mul_rowSum]
  congr 1
  refine sum_congr rfl fun k _ => ?_
  ring

/-- In the interior the condensed Hessian of a convex stage is semidefinite. -/
theorem condensed_hess_semidefinite [IsStrictOrderedRing K] (hs : s.Shaped n)
    (hc : s.condensed.hess = s.condenseHessian.condensed.hess) (hint : s.Interior)
    (hconvex : ∀ v, 0 ≤ s.data.quadratic (s.nu + s.nx) v) :
    SemidefiniteUpTo (s.nu + s.nx) s.condensed.hess.get := by
  intro x
  rw [condensed_hess_form hs hc]
  refine add_nonneg (hconvex x) (sum_nonneg fun k hk => ?_)
  have hk' := mem_range.1 hk
  have hlower := div_pos (hint.lam_lo k (hs.lam_lo.symm ▸ hk')) (hint.t_lo k (hs.t_lo.symm ▸ hk'))
  have hupper := div_pos (hint.lam_up k (hs.lam_up.symm ▸ hk')) (hint.t_up k (hs.t_up.symm ▸ hk'))
  rw [get_weight hs hk']
  exact mul_nonneg (add_pos hlower hupper).le (mul_self_nonneg _)

section Total

variable (htotal : s.riccati.total = Mat.addMul s.condensed.hess (s.data.dyn.trMul next) s.data.dyn)
  (hs : s.Shaped n) (hnext : next.cols = n) (hrows : s.condensed.hess.rows = s.nu + s.nx)
  (hcols : s.condensed.hess.cols = s.nu + s.nx)

include htotal hs hnext hrows hcols

/-- The cost-to-go of the stage after, pulled back through the dynamics, adds its form where the
dynamics lead. -/
theorem total_form (x : Nat → K) : quadForm s.riccati.total.get (s.nu + s.nx) x =
    quadForm s.condensed.hess.get (s.nu + s.nx) x +
      quadForm next.get n (rowSum s.data.dyn.get (s.nu + s.nx) x) := by
  have hrow : ∀ i ∈ range (s.nu + s.nx), x i * rowSum s.riccati.total.get (s.nu + s.nx) x i =
      x i * rowSum s.condensed.hess.get (s.nu + s.nx) x i + colSum s.data.dyn.get n
        (rowSum next.get n (rowSum s.data.dyn.get (s.nu + s.nx) x)) i * x i := by
    intro i hi
    rw [rowSum_total htotal hs hnext hrows hcols x (mem_range.1 hi)]
    ring
  rw [quadForm, sum_congr rfl hrow, sum_add_distrib, ← sum_mul_rowSum]
  congr 1
  exact sum_congr rfl fun i _ => mul_comm ..

theorem total_semidefinite [IsStrictOrderedRing K]
    (hhess : SemidefiniteUpTo (s.nu + s.nx) s.condensed.hess.get)
    (hcost : SemidefiniteUpTo n next.get) :
    SemidefiniteUpTo (s.nu + s.nx) s.riccati.total.get := by
  intro x
  rw [total_form htotal hs hnext hrows hcols]
  exact add_nonneg (hhess x) (hcost _)

end Total

/-- Without states the form of the total Hessian is that of the control block. -/
theorem total_form_control (s : StageState K) (x : Nat → K) :
    quadForm s.riccati.total.get (s.nu + s.nx) (stageVector s.nu x fun _ => 0) =
      quadForm s.controlBlock.get s.nu x := by
  have hstate : ∀ i, s.nu ≤ i → stageVector s.nu x (fun _ => (0 : K)) i = 0 :=
    fun i hi => if_neg (Nat.not_lt.2 hi)
  rw [quadForm_leading _ (Nat.le_add_right ..) hstate,
    quadForm_congr _ fun i hi => stageVector_control x _ hi,
    ← quadForm_congr_table x fun i hi j hj => get_controlBlock s hi hj]

/-- The control block of a semidefinite total Hessian is semidefinite. -/
theorem controlBlock_semidefinite (h : SemidefiniteUpTo (s.nu + s.nx) s.riccati.total.get) :
    SemidefiniteUpTo s.nu s.controlBlock.get := by
  intro x
  rw [← total_form_control]
  exact h _

section Loop

variable [ExactRoots K] [IsStrictOrderedRing K] (h : s.Swept next shift)
  (hsymm : SymmetricUpTo (s.nu + s.nx) s.riccati.total.get)

include h hsymm

omit [IsStrictOrderedRing K] in
/-- At the answer of the feedback law the control rows of the total Hessian are `-shift` times the
answer. -/
theorem Swept.rowSum_answer (dx : Nat → K) {i : Nat} (hi : i < s.nu) :
    rowSum s.controlBlock.get s.nu (rowSum s.riccati.gain.get s.nx dx) i +
        rowSum s.crossBlock.get s.nx dx i =
      -(shift.getD 0 * rowSum s.riccati.gain.get s.nx dx i) := by
  have hgain : rowSum (shiftDiagonal (shift.getD 0) s.controlBlock.get) s.nu
      (rowSum s.riccati.gain.get s.nx dx) i = -rowSum s.crossBlock.get s.nx dx i := by
    rw [← rowSum_comp (c := fun i j => -s.crossBlock.get i j) dx i
      fun j hj => (h.gain_solves hsymm hi hj).symm]
    simp only [rowSum, neg_mul, sum_neg_distrib]
  rw [rowSum_shiftDiagonal _ _ _ hi] at hgain
  linear_combination hgain

omit [IsStrictOrderedRing K] in
/-- The same, for the states and the answer as a stage vector. -/
theorem Swept.rowSum_total_answer (dx : Nat → K) {i : Nat} (hi : i < s.nu) :
    rowSum s.riccati.total.get (s.nu + s.nx)
        (stageVector s.nu (rowSum s.riccati.gain.get s.nx dx) dx) i =
      -(shift.getD 0 * rowSum s.riccati.gain.get s.nx dx i) := by
  rw [← h.rowSum_answer hsymm dx hi]
  exact rowSum_stageVector _ dx (fun j hj => (get_controlBlock s hi hj).symm)
    fun j hj => (get_crossBlock s hi hj).symm

/-- The form of the cost-to-go is that of the total Hessian at the answer of the feedback law, plus
the shift times the square of the answer. -/
theorem Swept.cost_form (dx : Nat → K) : quadForm s.riccati.cost.get s.nx dx =
    quadForm s.riccati.total.get (s.nu + s.nx)
        (stageVector s.nu (rowSum s.riccati.gain.get s.nx dx) dx) +
      shift.getD 0 * sumSquares s.nu (rowSum s.riccati.gain.get s.nx dx) := by
  set v := rowSum s.riccati.gain.get s.nx dx with hv
  set z := stageVector s.nu v dx with hz
  -- the control rows of the total Hessian at the answer
  have hcontrol : ∑ i ∈ range s.nu, z i * rowSum s.riccati.total.get (s.nu + s.nx) z i =
      -(shift.getD 0 * sumSquares s.nu v) := by
    rw [sumSquares, mul_sum, ← sum_neg_distrib]
    refine sum_congr rfl fun i hi => ?_
    have hi' := mem_range.1 hi
    rw [h.rowSum_total_answer hsymm dx hi', hz, stageVector_control _ _ hi']
    ring
  -- its state rows are the rows of the cost-to-go
  have hstate : ∀ j < s.nx, rowSum s.riccati.total.get (s.nu + s.nx) z (s.nu + j) =
      rowSum s.riccati.cost.get s.nx dx j := by
    intro j hj
    have hrow : rowSum s.riccati.total.get (s.nu + s.nx) z (s.nu + j) =
        colSum s.crossBlock.get s.nu v j +
          rowSum (fun i j => s.riccati.total.get (s.nu + i) (s.nu + j)) s.nx dx j :=
      rowSum_stageVector v dx (fun l hl => by
        rw [get_crossBlock s hl hj, hsymm (s.nu + j) (by omega) l (by omega)]) fun _ _ => rfl
    have hpulled : colSum s.crossBlock.get s.nu v j =
        rowSum (fun i j => ∑ l ∈ range s.nu, s.crossBlock.get l i * s.riccati.gain.get l j)
          s.nx dx j :=
      (rowSum_comp (a := fun i l => s.crossBlock.get l i) dx j fun k _ => rfl).symm
    rw [hrow, hpulled, rowSum, rowSum, rowSum, ← sum_add_distrib]
    refine sum_congr rfl fun k hk => ?_
    rw [h.get_cost hsymm hj (mem_range.1 hk)]
    ring
  have hstates : ∑ j ∈ range s.nx, z (s.nu + j) *
      rowSum s.riccati.total.get (s.nu + s.nx) z (s.nu + j) =
      quadForm s.riccati.cost.get s.nx dx := by
    refine sum_congr rfl fun j hj => ?_
    rw [hstate j (mem_range.1 hj), hz, stageVector_state]
  rw [quadForm, quadForm, sum_range_add, hcontrol, hstates, quadForm]
  ring

/-- With a shift that is not negative, a semidefinite total Hessian leaves a semidefinite
cost-to-go. -/
theorem Swept.cost_semidefinite (hshift : 0 ≤ shift.getD 0)
    (htotal : SemidefiniteUpTo (s.nu + s.nx) s.riccati.total.get) :
    SemidefiniteUpTo s.nx s.riccati.cost.get := by
  intro dx
  rw [h.cost_form hsymm]
  exact add_nonneg (htotal _) (mul_nonneg hshift (sumSquares_nonneg _ _))

end Loop

end StageState

/-! ## The sweep -/

/-- The condensed Hessian is symmetric and positive semidefinite. -/
structure StageState.CondensedConvex (s : StageState K) : Prop where
  rows : s.condensed.hess.rows = s.nu + s.nx
  cols : s.condensed.hess.cols = s.nu + s.nx
  symm : SymmetricUpTo (s.nu + s.nx) s.condensed.hess.get
  form : SemidefiniteUpTo (s.nu + s.nx) s.condensed.hess.get

/-- What a sweep leaves at a stage of a convex chain. -/
structure StageState.SweptConvex (s : StageState K) : Prop where
  /-- The cost-to-go is symmetric. -/
  symm : SymmetricUpTo s.nx s.riccati.cost.get
  /-- The cost-to-go is positive semidefinite. -/
  form : SemidefiniteUpTo s.nx s.riccati.cost.get
  /-- The control block is factored as it is or with the first shift. -/
  factored : s.nu ≠ 0 → ∃ c, ControlFactor.of? s.controlBlock = some c ∧
    s.riccati.factor = some c.factor ∧ (c.shift = none ∨
      c.shift = some (Scalar.decimal 1 12 * ControlFactor.scale s.controlBlock))

namespace StageState

variable {s : StageState K} {n : Nat} {next : Mat K} {shift : Option K}

section Total

variable (hconvex : s.CondensedConvex)
  (htotal : s.riccati.total = Mat.addMul s.condensed.hess (s.data.dyn.trMul next) s.data.dyn)
  (hs : s.Shaped n) (hcols : next.cols = n) (hsymm : SymmetricUpTo n next.get)
  (hform : SemidefiniteUpTo n next.get)

include hconvex htotal hs hcols hsymm hform

variable [IsStrictOrderedRing K]

/-- A semidefinite cost-to-go makes the total Hessian of a convex stage symmetric and
semidefinite. -/
theorem CondensedConvex.total : SymmetricUpTo (s.nu + s.nx) s.riccati.total.get ∧
    SemidefiniteUpTo (s.nu + s.nx) s.riccati.total.get :=
  ⟨total_symm htotal hs hcols hconvex.rows hconvex.cols hconvex.symm hsymm,
    total_semidefinite htotal hs hcols hconvex.rows hconvex.cols hconvex.form hform⟩

/-- Its control block has a factor. -/
theorem CondensedConvex.exists_of? [ExactRoots K] :
    ∃ c, ControlFactor.of? s.controlBlock = some c ∧ (c.shift = none ∨
      c.shift = some (Scalar.decimal 1 12 * ControlFactor.scale s.controlBlock)) := by
  obtain ⟨htsymm, htform⟩ := hconvex.total htotal hs hcols hsymm hform
  refine ControlFactor.exists_of? rfl (fun i hi j hj => ?_) (controlBlock_semidefinite htform)
  rw [get_controlBlock s hi hj, get_controlBlock s hj hi]
  have hi' : i < s.nu := hi
  have hj' : j < s.nu := hj
  exact htsymm i (by omega) j (by omega)

end Total

/-- A swept stage of a convex chain has a semidefinite cost-to-go again. -/
theorem Swept.convex [ExactRoots K] [IsStrictOrderedRing K] (h : s.Swept next shift)
    (hconvex : s.CondensedConvex) (hs : s.Shaped n) (hcols : next.cols = n)
    (hsymm : SymmetricUpTo n next.get) (hform : SemidefiniteUpTo n next.get) : s.SweptConvex := by
  obtain ⟨htsymm, htform⟩ := hconvex.total h.total hs hcols hsymm hform
  obtain ⟨c, hof, hshift⟩ := hconvex.exists_of? h.total hs hcols hsymm hform
  have hfactored : s.nu ≠ 0 → s.riccati.factor = some c.factor ∧ c.shift = shift := by
    intro hnu
    obtain ⟨c', hof', hfactor, hshift'⟩ := h.factored hnu
    obtain rfl := Option.some.inj (hof.symm.trans hof')
    exact ⟨hfactor, hshift'⟩
  have hnonneg : 0 ≤ shift.getD 0 := by
    by_cases hnu : s.nu = 0
    · rw [h.unfactored hnu, Option.getD_none]
    · rw [← (hfactored hnu).2]
      rcases hshift with hnone | hsome
      · rw [hnone, Option.getD_none]
      · rw [hsome, Option.getD_some]
        exact (ControlFactor.decimal_mul_scale_pos _).le
  refine ⟨fun i hi j hj => ?_, h.cost_semidefinite htsymm hnonneg htform,
    fun hnu => ⟨c, hof, (hfactored hnu).1, hshift⟩⟩
  rw [h.cost (by omega)]
  exact Mat.get_symmetrize_comm _ hi hj rfl

/-- The last stage of a convex chain keeps its own cost. -/
theorem CondensedConvex.closeCost (hconvex : s.CondensedConvex) (hnu : s.nu = 0) :
    s.closeCost.SweptConvex := by
  have hget : ∀ i < s.nx, ∀ j < s.nx,
      s.closeCost.riccati.cost.get i j = s.condensed.hess.get i j := by
    intro i hi j hj
    refine (Mat.get_block_of_lt _ _ _ hi hj).trans ?_
    rw [hnu, Nat.zero_add, Nat.zero_add]
  refine ⟨fun i hi j hj => ?_, fun x => ?_, fun h => absurd hnu h⟩
  · rw [hget i hi j hj, hget j hj i hi]
    exact hconvex.symm i (Nat.lt_add_left _ hi) j (Nat.lt_add_left _ hj)
  · have hform := hconvex.form x
    rw [hnu, Nat.zero_add, ← quadForm_congr_table x hget] at hform
    exact hform

omit [SquareRoot K] in
/-- Convexity is a fact about what a sweep leaves alone. -/
theorem CondensedConvex.of_kept {s' : StageState K} (h : Riccati.kept s' = Riccati.kept s)
    (hconvex : s.CondensedConvex) : s'.CondensedConvex := by
  have hnu : s'.nu = s.nu := congrArg (fun p => p.1.nu) h
  have hnx : s'.nx = s.nx := congrArg (fun p => p.1.nx) h
  have hhess : s'.condensed.hess = s.condensed.hess := congrArg (fun p => p.2.hess) h
  refine ⟨?_, ?_, ?_, ?_⟩
  · rw [hhess, hnu, hnx]
    exact hconvex.rows
  · rw [hhess, hnu, hnx]
    exact hconvex.cols
  · rw [hhess, hnu, hnx]
    exact hconvex.symm
  · rw [hhess, hnu, hnx]
    exact hconvex.form

end StageState

namespace Riccati

/-- One stage of the sweep does not fail, and leaves a semidefinite cost-to-go. -/
theorem convex_factorStage [ExactRoots K] [IsStrictOrderedRing K] {s : StageState K} {n : Nat}
    {next : Mat K} (hs : s.Shaped n) (hconvex : s.CondensedConvex) (hcols : next.cols = n)
    (hsymm : SymmetricUpTo n next.get) (hform : SemidefiniteUpTo n next.get) (k : Nat) :
    (factorStage k (s.pullCost next)).failed = none ∧
      ∀ s' ∈ (factorStage k (s.pullCost next)).stages, s'.SweptConvex := by
  have hkept : kept (s.pullCost next) = kept s := rfl
  have hpulled : (s.pullCost next).CondensedConvex := hconvex.of_kept hkept
  obtain ⟨c, hof, _⟩ := hpulled.exists_of? rfl (hs.pullCost next) hcols hsymm hform
  have hok : (factorStage k (s.pullCost next)).failed = none := by
    by_cases h0 : s.nu = 0
    · rw [factorStage_of_no_control (s := s.pullCost next) h0]
    · rw [factorStage_of_some (s := s.pullCost next) h0 hof]
  refine ⟨hok, fun s' hs' => ?_⟩
  obtain ⟨s₁, hstage, hkept, hshape⟩ := exists_factorStage k (s.pullCost next)
  have hswept := swept_of_factorStage next hok hstage
  rw [hstage] at hs'
  obtain rfl := List.mem_singleton.1 hs'
  exact hswept.convex (hpulled.of_kept hkept) (hshape n (hs.pullCost next)) hcols hsymm hform

/-- A chain of convex stages: the sweep does not fail, and every cost-to-go is semidefinite. -/
theorem convex_factorizeFrom [ExactRoots K] [IsStrictOrderedRing K] (l : List (StageState K)) :
    ∀ k, Chained l → (∀ s ∈ l, s.CondensedConvex) →
      (∀ (j : Nat) (s : StageState K), l[j]? = some s → l[j + 1]? = none → s.nu = 0) →
      (factorizeFrom k l).failed = none ∧ ∀ s ∈ (factorizeFrom k l).stages, s.SweptConvex := by
  induction l with
  | nil =>
      intro k _ _ _
      exact ⟨rfl, fun s hs => absurd hs List.not_mem_nil⟩
  | cons s rest ih =>
      intro k hl hconvex hlast
      have hhead := hconvex s List.mem_cons_self
      cases rest with
      | nil =>
          refine ⟨rfl, fun s' hs' => ?_⟩
          obtain rfl := List.mem_singleton.1 hs'
          exact hhead.closeCost (hlast 0 s rfl rfl)
      | cons next rest =>
          have htail : Chained (next :: rest) := fun j s hs => hl (j + 1) s hs
          obtain ⟨hok, hafter⟩ := ih (k + 1) htail
            (fun s hs => hconvex s (List.mem_cons_of_mem _ hs)) fun j s hs => hlast (j + 1) s hs
          obtain ⟨done, after, hdone⟩ := exists_done (k + 1) next rest
          have hconvexDone := hafter done (by rw [hdone]; exact List.mem_cons_self)
          have hnx : done.nx = next.nx := by
            have hkept := factorizeFrom_kept (next :: rest) (k + 1)
            rw [hdone, List.map_cons, List.map_cons] at hkept
            exact congrArg (fun p => p.1.nx) (List.cons.inj hkept).1
          have hcols : done.riccati.cost.cols = next.nx := by
            obtain ⟨next', hnext', hshape⟩ := factorizeFrom_shaped (next :: rest) (k + 1) 0 done
              (by rw [hdone]; rfl)
            exact (hshape _ (htail 0 next' hnext')).cost_cols.trans hnx
          have hshape : s.Shaped next.nx := hl 0 s rfl
          obtain ⟨hown, hstages⟩ := convex_factorStage hshape hhead hcols
            (hnx ▸ hconvexDone.symm) (hnx ▸ hconvexDone.form) k
          rw [factorizeFrom_of_done s hok hdone]
          refine ⟨hown, fun s' hs' => ?_⟩
          rcases List.mem_append.1 hs' with hs' | hs'
          · exact hstages s' hs'
          · exact hafter s' (hdone ▸ hs')

end Riccati

/-! ## A whole solve -/

namespace RunState

variable [IsStrictOrderedRing K] {h : Horizon K} {config : SolverConfig K} {t : Trajectory K}
  {w : Workspace K}

/-- The stages that a step starts from are condensed to a convex chain. -/
theorem Visits.condensedConvex (hsymm : h.Symmetric) (hconvex : h.Convex)
    (hs : h.Solvable config t w) (hw : w.Allocated) {r : RunState K}
    (hr : Visits config (initial h config t w) r) :
    ∀ s ∈ r.workspace.residuals.stages, s.condenseHessian.CondensedConvex := by
  obtain ⟨hshaped, hfixed⟩ := hs.visited hw hr
  have hfixed' := (map_fixed_of_base (Workspace.residuals_base r.workspace)).trans hfixed
  intro s hmem
  obtain ⟨k, hk⟩ := List.getElem?_of_mem hmem
  have hcondensed :=
    ((Workspace.horizonShaped_residuals hshaped).chained k s hk).condenseHessian
  have hint : s.condenseHessian.Interior :=
    { (hr.interior hs hw).residuals s hmem with }
  exact ⟨StageState.condensed_hess_rows hcondensed rfl,
    StageState.condensed_hess_cols hcondensed rfl,
    StageState.condensed_hess_symm hcondensed rfl (hsymm.hess hfixed' s hmem),
    StageState.condensed_hess_semidefinite hcondensed rfl hint
      (hconvex.quadratic_nonneg hfixed' s hmem)⟩

/-- No sweep of a solve fails. -/
theorem Visits.convex_sweep [ExactRoots K] (hsymm : h.Symmetric) (hconvex : h.Convex)
    (hs : h.Solvable config t w) (hw : w.Allocated) {r : RunState K}
    (hr : Visits config (initial h config t w) r) :
    r.workspace.residuals.sweep.failed = none ∧
      ∀ s ∈ r.workspace.residuals.sweep.stages, s.SweptConvex := by
  have hshaped := Workspace.horizonShaped_residuals (hs.visited hw hr).1
  refine Riccati.convex_factorizeFrom _ 0 (Workspace.chained_condensed hshaped) ?_ ?_
  · intro s' hs'
    obtain ⟨s, hmem, rfl⟩ := List.mem_map.1 hs'
    exact hr.condensedConvex hsymm hconvex hs hw s hmem
  · intro j s' hs' hlast
    rw [List.getElem?_map] at hs' hlast
    obtain ⟨s, hstage, rfl⟩ := Option.map_eq_some_iff.1 hs'
    exact hshaped.last j s hstage (Option.map_eq_none_iff.1 hlast)

end RunState

/-- In exact arithmetic no measure is infinite or undefined. -/
theorem Gap.verdict_ne_belowMinStep {p : Gap K} {config : SolverConfig K}
    {iters : Nat} {q : Outcome × List (Warning K)} (hq : p.verdict config iters = some q) :
    q.1 ≠ .belowMinStep := by
  have hfinite : (!p.isFinite) = false := rfl
  rw [verdict, hfinite] at hq
  split at hq
  · cases hq
    exact Outcome.noConfusion
  · rw [if_neg Bool.false_ne_true] at hq
    split at hq
    · cases hq
      exact Outcome.noConfusion
    · cases hq

/-- A run in which no sweep fails is given up only after an accepted step that was too short, and
then that step is its last. -/
theorem RunState.shortStep_of_belowMinStep {config : SolverConfig K} {r₀ : RunState K}
    (hswept : ∀ r, Visits config r₀ r → r.workspace.residuals.sweep.failed = none) :
    ∀ remaining r, Visits config r₀ r → (r.run config remaining).2 = .belowMinStep →
      ∃ r' stats, Visits config r₀ r' ∧ (r'.attempt config).outcome = .ok stats ∧
        stats.alpha < config.minStep ∧
        (r.run config remaining).1.workspace.stats = r'.workspace.stats ++ [stats] := by
  refine run_induction (P := fun _ r last => Visits config r₀ r → last.2 = .belowMinStep →
    ∃ r' stats, Visits config r₀ r' ∧ (r'.attempt config).outcome = .ok stats ∧
      stats.alpha < config.minStep ∧
      last.1.workspace.stats = r'.workspace.stats ++ [stats]) ?stop ?cap ?breakdown ?short ?step
  case stop => exact fun _ _ _ hv _ hend => absurd hend (Gap.verdict_ne_belowMinStep hv)
  case cap => exact fun _ _ _ hend => Outcome.noConfusion hend
  case breakdown =>
    intro _ r k _ hok hr _
    rw [attempt, Workspace.step_of_swept (hswept r hr)] at hok
    cases hok
  case short =>
    intro _ r stats _ hok hshort hr _
    refine ⟨r, stats, hr, hok, (Scalar.lt_iff _ _).1 hshort, ?_⟩
    obtain ⟨_, rfl, hnext⟩ := accept_eq_next hok
    rw [hnext]
    exact next_stats config r
  case step =>
    intro _ r stats last hv hok _ ih hr hend
    exact ih (.step hr hv hok) hend

/-- **Convex problems never break down.** On a horizon with symmetric positive semidefinite
Hessians, at every loop head of a solve the backward sweep succeeds and a step is made; every
cost-to-go the sweep leaves is symmetric positive semidefinite, and every control block has its
factor as it is or with the first shift. The solve returns, and if it was given up, it was after an
accepted step shorter than the least step length, the last one in the report. -/
theorem no_breakdown_of_convex [IsStrictOrderedRing K] [ExactRoots K] {h : Horizon K}
    {config : SolverConfig K} {t : Trajectory K} {w : Workspace K} (hsymm : h.Symmetric)
    (hconvex : h.Convex) (hs : h.Solvable config t w) (hw : w.Reached) :
    (∀ r, RunState.Visits config (RunState.initial h config t w) r →
      r.workspace.residuals.sweep.failed = none ∧
      (∀ s ∈ r.workspace.residuals.sweep.stages, s.SweptConvex) ∧
      ∃ stats, (r.attempt config).outcome = .ok stats) ∧
    ∃ res, h.solveIn config t w = .ok res ∧ (res.status = .belowMinStep →
      ∃ r stats, RunState.Visits config (RunState.initial h config t w) r ∧
        (r.attempt config).outcome = .ok stats ∧ stats.alpha < config.minStep ∧
        res.report.stats = r.workspace.stats ++ [stats]) := by
  have halloc := hw.allocated hs
  refine ⟨fun r hr => ?_, _, hs.solveIn_eq, fun hend => ?_⟩
  · obtain ⟨hok, hstages⟩ := hr.convex_sweep hsymm hconvex hs halloc
    exact ⟨hok, hstages, _, congrArg StepResult.outcome (Workspace.step_of_swept hok _ _)⟩
  · exact RunState.shortStep_of_belowMinStep
      (fun r hr => (hr.convex_sweep hsymm hconvex hs halloc).1) _ _ .start hend

/-- One free control without a cost, and one state that it does not move. -/
noncomputable def Horizon.idle : Horizon ℝ where
  templates := [⟨0, .zeros 0 1 1⟩, ⟨1, .zeros 1 0 0⟩]
  accepted := rfl

/-- For instance on the idle horizon, whose control block is zero. -/
theorem no_breakdown_of_idle : Horizon.idle.Symmetric ∧ Horizon.idle.Convex ∧
    ∃ (w : Workspace ℝ) (res : SolveResult ℝ), w.Reached ∧
      Horizon.idle.Solvable .standard (Trajectory.zeros Horizon.idle.sizes) w ∧
      (RunState.initial Horizon.idle .standard (Trajectory.zeros Horizon.idle.sizes)
        w).workspace.residuals.sweep.failed = none ∧
      Horizon.idle.solveIn .standard (Trajectory.zeros Horizon.idle.sizes) w = .ok res := by
  have hzero : ∀ d ∈ Horizon.idle.stages, (∀ i j, d.Q.get i j = 0) ∧ (∀ i j, d.S.get i j = 0) ∧
      ∀ i j, d.R.get i j = 0 := by
    intro d hd
    have hpair : d ∈ [Stage.zeros 0 1 1, Stage.zeros 1 0 0] := hd
    rcases List.mem_pair.1 hpair with rfl | rfl
    · exact ⟨Mat.get_zeros _ _, Mat.get_zeros _ _, Mat.get_zeros _ _⟩
    · exact ⟨Mat.get_zeros _ _, Mat.get_zeros _ _, Mat.get_zeros _ _⟩
  have hsymm : Horizon.idle.Symmetric := by
    intro d hd
    obtain ⟨hQ, _, hR⟩ := hzero d hd
    exact ⟨fun i _ j _ => (hQ i j).trans (hQ j i).symm, fun i _ j _ => (hR i j).trans (hR j i).symm⟩
  have hconvex : Horizon.idle.Convex := by
    intro d hd u x
    obtain ⟨hQ, hS, hR⟩ := hzero d hd
    simp only [Stage.quadratic, rowSum, hQ, hS, hR, zero_mul, mul_zero, sum_const_zero, add_zero,
      le_refl]
  obtain ⟨w, _, hw, hs⟩ := Horizon.idle.exists_solvable_standard
  obtain ⟨hheads, res, hres, _⟩ := no_breakdown_of_convex hsymm hconvex hs hw.reached
  exact ⟨hsymm, hconvex, w, res, hw.reached, hs, (hheads _ .start).1, hres⟩

end StagedQP
