import StagedQP.Proofs.ResidualContraction
import StagedQP.Proofs.SemidefiniteFactor

/-!
# Certificates of optimality

The measures by which a solve judges a point bound how far its objective is from optimal. For a
convex objective and any feasible trajectory the gap is at most

```text
pairs * mu + stat * (distance of the two) + dyn * (sum of the absolute dynamics multipliers)
```

By convexity the gap of a stage is at most `-(hess v + grad)ᵀ (z - v)`, and the stationarity
residual trades the gradient for multipliers. The dynamics multipliers of neighbouring stages cancel
up to the dynamics residual. The multipliers of the rows contribute at most the products of slacks
and multipliers, provided that the residuals of the rows are not positive: slacks may be larger than
the distance to the bounds, but never smaller. They start that way and residuals contract, so they
stay that way.

## Main results

* `PackedStage.cost_expansion` — the cost about a point.
* `Evaluated.stage_gap` — the gap of a stage.
* `Evaluated.chain_gap` — the gap of a chain.
* `RunState.Visits.loose` — residuals of rows are never positive.
* `certificate_along_run` — the bound along a run, and for what a solve returns.
-/

namespace StagedQP

open Finset

variable {K : Type} [Field K] [LinearOrder K] [SquareRoot K]

/-! ## Convexity -/

namespace PackedStage

variable {p : PackedStage K} {n : Nat} (hsymm : SymmetricUpTo n p.hess.get) (v z : Nat → K)

include hsymm

omit [SquareRoot K] in
/-- The cost about a point. -/
theorem cost_expansion [IsStrictOrderedRing K] : p.cost n z = p.cost n v +
    ∑ i ∈ range n, (p.grad.get i + rowSum p.hess.get n v i) * (z i - v i) +
      (p.quadratic n fun i => z i - v i) / 2 := by
  have hform : p.quadratic n z = p.quadratic n v +
      2 * ∑ i ∈ range n, rowSum p.hess.get n v i * (z i - v i) +
        p.quadratic n fun i => z i - v i := quadForm_expansion hsymm v z
  have hlinear : ∑ i ∈ range n, p.grad.get i * z i =
      ∑ i ∈ range n, p.grad.get i * v i + ∑ i ∈ range n, p.grad.get i * (z i - v i) := by
    rw [← sum_add_distrib]
    refine sum_congr rfl fun i _ => ?_
    ring
  have hslope : ∑ i ∈ range n, (p.grad.get i + rowSum p.hess.get n v i) * (z i - v i) =
      ∑ i ∈ range n, p.grad.get i * (z i - v i) +
        ∑ i ∈ range n, rowSum p.hess.get n v i * (z i - v i) := by
    rw [← sum_add_distrib]
    exact sum_congr rfl fun i _ => add_mul ..
  rw [cost, cost, hform, hlinear, hslope, add_div, add_div,
    mul_div_cancel_left₀ _ two_ne_zero]
  ring

end PackedStage

/-! ## The gap of a stage -/

/-- The sum of all absolute entries of a vector. -/
def Vec.absSum (v : Vec K) : K := ∑ i ∈ range v.size, |v.get i|

/-- No residual of a row is positive. -/
def StageState.Loose (s : StageState K) : Prop :=
  ∀ i, s.residual.ineq.lo.get i ≤ 0 ∧ s.residual.ineq.up.get i ≤ 0

omit [SquareRoot K] in
/-- The product with a bounded vector is bounded. -/
theorem neg_sum_mul_le [IsStrictOrderedRing K] {n : Nat} {x y : Nat → K} {b : K}
    (h : ∀ i, |x i| ≤ b) : -∑ i ∈ range n, x i * y i ≤ b * ∑ i ∈ range n, |y i| := by
  rw [mul_sum, ← sum_neg_distrib]
  refine sum_le_sum fun i _ => ?_
  calc -(x i * y i) ≤ |x i| * |y i| := by
        rw [← abs_mul]
        exact neg_le_abs _
    _ ≤ b * |y i| := mul_le_mul_of_nonneg_right (h i) (abs_nonneg _)

/-- What the multipliers of the dynamics that lead to a stage make of a move of its states to those
of `z`. -/
def coupling (l : List (StageState K)) (z : Nat → Nat → K) (k : Nat) : K :=
  l[k]?.elim 0 fun s => ∑ j ∈ range s.nx,
    ((stageBefore none l k).elim 0 fun b => b.point.pi.get j) *
      (z k (s.nu + j) - s.point.v.get (s.nu + j))

namespace Evaluated

variable {l : List (StageState K)} (he : Evaluated l) (hl : HorizonShaped l) {k : Nat}
  {s : StageState K} (hs : l[k]? = some s)

include he hl hs

/-- The slope of the cost along a direction, by the stationarity residual. -/
theorem slope_eq (d : Nat → K) :
    ∑ i ∈ range (s.nu + s.nx),
        (s.data.grad.get i + rowSum s.data.hess.get (s.nu + s.nx) s.point.v.get i) * d i =
      ∑ i ∈ range (s.nu + s.nx), s.residual.stat.get i * d i
        - ∑ j ∈ range (nextNx l k), s.point.pi.get j *
            rowSum s.data.dyn.get (s.nu + s.nx) d j
        + ∑ j ∈ range s.nc, (s.point.lam.lo.get j - s.point.lam.up.get j) *
            rowSum s.data.jac.get (s.nu + s.nx) d j
        + ∑ j ∈ range s.nx,
            ((stageBefore none l k).elim 0 fun b => b.point.pi.get j) * d (s.nu + j) := by
  have hbefore : ∑ j ∈ range s.nx,
      ((stageBefore none l k).elim 0 fun b => b.point.pi.get j) * d (s.nu + j) =
      ∑ i ∈ range (s.nu + s.nx), (if i < s.nu then 0 else
        (stageBefore none l k).elim 0 fun b => b.point.pi.get (i - s.nu)) * d i := by
    have hcontrol : ∑ i ∈ range s.nu, (if i < s.nu then 0 else
        (stageBefore none l k).elim 0 fun b => b.point.pi.get (i - s.nu)) * d i = 0 := by
      refine sum_eq_zero fun i hi => ?_
      rw [if_pos (mem_range.1 hi), zero_mul]
    rw [sum_range_add, hcontrol, zero_add]
    refine sum_congr rfl fun j _ => ?_
    rw [if_neg (by omega), Nat.add_sub_cancel_left]
  rw [hbefore, sum_mul_rowSum, sum_mul_rowSum, ← sum_sub_distrib, ← sum_add_distrib,
    ← sum_add_distrib]
  refine sum_congr rfl fun i hi => ?_
  rw [he.get_stat hl.chained hs (mem_range.1 hi)]
  ring

/-- The multipliers of a stage's dynamics make of a feasible direction what they make of the states
of the stage after, up to the residual. -/
theorem dynamics_slope {z : Nat → Nat → K} (hz : PackedFeasible l z) :
    ∑ j ∈ range (nextNx l k), s.point.pi.get j *
        rowSum s.data.dyn.get (s.nu + s.nx) (fun i => z k i - s.point.v.get i) j =
      coupling l z (k + 1) - ∑ j ∈ range (nextNx l k), s.residual.dyn.get j * s.point.pi.get j := by
  cases hnext : l[k + 1]? with
  | none =>
      have hn : nextNx l k = 0 := by
        rw [nextNx, hnext]
        rfl
      rw [hn, coupling, hnext, range_zero, sum_empty, sum_empty]
      exact (sub_zero 0).symm
  | some next =>
      have hn : nextNx l k = next.nx := by
        rw [nextNx, hnext]
        rfl
      rw [hn, coupling, hnext, Option.elim_some, stageBefore, hs, ← sum_sub_distrib]
      refine sum_congr rfl fun j hj => ?_
      have hj' := mem_range.1 hj
      have hstate : next.states.get j = next.point.v.get (next.nu + j) :=
        Vec.get_slice_of_lt _ _ hj'
      have hnow := he.get_dyn hl.chained hs (hn.symm ▸ hj')
      rw [hnext, Option.elim_some, hstate] at hnow
      rw [rowSum_sub, hnow, ← hz.dynamics k s next hs hnext j hj', Option.elim_some]
      ring

/-- The multipliers of the rows make no more of a feasible direction than the products. -/
theorem rows_slope [IsStrictOrderedRing K] (hint : s.Interior) (hloose : s.Loose)
    {z : Nat → Nat → K} (hz : PackedFeasible l z) :
    -s.products ≤ ∑ j ∈ range s.nc, (s.point.lam.lo.get j - s.point.lam.up.get j) *
      rowSum s.data.jac.get (s.nu + s.nx) (fun i => z k i - s.point.v.get i) j := by
  have hshape := hl.chained k s hs
  rw [StageState.products_eq, hshape.lam_lo, hshape.lam_up, ← sum_add_distrib, ← sum_neg_distrib]
  refine sum_le_sum fun j hj => ?_
  have hj' := mem_range.1 hj
  obtain ⟨hlo, hup⟩ := hz.rows k s hs j hj'
  obtain ⟨hrlo, hrup⟩ := hloose j
  rw [he.get_lo hl.chained hs hj'] at hrlo
  rw [he.get_up hl.chained hs hj'] at hrup
  have hlower := mul_nonneg (hint.lam_lo j (hshape.lam_lo.symm ▸ hj')).le
    (show 0 ≤ rowSum s.data.jac.get (s.nu + s.nx) (z k) j
      - rowSum s.data.jac.get (s.nu + s.nx) s.point.v.get j + s.point.t.lo.get j by linarith)
  have hupper := mul_nonneg (hint.lam_up j (hshape.lam_up.symm ▸ hj')).le
    (show 0 ≤ rowSum s.data.jac.get (s.nu + s.nx) s.point.v.get j
      - rowSum s.data.jac.get (s.nu + s.nx) (z k) j + s.point.t.up.get j by linarith)
  rw [rowSum_sub]
  linarith

/-- The gap of a stage, up to what its neighbours make up for. -/
theorem stage_gap [IsStrictOrderedRing K]
    (hsymm : SymmetricUpTo (s.nu + s.nx) s.data.hess.get)
    (hconvex : ∀ y, 0 ≤ s.data.quadratic (s.nu + s.nx) y) (hint : s.Interior) (hloose : s.Loose)
    {z : Nat → Nat → K} (hz : PackedFeasible l z) {a b : K} (ha : s.residual.stat.infNorm ≤ a)
    (hb : s.residual.dyn.infNorm ≤ b) :
    s.data.cost (s.nu + s.nx) s.point.v.get - s.data.cost (s.nu + s.nx) (z k) ≤
      s.products + a * ∑ i ∈ range (s.nu + s.nx), |z k i - s.point.v.get i|
        + b * s.point.pi.absSum + (coupling l z (k + 1) - coupling l z k) := by
  have hexpand := PackedStage.cost_expansion hsymm s.point.v.get (z k)
  have hslope := he.slope_eq hl hs fun i => z k i - s.point.v.get i
  have hdynamics := he.dynamics_slope hl hs hz
  have hrows := he.rows_slope hl hs hint hloose hz
  have hquadratic := hconvex fun i => z k i - s.point.v.get i
  have hstat : -∑ i ∈ range (s.nu + s.nx), s.residual.stat.get i * (z k i - s.point.v.get i) ≤
      a * ∑ i ∈ range (s.nu + s.nx), |z k i - s.point.v.get i| :=
    neg_sum_mul_le fun i => (Vec.abs_get_le_infNorm _ i).trans ha
  have hdyn : -∑ j ∈ range (nextNx l k), s.residual.dyn.get j * s.point.pi.get j ≤
      b * s.point.pi.absSum := by
    rw [Vec.absSum, (hl.chained k s hs).pi]
    exact neg_sum_mul_le fun j => (Vec.abs_get_le_infNorm _ j).trans hb
  have hcoupling : coupling l z k = ∑ j ∈ range s.nx,
      ((stageBefore none l k).elim 0 fun b => b.point.pi.get j) *
        (z k (s.nu + j) - s.point.v.get (s.nu + j)) := by
    rw [coupling, hs, Option.elim_some]
  rw [hdynamics, ← hcoupling] at hslope
  linarith

end Evaluated

omit [LinearOrder K] [SquareRoot K] in
/-- Between neighbours the multipliers of the dynamics cancel. -/
theorem indexedSum_coupling {l : List (StageState K)} (hl : HorizonShaped l) (z : Nat → Nat → K) :
    indexedSum l (fun k _ => coupling l z (k + 1) - coupling l z k) = 0 := by
  have hfirst : coupling l z 0 = 0 := by
    rw [coupling]
    cases hs : l[0]? with
    | none => rfl
    | some s => rw [Option.elim_some, hl.first s hs, range_zero, sum_empty]
  have hend : coupling l z l.length = 0 := by
    rw [coupling, List.getElem?_eq_none le_rfl]
    rfl
  rw [indexedSum_differences, hfirst, hend, sub_zero]

/-- The gap of a chain. -/
theorem Evaluated.chain_gap [IsStrictOrderedRing K] {w : Workspace K} (he : Evaluated w.stages)
    (hl : HorizonShaped w.stages)
    (hsymm : ∀ s ∈ w.stages, SymmetricUpTo (s.nu + s.nx) s.data.hess.get)
    (hconvex : ∀ s ∈ w.stages, ∀ y, 0 ≤ s.data.quadratic (s.nu + s.nx) y)
    (hint : ∀ s ∈ w.stages, s.Interior) (hloose : ∀ s ∈ w.stages, s.Loose)
    {z : Nat → Nat → K} (hz : PackedFeasible w.stages z) :
    indexedSum w.stages (fun k s =>
        s.data.cost (s.nu + s.nx) s.point.v.get - s.data.cost (s.nu + s.nx) (z k)) ≤
      (w.stages.map StageState.products).sum
        + w.residualNorms.stat * indexedSum w.stages (fun k s =>
            ∑ i ∈ range (s.nu + s.nx), |z k i - s.point.v.get i|)
        + w.residualNorms.dyn * (w.stages.map fun s => s.point.pi.absSum).sum := by
  calc indexedSum w.stages (fun k s =>
        s.data.cost (s.nu + s.nx) s.point.v.get - s.data.cost (s.nu + s.nx) (z k))
      ≤ indexedSum w.stages fun k s => s.products
          + w.residualNorms.stat * ∑ i ∈ range (s.nu + s.nx), |z k i - s.point.v.get i|
          + w.residualNorms.dyn * s.point.pi.absSum
          + (coupling w.stages z (k + 1) - coupling w.stages z k) := by
        refine indexedSum_le fun k s hs => ?_
        have hmem := List.mem_of_getElem? hs
        exact he.stage_gap hl hs (hsymm s hmem) (hconvex s hmem) (hint s hmem) (hloose s hmem) hz
          ((Workspace.norms_stat_le_iff.1 le_rfl).2 s hmem)
          ((Workspace.norms_dyn_le_iff.1 le_rfl).2 s hmem)
    _ = _ := by
        rw [indexedSum_add, indexedSum_add, indexedSum_add, indexedSum_mul, indexedSum_mul,
          indexedSum_coupling hl, add_zero, indexedSum_eq_sum, indexedSum_eq_sum]

/-! ## The gap of a workspace -/

/-- What the trajectory of a workspace costs more than another one, stage by stage. -/
theorem Workspace.objective_sub {h : Horizon K} {w : Workspace K} (hw : HorizonShaped w.stages)
    (hl : w.stages.map StageState.fixed = h.stages.map Stage.fixed) (z : Trajectory K) :
    h.objective w.toTrajectory - h.objective z = indexedSum w.stages fun k s =>
      s.data.cost (s.nu + s.nx) s.point.v.get - s.data.cost (s.nu + s.nx) (h.vectors z k) := by
  have hobjective : h.objective w.toTrajectory =
      indexedSum w.stages fun _ s => s.data.cost (s.nu + s.nx) s.point.v.get := by
    rw [h.objective_eq hl]
    refine indexedSum_congr rfl fun k s s' hs hs' => ?_
    obtain rfl := Option.some.inj (hs.symm.trans hs')
    exact s.data.cost_congr fun i hi => Workspace.vectors_toTrajectory hw hl hs hi
  rw [hobjective, h.objective_eq hl z, sub_eq_iff_eq_add, ← indexedSum_add]
  refine indexedSum_congr rfl fun k s s' hs hs' => ?_
  obtain rfl := Option.some.inj (hs.symm.trans hs')
  exact (sub_add_cancel _ _).symm

/-- The products add up to the duality measure of every pair. -/
theorem Workspace.sum_products {w : Workspace K} [IsStrictOrderedRing K]
    (h : HorizonShaped w.stages) :
    (w.stages.map StageState.products).sum = (w.pairs : K) * w.duality := by
  by_cases hpairs : w.pairs = 0
  · have hzero : w.stages.map StageState.products = w.stages.map fun _ => (0 : K) := by
      refine List.map_congr_left fun s hs => ?_
      obtain ⟨k, hk⟩ := List.getElem?_of_mem hs
      have hshape := h.chained k s hk
      rw [StageState.products_eq, hshape.lam_lo, hshape.lam_up,
        Workspace.nc_eq_zero_of_pairs hpairs s hs, range_zero, sum_empty, sum_empty, add_zero]
    rw [hzero, hpairs, Nat.cast_zero, zero_mul]
    exact List.sum_eq_zero fun x hx => (List.mem_map.1 hx).elim fun _ h => h.2.symm
  · rw [Workspace.duality_eq hpairs, mul_div_cancel₀ _ (Nat.cast_ne_zero.2 hpairs)]

/-- The sum of the absolute dynamics multipliers. -/
def Workspace.multiplierSum (w : Workspace K) : K :=
  (w.stages.map fun s => s.point.pi.absSum).sum

/-- The gap of the trajectory of a workspace to a feasible one. -/
theorem Workspace.objective_gap [IsStrictOrderedRing K] {h : Horizon K} (hsymm : h.Symmetric)
    (hconvex : h.Convex) {w : Workspace K} (he : Evaluated w.stages) (hw : HorizonShaped w.stages)
    (hl : w.stages.map StageState.fixed = h.stages.map Stage.fixed)
    (hint : ∀ s ∈ w.stages, s.Interior) (hloose : ∀ s ∈ w.stages, s.Loose) {z : Trajectory K}
    (hz : h.Feasible z) :
    h.objective w.toTrajectory - h.objective z ≤ (w.pairs : K) * w.duality
      + w.residualNorms.stat * h.distance z w.toTrajectory
      + w.residualNorms.dyn * w.multiplierSum := by
  have hgap := he.chain_gap hw (hsymm.hess hl) (hconvex.quadratic_nonneg hl) hint hloose
    (hz.packed hl)
  have hdistance : h.distance z w.toTrajectory = indexedSum w.stages fun k s =>
      ∑ i ∈ range (s.nu + s.nx), |h.vectors z k i - s.point.v.get i| := by
    rw [h.distance_eq hl]
    refine indexedSum_congr rfl fun k s s' hs hs' => ?_
    obtain rfl := Option.some.inj (hs.symm.trans hs')
    refine sum_congr rfl fun i hi => ?_
    rw [Workspace.vectors_toTrajectory hw hl hs (mem_range.1 hi)]
  rw [← Workspace.objective_sub hw hl, Workspace.sum_products hw, ← hdistance] at hgap
  exact hgap

/-! ## Residuals of rows along a run -/

theorem Vec.scaled_nonpos [IsStrictOrderedRing K] {c : K} (hc : 0 ≤ c) {v : Vec K}
    (hv : ∀ i, v.get i ≤ 0) (i : Nat) : (v.map fun x => c * x).get i ≤ 0 := by
  rcases Nat.lt_or_ge i v.size with hi | hi
  · rw [get_map _ _ hi]
    exact mul_nonpos_of_nonneg_of_nonpos hc (hv i)
  · rw [get_of_size_le (by rw [size_map]; exact hi)]

/-- Slacks start no smaller than the distance to the bounds. -/
theorem StageState.loose_start [IsStrictOrderedRing K] {mu0 : K} {s : StageState K} {n : Nat}
    (hs : (s.start mu0).Shaped n) (before after : Option (StageState K)) :
    ((s.start mu0).evaluated before after).Loose := by
  have hnc : (s.start mu0).nc = s.nc := rfl
  intro i
  rcases Nat.lt_or_ge i s.nc with hi | hi
  · obtain ⟨htlo, htup⟩ := get_start_t hs hi
    rw [get_evaluated_lo hs before after (hnc.symm ▸ hi),
      get_evaluated_up hs before after (hnc.symm ▸ hi), htlo, htup]
    exact ⟨sub_nonpos.2 (le_max_left _ _), sub_nonpos.2 (le_max_left _ _)⟩
  · rw [Vec.get_of_size_le (by rw [size_evaluated_lo hs]; exact hi),
      Vec.get_of_size_le (by rw [size_evaluated_up hs]; exact hi)]
    exact ⟨le_rfl, le_rfl⟩

/-- No residual of a row is ever positive. -/
theorem RunState.Visits.loose [IsStrictOrderedRing K] {h : Horizon K} {config : SolverConfig K}
    {t : Trajectory K} {w : Workspace K} (hs : h.Solvable config t w) (hw : w.Allocated)
    {r : RunState K} (hr : RunState.Visits config (RunState.initial h config t w) r) :
    ∀ s ∈ r.workspace.residuals.stages, s.Loose := by
  refine RunState.Visits.induction (P := fun r => ∀ s ∈ r.workspace.residuals.stages, s.Loose)
    ?_ (fun r hr ih _ _ => ?_) r hr
  · intro s' hs'
    obtain ⟨k, hk⟩ := List.getElem?_of_mem hs'
    rw [Workspace.residuals_getElem?] at hk
    obtain ⟨s₁, hs₁, rfl⟩ := Option.map_eq_some_iff.1 hk
    have hshape := (Horizon.horizonShaped_initial hs hw).chained k s₁ hs₁
    obtain ⟨s, d, _, _, _, rfl⟩ := hs.initial_getElem? hw hs₁
    exact StageState.loose_start hshape _ _
  · intro s' hs'
    obtain ⟨s, hmem, heq⟩ := Workspace.exists_scaled
      (RunState.feasibility_next (hs.visited hw hr).1) hs'
    have hfactor : 0 ≤ 1 - (r.workspace.residuals.record r.mu config.sigmaMin).alpha :=
      sub_nonneg.2 (RunState.alpha_next hs hw hr).2
    intro i
    rw [show s'.residual.ineq.lo = _ from congrArg (fun p => p.2.lo) heq.symm,
      show s'.residual.ineq.up = _ from congrArg (fun p => p.2.up) heq.symm]
    exact ⟨Vec.scaled_nonpos hfactor (fun j => (ih s hmem j).1) i,
      Vec.scaled_nonpos hfactor (fun j => (ih s hmem j).2) i⟩

/-! ## The certificate -/

theorem Horizon.distance_nonneg [IsStrictOrderedRing K] (h : Horizon K) (t t' : Trajectory K) :
    0 ≤ h.distance t t' := by
  refine indexedSum_nonneg fun k d _ => ?_
  exact add_nonneg (sum_nonneg fun i _ => abs_nonneg _) (sum_nonneg fun i _ => abs_nonneg _)

omit [SquareRoot K] in
theorem Workspace.multiplierSum_nonneg [IsStrictOrderedRing K] (w : Workspace K) :
    0 ≤ w.multiplierSum := by
  refine List.sum_nonneg fun x hx => ?_
  obtain ⟨s, _, rfl⟩ := List.mem_map.1 hx
  exact sum_nonneg fun i _ => abs_nonneg _

omit [SquareRoot K] in
theorem Workspace.multiplierSum_of_base {w w' : Workspace K}
    (h : w'.stages.map StageState.base = w.stages.map StageState.base) :
    w'.multiplierSum = w.multiplierSum :=
  congrArg List.sum
    (map_map_eq (f := StageState.base) (g := fun b => b.2.2.pi.absSum) h)

/-- The gap at a loop head. -/
theorem RunState.Visits.objective_gap [IsStrictOrderedRing K] {h : Horizon K}
    {config : SolverConfig K} {t : Trajectory K} {w : Workspace K} (hsymm : h.Symmetric)
    (hconvex : h.Convex) (hs : h.Solvable config t w) (hw : w.Allocated) {r : RunState K}
    (hr : RunState.Visits config (RunState.initial h config t w) r) {z : Trajectory K}
    (hz : h.Feasible z) :
    h.objective r.workspace.toTrajectory - h.objective z ≤
      (r.workspace.pairs : K) * r.workspace.duality
      + r.workspace.residuals.residualNorms.stat * h.distance z r.workspace.toTrajectory
      + r.workspace.residuals.residualNorms.dyn * r.workspace.multiplierSum := by
  obtain ⟨hshaped, hfixed⟩ := hs.visited hw hr
  have hint := hr.interior hs hw
  have hbase := Workspace.residuals_base r.workspace
  obtain ⟨hpairs, hduality⟩ := Workspace.duality_of_base hbase
  have hgap := Workspace.objective_gap hsymm hconvex (evaluated_of_base rfl)
    (Workspace.horizonShaped_residuals hshaped) ((map_fixed_of_base hbase).trans hfixed)
    hint.residuals (hr.loose hs hw) hz
  rw [Workspace.toTrajectory_of_base hbase, Workspace.multiplierSum_of_base hbase, hpairs,
    hduality] at hgap
  exact hgap

/-- **What a solve reports certifies optimality.** On a symmetric convex horizon, at every loop head
of a solve, the objective exceeds that of any feasible trajectory by no more than the pairs times
the duality measure, the stationarity norm times the distance, and the dynamics norm times the sum
of the absolute dynamics multipliers. The solve returns, the bound holds for the returned trajectory
and report, and after success each of the three measures is at most the tolerance. -/
theorem certificate_along_run [IsStrictOrderedRing K] {h : Horizon K} {config : SolverConfig K}
    {t : Trajectory K} {w : Workspace K} (hsymm : h.Symmetric) (hconvex : h.Convex)
    (hs : h.Solvable config t w) (hw : w.InUse) :
    (∀ r, RunState.Visits config (RunState.initial h config t w) r → ∀ z, h.Feasible z →
      h.objective r.workspace.toTrajectory - h.objective z ≤
        (r.workspace.pairs : K) * r.workspace.duality
        + r.workspace.residuals.residualNorms.stat * h.distance z r.workspace.toTrajectory
        + r.workspace.residuals.residualNorms.dyn * r.workspace.multiplierSum) ∧
    ∃ res, h.solveIn config t w = .ok res ∧ ∀ z, h.Feasible z →
      (h.objective res.trajectory - h.objective z ≤ (res.workspace.pairs : K) * res.report.mu
        + res.report.norms.stat * h.distance z res.trajectory
        + res.report.norms.dyn * res.workspace.multiplierSum) ∧
      (res.status = .success → h.objective res.trajectory ≤ h.objective z
        + config.tol * (res.workspace.pairs + h.distance z res.trajectory
          + res.workspace.multiplierSum)) := by
  obtain ⟨res, hres, r, hr, hfrom⟩ := hs.exists_solveIn
  refine ⟨fun r hr z hz => hr.objective_gap hsymm hconvex hs hw.allocated hz, res, hres,
    fun z hz => ?_⟩
  have hbase : res.workspace.stages.map StageState.base =
      r.workspace.stages.map StageState.base :=
    (map_base_of_core hfrom.core).trans (Workspace.residuals_base _)
  have hgap : h.objective res.trajectory - h.objective z ≤
      (res.workspace.pairs : K) * res.report.mu
        + res.report.norms.stat * h.distance z res.trajectory
        + res.report.norms.dyn * res.workspace.multiplierSum := by
    rw [hfrom.trajectory, hfrom.mu, (hr.interior hs hw.allocated).mu, hfrom.norms,
      Workspace.multiplierSum_of_base hbase, (Workspace.duality_of_base hbase).1]
    exact hr.objective_gap hsymm hconvex hs hw.allocated hz
  refine ⟨hgap, fun hsuccess => ?_⟩
  obtain ⟨hmu, hstat, hdyn, _⟩ := Gap.le_of_within (hfrom.within hsuccess)
  have hpairs : (res.workspace.pairs : K) * res.report.mu ≤ res.workspace.pairs * config.tol := by
    rw [hfrom.mu]
    exact mul_le_mul_of_nonneg_left hmu (Nat.cast_nonneg _)
  have hdistance : res.report.norms.stat * h.distance z res.trajectory ≤
      config.tol * h.distance z res.trajectory := by
    rw [hfrom.norms]
    exact mul_le_mul_of_nonneg_right hstat (h.distance_nonneg _ _)
  have hmultiplier : res.report.norms.dyn * res.workspace.multiplierSum ≤
      config.tol * res.workspace.multiplierSum := by
    rw [hfrom.norms]
    exact mul_le_mul_of_nonneg_right hdyn res.workspace.multiplierSum_nonneg
  linarith

/-- For instance on the unit step, against the trajectory that rests at zero. -/
theorem certificate_along_unitStep : Horizon.unitStep.Symmetric ∧ Horizon.unitStep.Convex ∧
    Horizon.unitStep.Feasible (Trajectory.zeros Horizon.unitStep.sizes) ∧
    ∃ (w : Workspace ℝ) (res : SolveResult ℝ), w.InUse ∧
      Horizon.unitStep.Solvable .standard (Trajectory.zeros Horizon.unitStep.sizes) w ∧
      Horizon.unitStep.solveIn .standard (Trajectory.zeros Horizon.unitStep.sizes) w = .ok res ∧
      Horizon.unitStep.objective res.trajectory
          - Horizon.unitStep.objective (Trajectory.zeros Horizon.unitStep.sizes) ≤
        (res.workspace.pairs : ℝ) * res.report.mu
          + res.report.norms.stat * Horizon.unitStep.distance
            (Trajectory.zeros Horizon.unitStep.sizes) res.trajectory
          + res.report.norms.dyn * res.workspace.multiplierSum := by
  have hsymm : Horizon.unitStep.Symmetric := Horizon.symmetric_oneStep _
  have hconvex : Horizon.unitStep.Convex := Horizon.convex_oneStep _ zero_le_one zero_le_one
  have hrest : Horizon.unitStep.Feasible (Trajectory.zeros Horizon.unitStep.sizes) :=
    Horizon.feasible_oneStep _ (by norm_num) zero_le_one
  obtain ⟨w, _, hw, hs⟩ := Horizon.unitStep.exists_solvable_standard
  obtain ⟨_, res, hres, hgap⟩ := certificate_along_run hsymm hconvex hs hw
  exact ⟨hsymm, hconvex, hrest, w, res, hw, hs, hres, (hgap _ hrest).1⟩

end StagedQP
