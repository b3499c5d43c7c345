import StagedQP.Proofs.Condensation
import StagedQP.Proofs.CostToGo
import StagedQP.Proofs.PackedProblem
import StagedQP.Proofs.StepLength

/-!
# Horizons of one step

The smallest horizon with all that a horizon can have: one control between bounds, which becomes the
only state.

```text
minimize ½ r u² + ½ q x²   subject to   x = u,   lo ≤ u ≤ up
```

It is symmetric, and convex for nonnegative weights. Its only control block is the sum of `r`, `q`
and the barrier weights, so for `r ≥ 1` and `q ≥ 0` a sweep at a point of the interior needs no
shift.

## Main results

* `Horizon.symmetric_oneStep`, `Horizon.convex_oneStep` — the cost.
* `Horizon.feasible_oneStep` — a feasible trajectory.
* `Horizon.swept_oneStep` — the factorization.
* `SolverConfig.check_standard`, `Horizon.exists_solvable_standard` — the customary parameters are
  in range, and every horizon can be solved with them.
-/

namespace StagedQP

open Finset

variable {K : Type} [Field K] [LinearOrder K] [SquareRoot K]

omit [Field K] [LinearOrder K] [SquareRoot K] in
/-- A table with at most one row is symmetric. -/
theorem symmetricUpTo_of_le_one {n : Nat} (a : Nat → Nat → K) (hn : n ≤ 1) :
    SymmetricUpTo n a := by
  intro i hi j hj
  obtain rfl : i = 0 := by omega
  obtain rfl : j = 0 := by omega
  rfl

/-! ## The stages -/

/-- One control between bounds, which becomes the state of the stage after. -/
def Stage.bounded (r lo up : K) : Stage K :=
  { Stage.zeros 0 1 1 with
    B := Mat.ofFn 1 1 fun _ _ => 1
    R := Mat.ofFn 1 1 fun _ _ => r
    idxb := [0]
    lb := Vec.ofList [lo]
    ub := Vec.ofList [up] }

/-- One state with a cost. -/
def Stage.final (q : K) : Stage K :=
  { Stage.zeros 1 0 0 with Q := Mat.ofFn 1 1 fun _ _ => q }

/-- The horizon of one step with one control and one state. -/
def Horizon.oneStep (r q lo up : K) (h : lo ≤ up) : Horizon K where
  templates := [⟨0, .bounded r lo up⟩, ⟨1, .final q⟩]
  accepted := by
    have hbounds : Stage.boundsInOrder lo up = true := by
      rw [Stage.boundsInOrder, Scalar.isFinite_exact, Scalar.isFinite_exact,
        (Scalar.lt_eq_false_iff _ _).2 (not_lt.2 h)]
      rfl
    have hrows : Stage.checkBounds 0 0 ((Stage.bounded r lo up).lower.zip
        (Stage.bounded r lo up).upper) = .ok () := by
      show Stage.checkBounds 0 0 [(lo, up)] = _
      rw [Stage.checkBounds, if_pos hbounds, Stage.checkBounds]
    have hfirst : (Stage.bounded r lo up).check 0 = .ok () := by
      rw [Stage.check, seq_eq_ok, seq_eq_ok]
      exact ⟨rfl, rfl, hrows⟩
    have hfinal : (Stage.final q).check 1 = .ok () := rfl
    have hlength : ¬ [Stage.bounded r lo up, Stage.final q].length < 2 := Nat.lt_irrefl 2
    show Horizon.check [Stage.bounded r lo up, Stage.final q] = _
    rw [check, if_neg hlength]
    dsimp only
    rw [seq_eq_ok, checkStages, seq_eq_ok, checkStages, seq_eq_ok]
    exact ⟨⟨hfirst, hfinal, rfl⟩, rfl⟩

/-- The horizon of one step over the real numbers, with unit weights and bounds. -/
noncomputable def Horizon.unitStep : Horizon ℝ := oneStep 1 1 (-1) 1 (by norm_num)

/-- Its only inequality row bounds the control. -/
theorem Horizon.rowCount_unitStep : unitStep.rowCount = 1 := rfl

section Problem

variable {r q lo up : K} (h : lo ≤ up)

theorem Horizon.stages_oneStep :
    (oneStep r q lo up h).stages = [Stage.bounded r lo up, Stage.final q] := rfl

theorem Horizon.symmetric_oneStep : (oneStep r q lo up h).Symmetric := by
  intro d hd
  rw [stages_oneStep, List.mem_pair] at hd
  rcases hd with rfl | rfl
  · exact ⟨symmetricUpTo_of_le_one _ zero_le_one, symmetricUpTo_of_le_one _ le_rfl⟩
  · exact ⟨symmetricUpTo_of_le_one _ le_rfl, symmetricUpTo_of_le_one _ zero_le_one⟩

theorem Horizon.convex_oneStep [IsStrictOrderedRing K] (hr : 0 ≤ r) (hq : 0 ≤ q) :
    (oneStep r q lo up h).Convex := by
  intro d hd u x
  rw [stages_oneStep, List.mem_pair] at hd
  rcases hd with rfl | rfl
  · have hform : (Stage.bounded r lo up).quadratic u x = u 0 * (r * u 0) := by
      show ∑ i ∈ range 0, _ + 2 * ∑ i ∈ range 1, u i * ∑ j ∈ range 0, _
        + ∑ i ∈ range 1, u i * ∑ j ∈ range 1, (Mat.ofFn 1 1 fun _ _ => r).get i j * u j = _
      simp [Mat.get_ofFn]
    rw [hform, mul_left_comm]
    exact mul_nonneg hr (mul_self_nonneg _)
  · have hform : (Stage.final q).quadratic u x = x 0 * (q * x 0) := by
      show ∑ i ∈ range 1, x i * ∑ j ∈ range 1, (Mat.ofFn 1 1 fun _ _ => q).get i j * x j
        + 2 * ∑ i ∈ range 0, _ + ∑ i ∈ range 0, _ = _
      simp [Mat.get_ofFn]
    rw [hform, mul_left_comm]
    exact mul_nonneg hq (mul_self_nonneg _)

/-- With bounds around zero, resting at zero is feasible. -/
theorem Horizon.feasible_oneStep (hlo : lo ≤ 0) (hup : 0 ≤ up) :
    (oneStep r q lo up h).Feasible (Trajectory.zeros (oneStep r q lo up h).sizes) := by
  have hrest : ∀ (a : Nat → Nat → K) n i, rowSum a n (fun _ => 0) i = 0 := fun a n i =>
    sum_eq_zero fun j _ => mul_zero _
  refine ⟨Trajectory.fits_zeros _, fun k d hd i _ => ?_, fun k d hd => ?_⟩
  · have hmem := List.mem_of_getElem? hd
    rw [stages_oneStep, List.mem_pair] at hmem
    rw [Trajectory.control_zeros, Trajectory.state_zeros, Trajectory.state_zeros, Stage.successor,
      hrest, hrest, zero_add, zero_add]
    rcases hmem with rfl | rfl
    · exact (Vec.get_zeros 1 i).symm
    · exact (Vec.get_zeros 0 i).symm
  · have hmem := List.mem_of_getElem? hd
    rw [stages_oneStep, List.mem_pair] at hmem
    rw [Trajectory.control_zeros, Trajectory.state_zeros]
    rcases hmem with rfl | rfl
    · refine ⟨fun row i hi => ?_, fun row hrow => absurd hrow (Nat.not_lt_zero row)⟩
      have hrow : row < 1 := (List.getElem?_eq_some_iff.1 hi).1
      obtain rfl : row = 0 := by omega
      rw [show stageVector _ (fun _ => 0) (fun _ => 0) i = (0 : K) from ite_self 0]
      exact ⟨hlo, hup⟩
    · refine ⟨fun row i hi => ?_, fun row hrow => absurd hrow (Nat.not_lt_zero row)⟩
      cases hi

end Problem

/-! ## The control block -/

section ScalarBlock

variable [ExactRoots K] [IsStrictOrderedRing K] {m : Mat K} (hrows : m.rows = 1)
  (hcols : m.cols = 1)

include hrows hcols

omit [IsStrictOrderedRing K] in
/-- A positive number has a factor. -/
theorem Cholesky.factor_one (hpos : 0 < m.get 0 0) : ∃ c, factor m = some c ∧ c.size = 1 ∧
    c.lower.get 0 0 * c.lower.get 0 0 = m.get 0 0 := by
  have hsteps : steps m m.rows = eliminate m 0 := by
    rw [hrows]
    rfl
  rw [factor, hsteps, eliminate, if_pos ((Scalar.lt_iff _ _).2 hpos)]
  refine ⟨_, rfl, hrows, ?_⟩
  have hroot : ∀ a : Mat K, a.get 0 0 = SquareRoot.sqrt (m.get 0 0) →
      (Mat.ofFn m.rows m.rows fun i j => if j ≤ i then a.get i j else 0).get 0 0 =
        SquareRoot.sqrt (m.get 0 0) := by
    intro a ha
    rw [Mat.get_ofFn_of_lt _ (by omega) (by omega), if_pos le_rfl, ha]
  rw [hroot]
  · exact ExactRoots.sqrt_mul_self hpos
  · rw [Mat.get_ofFn_of_lt _ (by omega) (by omega), if_neg (by omega), if_pos rfl, pivotColumn,
      Vec.get_ofFn_of_lt _ (by omega), if_neg (by omega), if_pos rfl]
    rfl

/-- A number of at least one is factored without a shift. -/
theorem ControlFactor.of?_one (hone : 1 ≤ m.get 0 0) : ∃ c, of? m = some c ∧ c.shift = none := by
  have hpos : 0 < m.get 0 0 := zero_lt_one.trans_le hone
  obtain ⟨c, hc, hsize, hsq⟩ := Cholesky.factor_one hrows hcols hpos
  have hscale : scale m = m.get 0 0 := by
    rw [scale, hrows]
    show max 1 |m.get 0 0| = _
    rw [abs_of_pos hpos, max_eq_right hone]
  have hpivot : (leastPivot : K) * m.get 0 0 < m.get 0 0 := by
    have hleast : (leastPivot : K) < 1 := by
      rw [leastPivot, Scalar.decimal_exact, Nat.cast_one, div_lt_one (by positivity)]
      norm_num
    calc (leastPivot : K) * m.get 0 0 < 1 * m.get 0 0 := mul_lt_mul_of_pos_right hleast hpos
      _ = m.get 0 0 := one_mul _
  have hpivots : c.pivotsExceed (leastPivot * m.get 0 0) = true := by
    rw [Cholesky.pivotsExceed, hsize]
    show (Scalar.isFinite _ && Scalar.lt _ _ && true) = true
    rw [Scalar.isFinite_exact, hsq, (Scalar.lt_iff _ _).2 hpivot]
    rfl
  have htry : tryFactor (scale m) m = some c := by
    rw [tryFactor, hc, hscale, Option.filter_some, if_pos hpivots]
  rw [of?, htry]
  exact ⟨_, rfl, rfl⟩

end ScalarBlock

/-- The control block of a stage with one control, when what comes after has one state. -/
theorem StageState.controlBlock_single {s : StageState K} {next : Mat K} (hnu : s.nu = 1)
    (hrows : s.condensed.hess.rows = 1) (hcols : s.condensed.hess.cols = 1)
    (hdynRows : s.data.dyn.rows = 1) (hdynCols : s.data.dyn.cols = 1) (hnext : next.cols = 1) :
    (s.pullCost next).controlBlock.get 0 0 = s.condensed.hess.get 0 0 +
      s.data.dyn.get 0 0 * next.get 0 0 * s.data.dyn.get 0 0 := by
  have hcontrol : 0 < (s.pullCost next).nu := by
    show 0 < s.nu
    omega
  rw [get_controlBlock (s.pullCost next) hcontrol hcontrol]
  show (Mat.addMul s.condensed.hess (s.data.dyn.trMul next) s.data.dyn).get 0 0 = _
  rw [Mat.get_addMul _ _ _ (by omega) (by omega)]
  show _ + ∑ k ∈ range next.cols, _ = _
  rw [hnext, sum_range_one, Mat.get_trMul _ _ (by omega) (by omega), hdynRows, sum_range_one]

/-- A sweep over two stages with a control block of at least one. -/
theorem Riccati.swept_pair [ExactRoots K] [IsStrictOrderedRing K] {s last : StageState K}
    (hnu : s.nu = 1)
    (hblock : 1 ≤ (s.pullCost last.closeCost.riccati.cost).controlBlock.get 0 0) :
    (factorize [s, last]).failed = none ∧ (factorize [s, last]).warnings = [] := by
  obtain ⟨c, hc, hshift⟩ := ControlFactor.of?_one
    (m := (s.pullCost last.closeCost.riccati.cost).controlBlock) hnu hnu hblock
  have hne : (s.pullCost last.closeCost.riccati.cost).nu ≠ 0 := by
    show s.nu ≠ 0
    rw [hnu]
    exact one_ne_zero
  have hsweep : (factorize [s, last]).failed =
        (factorStage 0 (s.pullCost last.closeCost.riccati.cost)).failed ∧
      (factorize [s, last]).warnings =
        (factorStage 0 (s.pullCost last.closeCost.riccati.cost)).warnings := ⟨rfl, rfl⟩
  rw [hsweep.1, hsweep.2, factorStage_of_some hne hc, hshift]
  exact ⟨rfl, rfl⟩

/-! ## The sweep -/

section Sweep

variable {r q lo up : K}

omit [LinearOrder K] [SquareRoot K] in
theorem PackedStage.hess_bounded : (ofStage (Stage.bounded r lo up)).hess.get 0 0 = r := by
  refine (Mat.get_ofFn_of_lt _ Nat.one_pos Nat.one_pos).trans ?_
  refine (if_pos Nat.one_pos).trans ((if_pos Nat.one_pos).trans ?_)
  exact Mat.get_ofFn_of_lt _ Nat.one_pos Nat.one_pos

omit [LinearOrder K] [SquareRoot K] in
theorem PackedStage.jac_bounded : (ofStage (Stage.bounded r lo up)).jac.get 0 0 = 1 := by
  refine (Mat.get_ofFn_of_lt _ Nat.one_pos Nat.one_pos).trans ?_
  exact (if_pos Nat.one_pos).trans (if_pos rfl)

omit [LinearOrder K] [SquareRoot K] in
theorem PackedStage.dyn_bounded : (ofStage (Stage.bounded r lo up)).dyn.get 0 0 = 1 := by
  refine (Mat.get_ofFn_of_lt _ Nat.one_pos Nat.one_pos).trans ?_
  refine (if_pos Nat.one_pos).trans ?_
  exact Mat.get_ofFn_of_lt _ Nat.one_pos Nat.one_pos

omit [LinearOrder K] [SquareRoot K] in
theorem PackedStage.hess_final : (ofStage (Stage.final q)).hess.get 0 0 = q := by
  refine (Mat.get_ofFn_of_lt _ Nat.one_pos Nat.one_pos).trans ?_
  refine (if_neg (Nat.lt_irrefl 0)).trans ((if_neg (Nat.lt_irrefl 0)).trans ?_)
  exact Mat.get_ofFn_of_lt _ Nat.one_pos Nat.one_pos

variable {s last : StageState K} (hs : s.Shaped 1) (hlast : last.Shaped 0)
  (heq : s.fixed = (Stage.bounded r lo up).fixed) (heqLast : last.fixed = (Stage.final q).fixed)

include hs heq in
/-- The condensed Hessian of the control. -/
theorem StageState.condensed_bounded : s.condenseHessian.condensed.hess.get 0 0 = r +
    (s.point.lam.lo.get 0 / s.point.t.lo.get 0 + s.point.lam.up.get 0 / s.point.t.up.get 0) := by
  obtain ⟨hnu, hnx, hdata⟩ := StageState.eq_of_fixed heq
  have hnv : 0 < s.nu + s.nx := by
    rw [hnu, hnx]
    exact Nat.one_pos
  have hnc : s.nc = 1 := by
    rw [StageState.nc, hdata]
    rfl
  have hshape : s.condenseHessian.Shaped 1 := hs.condenseHessian
  have hget := StageState.get_condensed_hess hshape rfl hnv hnv
  have hweight := StageState.get_weight hs (i := 0) (by omega)
  rw [hget]
  show s.data.hess.get 0 0 + ∑ k ∈ range s.nc, s.data.jac.get k 0 *
    (s.condenseHessian.condensed.weight.get k * s.data.jac.get k 0) = _
  rw [hnc, sum_range_one, hweight, hdata, PackedStage.hess_bounded, PackedStage.jac_bounded,
    one_mul, mul_one]

include hlast heqLast in
/-- The cost-to-go of the state. -/
theorem StageState.cost_final : last.condenseHessian.closeCost.riccati.cost.get 0 0 = q := by
  obtain ⟨hnu, hnx, hdata⟩ := StageState.eq_of_fixed heqLast
  have hnu' : last.nu = 0 := hnu
  have hnx' : last.nx = 1 := hnx
  have hnc : last.nc = 0 := by
    rw [StageState.nc, hdata]
    rfl
  have hshape : last.condenseHessian.Shaped 0 := { hlast with }
  have hget := StageState.get_condensed_hess hshape rfl (i := 0) (j := 0)
    (show 0 < last.nu + last.nx by omega) (show 0 < last.nu + last.nx by omega)
  show (last.condenseHessian.condensed.hess.block last.nu last.nu last.nx last.nx).get 0 0 = _
  rw [Mat.get_block_of_lt _ _ _ (by omega) (by omega), hnu', hget]
  show last.data.hess.get 0 0 + ∑ k ∈ range last.nc, _ = _
  rw [hnc, range_zero, sum_empty, add_zero, hdata, PackedStage.hess_final]

include hs hlast heq heqLast in
/-- The control block. -/
theorem StageState.controlBlock_oneStep : (s.condenseHessian.pullCost
    last.condenseHessian.closeCost.riccati.cost).controlBlock.get 0 0 = r +
      (s.point.lam.lo.get 0 / s.point.t.lo.get 0 + s.point.lam.up.get 0 / s.point.t.up.get 0)
        + q := by
  obtain ⟨hnu, hnx, hdata⟩ := StageState.eq_of_fixed heq
  have hnv : s.nu + s.nx = 1 := by rw [hnu, hnx]; rfl
  have hcols : last.condenseHessian.closeCost.riccati.cost.cols = 1 :=
    (StageState.eq_of_fixed heqLast).2.1
  have hblock := controlBlock_single (s := s.condenseHessian) hnu (hs.hess_rows.trans hnv)
    (hs.hess_cols.trans hnv) hs.dyn_rows (hs.dyn_cols.trans hnv) hcols
  have hdyn : s.condenseHessian.data.dyn.get 0 0 = 1 := hdata ▸ PackedStage.dyn_bounded
  rw [hblock, hdyn, condensed_bounded hs heq, cost_final hlast heqLast, one_mul, mul_one]

/-- At a point of the interior the sweep succeeds without a shift. -/
theorem Horizon.swept_oneStep [ExactRoots K] [IsStrictOrderedRing K] {h : lo ≤ up}
    {w : Workspace K} (hw : HorizonShaped w.stages)
    (hl : w.stages.map StageState.fixed = (oneStep r q lo up h).stages.map Stage.fixed)
    (hint : ∀ s ∈ w.stages, s.Interior) (hr : 1 ≤ r) (hq : 0 ≤ q) :
    w.sweep.failed = none ∧ w.sweep.warnings = [] := by
  obtain ⟨s, last, hstages⟩ := List.length_eq_two.1 (length_of_fixed hl)
  rw [hstages, stages_oneStep] at hl
  obtain ⟨heq, hl⟩ := List.cons.inj hl
  obtain ⟨heqLast, _⟩ := List.cons.inj hl
  obtain ⟨hnu, _, hdata⟩ := StageState.eq_of_fixed heq
  have hs : s.Shaped 1 := by
    have hshape := hw.chained 0 s (by rw [hstages]; rfl)
    have hnext : nextNx w.stages 0 = 1 := by
      rw [nextNx, hstages]
      exact (StageState.eq_of_fixed heqLast).2.1
    rwa [hnext] at hshape
  have hlast : last.Shaped 0 := by
    have hshape := hw.chained 1 last (by rw [hstages]; rfl)
    have hnext : nextNx w.stages 1 = 0 := by
      rw [nextNx, hstages]
      rfl
    rwa [hnext] at hshape
  have hnc : 0 < s.nc := by
    rw [StageState.nc, hdata]
    exact Nat.one_pos
  have hinterior := hint s (by rw [hstages]; exact List.mem_cons_self ..)
  have hlower := div_pos (hinterior.lam_lo 0 (hs.lam_lo.symm ▸ hnc))
    (hinterior.t_lo 0 (hs.t_lo.symm ▸ hnc))
  have hupper := div_pos (hinterior.lam_up 0 (hs.lam_up.symm ▸ hnc))
    (hinterior.t_up 0 (hs.t_up.symm ▸ hnc))
  have hblock := StageState.controlBlock_oneStep hs hlast heq heqLast
  rw [Workspace.sweep, hstages]
  exact Riccati.swept_pair hnu (by rw [hblock]; linarith)

end Sweep

/-! ## The customary parameters -/

/-- The customary parameters are in range. -/
theorem SolverConfig.check_standard [IsStrictOrderedRing K] :
    (standard : SolverConfig K).check = .ok () := by
  have hpos : ∀ e : Nat, Scalar.lt (0 : K) (Scalar.decimal 1 e) = true := by
    intro e
    rw [Scalar.lt_iff, Scalar.decimal_exact]
    positivity
  have hone : ∀ e : Nat, Scalar.lt (Scalar.decimal 1 (e + 1) : K) 1 = true := by
    intro e
    rw [Scalar.lt_iff, Scalar.decimal_exact, Nat.cast_one, div_lt_one (by positivity)]
    exact one_lt_pow₀ (by norm_num) (Nat.succ_ne_zero e)
  have hnonneg : Scalar.le (0 : K) (Scalar.decimal 1 3) = true := by
    rw [Scalar.le_iff, Scalar.decimal_exact]
    positivity
  have htol : (standard : SolverConfig K).tolOk = true := by
    rw [tolOk, standard, hpos, Scalar.isFinite_exact]
    rfl
  have hstep : (standard : SolverConfig K).minStepOk = true := by
    rw [minStepOk, standard, hpos, hone]
    rfl
  have hsigma : (standard : SolverConfig K).sigmaMinOk = true := by
    rw [sigmaMinOk, standard, hnonneg, hone]
    rfl
  have hcap : (standard : SolverConfig K).maxIter ≠ 0 := by
    show 50 ≠ 0
    decide
  exact (check_eq_ok_iff _).2 ⟨htol, hcap, hstep, rfl, hsigma⟩

/-- With the customary parameters every horizon can be solved in a new workspace, from zero. -/
theorem Horizon.exists_solvable_standard [IsStrictOrderedRing K] (h : Horizon K) :
    ∃ w, Workspace.of? h.sizes .standard = .ok w ∧ w.InUse ∧
      h.Solvable .standard (Trajectory.zeros h.sizes) w := by
  have hroom : bytesPerRecord * (SolverConfig.standard : SolverConfig K).maxIter ≤ arrayLimit := by
    show bytesPerRecord * 50 ≤ arrayLimit
    decide
  exact h.exists_solvable SolverConfig.check_standard hroom

end StagedQP
