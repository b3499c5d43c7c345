import StagedQP.Proofs.InteriorPoint
import StagedQP.Proofs.OneStepHorizon
import StagedQP.Proofs.PackedProblem
import StagedQP.Proofs.ReachedWorkspace
import StagedQP.Proofs.ResidualContraction

/-!
# Success means feasible

A solve reports success when four numbers are within tolerance. None of them mentions a bound or a
matrix of the caller: they are norms of residuals of packed data, and the residual of a row measures
the distance of a slack, not of a bound. This module says what success means for the trajectory that
comes back, in terms of the stages as they were given: the dynamics hold, and every box row and
every general row is within its bounds, up to the tolerance.

The slacks are what has to be argued away. A row exceeds its lower bound by its residual plus its
slack, and slacks are positive along the whole run, so only the residual can take a row out of its
bounds, and the residual is within tolerance.

## Main results

* `Horizon.FeasibleWithin` — feasible up to a tolerance.
* `PackedStage.withinTolerance` — packed rows against box and general rows.
* `feasible_of_success` — what success means.
-/

namespace StagedQP

open Finset

/-! ## Trajectories read off a workspace -/

/-- They have the vectors of the horizon that the workspace holds. -/
theorem Workspace.fits_toTrajectory {α : Type} [Scalar α] {h : Horizon α} {w : Workspace α}
    (hl : w.stages.map StageState.fixed = h.stages.map Stage.fixed) :
    w.toTrajectory.fits h.sizes = true := by
  have hstates : (w.stages.map StageState.states).map Vec.size = h.sizes.map StageSizes.nx := by
    have hnx := congrArg (List.map fun p => p.1.1) hl
    rw [List.map_map, List.map_map] at hnx
    rw [Horizon.sizes, List.map_map, List.map_map]
    exact (List.map_congr_left fun s _ => Vec.size_slice ..).trans hnx
  have hcontrols : w.stages.map (Vec.size ∘ StageState.controls) =
      h.stages.map (StageSizes.nu ∘ Stage.sizes) := by
    have hnu := congrArg (List.map fun p => p.1.2) hl
    rw [List.map_map, List.map_map] at hnu
    exact (List.map_congr_left fun s _ => Vec.size_slice ..).trans hnu
  have hsteps : (w.stages.dropLast.map StageState.controls).map Vec.size =
      (h.sizes.take (h.sizes.length - 1)).map StageSizes.nu := by
    rw [← List.dropLast_eq_take, Horizon.sizes, ← List.map_dropLast, List.map_map, List.map_map,
      List.map_dropLast, List.map_dropLast, hcontrols]
  rw [Trajectory.fits, Bool.and_eq_true, beq_iff_eq, beq_iff_eq]
  exact ⟨hstates, hsteps⟩

variable {K : Type} [Field K] [LinearOrder K]

/-! ## Feasible up to a tolerance -/

/-- Box and general rows exceed their bounds by no more than `tol`. -/
structure Stage.WithinTolerance (d : Stage K) (tol : K) (u x : Nat → K) : Prop where
  /-- The entries of the stage vector at the positions of the box rows. -/
  box : ∀ row i, d.idxb[row]? = some i →
    d.lb.get row - tol ≤ stageVector d.sizes.nu u x i ∧
      stageVector d.sizes.nu u x i ≤ d.ub.get row + tol
  /-- The general rows `D u + C x`. -/
  general : ∀ row < d.sizes.ng,
    d.lg.get row - tol ≤ rowSum d.D.get d.sizes.nu u row + rowSum d.C.get d.sizes.nx x row ∧
      rowSum d.D.get d.sizes.nu u row + rowSum d.C.get d.sizes.nx x row ≤ d.ug.get row + tol

/-- A trajectory that follows the dynamics and keeps all rows within their bounds up to `tol`. -/
structure Horizon.FeasibleWithin [SquareRoot K] (h : Horizon K) (tol : K) (t : Trajectory K) :
    Prop where
  /-- It has the vectors of the horizon. -/
  fits : t.fits h.sizes = true
  /-- The states follow the dynamics. -/
  dynamics : ∀ (k : Nat) (d : Stage K), h.stages[k]? = some d → ∀ i < d.nxNext,
    |d.successor (t.control k) (t.state k) i - t.state (k + 1) i| ≤ tol
  /-- All rows are within bounds. -/
  rows : ∀ (k : Nat) (d : Stage K), h.stages[k]? = some d →
    d.WithinTolerance tol (t.control k) (t.state k)

section Tolerance

variable [IsStrictOrderedRing K] {d : Stage K} {u x : Nat → K}

omit [IsStrictOrderedRing K] in
/-- Without a tolerance nothing exceeds its bounds. -/
theorem Stage.withinTolerance_zero : d.WithinTolerance 0 u x ↔ d.WithinBounds u x := by
  constructor
  · rintro ⟨hbox, hgeneral⟩
    simp only [sub_zero, add_zero] at hbox hgeneral
    exact ⟨hbox, hgeneral⟩
  · rintro ⟨hbox, hgeneral⟩
    constructor
    · simpa only [sub_zero, add_zero] using hbox
    · simpa only [sub_zero, add_zero] using hgeneral

/-- Feasible is feasible without a tolerance. -/
theorem Horizon.feasibleWithin_zero [SquareRoot K] {h : Horizon K} {t : Trajectory K} :
    h.FeasibleWithin 0 t ↔ h.Feasible t := by
  constructor
  · intro ht
    refine ⟨ht.fits, fun k d hd i hi => ?_, fun k d hd => ?_⟩
    · exact (sub_eq_zero.1 (abs_nonpos_iff.1 (ht.dynamics k d hd i hi))).symm
    · exact Stage.withinTolerance_zero.1 (ht.rows k d hd)
  · intro ht
    refine ⟨ht.fits, fun k d hd i hi => ?_, fun k d hd => ?_⟩
    · rw [ht.dynamics k d hd i hi, sub_self, abs_zero]
    · exact Stage.withinTolerance_zero.2 (ht.rows k d hd)

end Tolerance

/-- Box and general rows are where the packed rows are. -/
theorem PackedStage.withinTolerance {d : Stage K} {tol : K} {u x : Nat → K} (hd : d.WellShaped)
    (hpos : ∀ i ∈ d.idxb, i < d.sizes.nv)
    (h : ∀ row < d.sizes.nc, (ofStage d).bound.lo.get row - tol ≤
        rowSum (ofStage d).jac.get (d.sizes.nu + d.sizes.nx) (stageVector d.sizes.nu u x) row ∧
      rowSum (ofStage d).jac.get (d.sizes.nu + d.sizes.nx) (stageVector d.sizes.nu u x) row ≤
        (ofStage d).bound.up.get row + tol) : d.WithinTolerance tol u x := by
  have hnc : d.sizes.nc = d.sizes.nb + d.sizes.ng := rfl
  constructor
  · intro row i hi
    have hrow : row < d.sizes.nb := (List.getElem?_eq_some_iff.1 hi).1
    have hbox := h row (by omega)
    rw [jac_boxRow d hi (hpos i (List.mem_of_getElem? hi))] at hbox
    change (d.lb.append d.lg).get row - tol ≤ _ ∧ _ ≤ (d.ub.append d.ug).get row + tol at hbox
    rwa [Vec.get_append_left _ _ (hd.lb.symm ▸ hrow),
      Vec.get_append_left _ _ (hd.ub.symm ▸ hrow)] at hbox
  · intro row hrow
    have hgeneral := h (d.sizes.nb + row) (by omega)
    rw [jac_generalRow d u x hrow] at hgeneral
    change (d.lb.append d.lg).get _ - tol ≤ _ ∧ _ ≤ (d.ub.append d.ug).get _ + tol at hgeneral
    rwa [Vec.get_append_right _ _ hd.lb, Vec.get_append_right _ _ hd.ub] at hgeneral

variable [SquareRoot K]

/-! ## Points whose residuals are within tolerance -/

namespace Evaluated

variable [IsStrictOrderedRing K] {l : List (StageState K)} (he : Evaluated l) (hl : Chained l)
  {k : Nat} {s : StageState K} (hs : l[k]? = some s) {tol : K}

include he hl hs

/-- With positive slacks, a row is out of its bounds by no more than its residual. -/
theorem rows_within (hint : s.Interior) (hlo : s.residual.ineq.lo.infNorm ≤ tol)
    (hup : s.residual.ineq.up.infNorm ≤ tol) {i : Nat} (hi : i < s.nc) :
    s.data.bound.lo.get i - tol ≤ rowSum s.data.jac.get (s.nu + s.nx) s.point.v.get i ∧
      rowSum s.data.jac.get (s.nu + s.nx) s.point.v.get i ≤ s.data.bound.up.get i + tol := by
  have hshape := hl k s hs
  have htlo := hint.t_lo i (hi.trans_eq hshape.t_lo.symm)
  have htup := hint.t_up i (hi.trans_eq hshape.t_up.symm)
  have hrlo : -tol ≤ s.residual.ineq.lo.get i :=
    neg_le_of_abs_le ((Vec.abs_get_le_infNorm s.residual.ineq.lo i).trans hlo)
  have hrup : -tol ≤ s.residual.ineq.up.get i :=
    neg_le_of_abs_le ((Vec.abs_get_le_infNorm s.residual.ineq.up i).trans hup)
  rw [he.get_lo hl hs hi] at hrlo
  rw [he.get_up hl hs hi] at hrup
  constructor
  · linarith
  · linarith

/-- The dynamics miss the states of the stage after by no more than their residual. -/
theorem dynamics_within (hdyn : s.residual.dyn.infNorm ≤ tol) {next : StageState K}
    (hnext : l[k + 1]? = some next) {i : Nat} (hi : i < next.nx) :
    |rowSum s.data.dyn.get (s.nu + s.nx) s.point.v.get i + s.data.off.get i
      - next.point.v.get (next.nu + i)| ≤ tol := by
  have hcount : nextNx l k = next.nx := by
    rw [nextNx, hnext]
    rfl
  have hstate : next.states.get i = next.point.v.get (next.nu + i) :=
    Vec.get_slice_of_lt _ _ hi
  have hresidual := (Vec.abs_get_le_infNorm _ i).trans hdyn
  rwa [he.get_dyn hl hs (hcount.symm ▸ hi), hnext, Option.elim_some, hstate,
    add_comm (s.data.off.get i)] at hresidual

end Evaluated

/-- The trajectory of a workspace is feasible up to the tolerance that its residuals are within. -/
theorem Workspace.feasibleWithin [IsStrictOrderedRing K] {h : Horizon K} {w : Workspace K} {tol : K}
    (he : Evaluated w.stages) (hw : HorizonShaped w.stages)
    (hl : w.stages.map StageState.fixed = h.stages.map Stage.fixed)
    (hint : ∀ s ∈ w.stages, s.Interior) (hdyn : w.residualNorms.dyn ≤ tol)
    (hineq : w.residualNorms.ineq ≤ tol) : h.FeasibleWithin tol w.toTrajectory := by
  have hcons := h.consistent
  -- the stage vectors of the trajectory are those of the stages
  have hvector : ∀ {k : Nat} {d : Stage K} {s : StageState K}, h.stages[k]? = some d →
      w.stages[k]? = some s → ∀ i < d.sizes.nu + d.sizes.nx,
        stageVector d.sizes.nu (w.toTrajectory.control k) (w.toTrajectory.state k) i =
          s.point.v.get i := by
    intro k d s hd hs i hi
    obtain ⟨d', hd', heq⟩ := exists_stage_of_fixed hl hs
    obtain rfl := Option.some.inj (hd.symm.trans hd')
    obtain ⟨hnu, hnx, _⟩ := StageState.eq_of_fixed heq
    rw [← h.vectors_eq _ hd]
    exact vectors_toTrajectory hw hl hs (by rw [hnu, hnx]; exact hi)
  refine ⟨fits_toTrajectory hl, fun k d hd i hi => ?_, fun k d hd => ?_⟩
  · obtain ⟨s, hs, heq⟩ := exists_state_of_fixed hl hd
    obtain ⟨hnu, hnx, hdata⟩ := StageState.eq_of_fixed heq
    cases hnext : h.stages[k + 1]? with
    | none =>
        rw [(hcons.last k d hd hnext).2] at hi
        exact absurd hi (Nat.not_lt_zero i)
    | some d' =>
        obtain ⟨next, hnext', heq'⟩ := exists_state_of_fixed hl hnext
        obtain ⟨hnu', hnx', _⟩ := StageState.eq_of_fixed heq'
        have hi' : i < d'.sizes.nx := hcons.link k d d' hd hnext ▸ hi
        have hresidual := he.dynamics_within hw.chained hs
          ((norms_dyn_le_iff.1 hdyn).2 s (List.mem_of_getElem? hs)) hnext' (hnx'.symm ▸ hi')
        have hstate : w.toTrajectory.state (k + 1) i = next.point.v.get (next.nu + i) := by
          rw [hnu', ← hvector hnext hnext' _ (by omega), stageVector_state]
        rw [← PackedStage.ofStage_dyn d _ _ hi, rowSum_congr _ i (hvector hd hs), hstate]
        rwa [hnu, hnx, hdata] at hresidual
  · obtain ⟨s, hs, heq⟩ := exists_state_of_fixed hl hd
    have hmem := List.mem_of_getElem? hd
    have hshaped := hcons.shaped d hmem
    obtain ⟨hnu, hnx, hdata⟩ := StageState.eq_of_fixed heq
    obtain ⟨hlo, hup⟩ := (norms_ineq_le_iff.1 hineq).2 s (List.mem_of_getElem? hs)
    refine PackedStage.withinTolerance hshaped (hcons.positions d hmem) fun row hrow => ?_
    have hrows := he.rows_within hw.chained hs (hint s (List.mem_of_getElem? hs)) hlo hup
      (StageState.nc_of_fixed hshaped heq ▸ hrow)
    rw [rowSum_congr _ row (hvector hd hs)]
    rwa [hnu, hnx, hdata] at hrows

/-! ## A successful solve -/

/-- **Success means feasible.** A trajectory that comes back with success has the vectors of the
horizon, follows the dynamics of the stages and keeps their box and general rows within bounds, all
up to the tolerance; and the measures reported are within the tolerance. -/
theorem feasible_of_success [IsStrictOrderedRing K] {h : Horizon K} {config : SolverConfig K}
    {t : Trajectory K} {w : Workspace K} {res : SolveResult K} (hw : w.Reached)
    (hres : h.solveIn config t w = .ok res) (hsuccess : res.status = .success) :
    h.FeasibleWithin config.tol res.trajectory ∧ res.report.mu ≤ config.tol ∧
      res.report.norms.stat ≤ config.tol ∧ res.report.norms.dyn ≤ config.tol ∧
      res.report.norms.ineq ≤ config.tol := by
  have hs := Horizon.solvable_of_solveIn hres
  have halloc := hw.allocated hs
  obtain ⟨res', hres', r, hr, hfrom⟩ := hs.exists_solveIn
  obtain rfl := Except.ok.inj (hres.symm.trans hres')
  obtain ⟨hshaped, hfixed⟩ := hs.visited halloc hr
  have hbase := Workspace.residuals_base r.workspace
  obtain ⟨hmu, hstat, hdyn, hineq⟩ := Gap.le_of_within (hfrom.within hsuccess)
  rw [hfrom.mu, hfrom.norms, hfrom.trajectory, ← Workspace.toTrajectory_of_base hbase]
  exact ⟨Workspace.feasibleWithin (evaluated_of_base rfl)
    (Workspace.horizonShaped_residuals hshaped) ((map_fixed_of_base hbase).trans hfixed)
    (hr.interior hs halloc).residuals hdyn hineq, hmu, hstat, hdyn, hineq⟩

/-- A quarter of a unit of tolerance, and a small initial barrier. -/
def SolverConfig.coarse : SolverConfig ℚ := { standard with tol := 1 / 4, mu0 := 1 / 2 }

/-- One step over the rational numbers, with a control between one half and one. -/
def Horizon.raised : Horizon ℚ := oneStep 1 1 (1 / 2) 1 (by norm_num)

/-- For instance on the raised step, where the start is out of bounds: the solve is run and
succeeds, so the control that comes back is at least one quarter. -/
theorem feasible_of_success_raised : ∃ (w : Workspace ℚ) (res : SolveResult ℚ), w.Reached ∧
    Horizon.raised.solveIn .coarse (Trajectory.zeros Horizon.raised.sizes) w = .ok res ∧
    res.status = .success ∧ 1 / 4 ≤ res.trajectory.control 0 0 := by
  have hrun : ((Workspace.of? Horizon.raised.sizes .coarse).toOption.bind fun w =>
      (Horizon.raised.solveIn .coarse (Trajectory.zeros Horizon.raised.sizes) w).toOption.map
        SolveResult.status) = some .success := by decide +kernel
  obtain ⟨w, res, hnew, hres, hsuccess⟩ := exists_of_evaluated_bind hrun
  have hrows := (feasible_of_success (.new hnew) hres hsuccess).1.rows 0
    (.bounded 1 (1 / 2) 1) rfl
  have hcontrol := (hrows.box 0 0 rfl).1
  have hlower : (Stage.bounded (1 : ℚ) (1 / 2) 1).lb.get 0 = 1 / 2 := rfl
  have htol : SolverConfig.coarse.tol = 1 / 4 := rfl
  have hnu : 0 < (Stage.bounded (1 : ℚ) (1 / 2) 1).sizes.nu := Nat.one_pos
  rw [hlower, htol, stageVector_control _ _ hnu] at hcontrol
  exact ⟨w, res, .new hnew, hres, hsuccess, by linarith⟩

end StagedQP
