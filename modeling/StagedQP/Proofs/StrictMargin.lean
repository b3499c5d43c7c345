import StagedQP.Proofs.LastIterate
import StagedQP.Proofs.OptimalityCertificate

/-!
# Rows that start with a margin

A slack starts as the distance to its bound, but not below one tenth. Where the distance is at least
that, slack and distance are the same number: the side has no residual, and a step that scales all
residuals by one factor gives it none. From then on the slack *is* the distance, and slacks stay
positive. So whatever else the starting point violates, and wherever the solve ends, a side of a row
that was satisfied by a margin of one tenth is satisfied strictly.

Where the distance is smaller, the slack is larger than the distance and the residual is negative.
It is scaled too, so no residual of a row is ever positive.

## Main results

* `Stage.margin` — how far the sides of a row are from their bounds, in terms of the stage.
* `RunState.Visits.keepsMargins` — one loop head.
* `margins_kept` — a whole solve.
-/

namespace StagedQP

open Finset

variable {K : Type} [Field K]

/-! ## Margins -/

namespace Stage

/-- The value of an inequality row at controls `u` and states `x`, box rows before general rows. -/
def rowValue (d : Stage K) (u x : Nat → K) (row : Nat) : K :=
  if row < d.sizes.nb then stageVector d.sizes.nu u x (d.idxb.getD row 0)
  else rowSum d.D.get d.sizes.nu u (row - d.sizes.nb) +
    rowSum d.C.get d.sizes.nx x (row - d.sizes.nb)

/-- How far the value of a row is inside its lower and its upper bound. -/
def margin (d : Stage K) (u x : Nat → K) (row : Nat) : Sides K :=
  ⟨d.rowValue u x row - (d.rowBounds row).lo, (d.rowBounds row).up - d.rowValue u x row⟩

/-- The value of a row is that of the packed row. -/
theorem rowValue_eq {d : Stage K} (hpos : ∀ i ∈ d.idxb, i < d.sizes.nv) (u x : Nat → K)
    {row : Nat} (hrow : row < d.sizes.nc) :
    d.rowValue u x row = rowSum (PackedStage.ofStage d).jac.get (d.sizes.nu + d.sizes.nx)
      (stageVector d.sizes.nu u x) row := by
  have hnc : d.sizes.nc = d.sizes.nb + d.sizes.ng := rfl
  rw [rowValue]
  split
  · have hi : d.idxb[row]? = some (d.idxb.getD row 0) := by
      rw [List.getD_eq_getElem?_getD, List.getElem?_eq_getElem ‹_›, Option.getD_some]
    rw [PackedStage.jac_boxRow d hi (hpos _ (List.mem_of_getElem? hi))]
  · obtain ⟨j, rfl⟩ : ∃ j, row = d.sizes.nb + j := ⟨row - d.sizes.nb, by omega⟩
    rw [Nat.add_sub_cancel_left, PackedStage.jac_generalRow d u x (by omega)]

end Stage

variable [LinearOrder K] [SquareRoot K]

/-- The margins of a row at a stage of a workspace that holds the horizon. -/
theorem StageState.margin_eq {s : StageState K} {d : Stage K} (hd : d.WellShaped)
    (hpos : ∀ i ∈ d.idxb, i < d.sizes.nv) (heq : s.fixed = d.fixed) {u x : Nat → K}
    (hv : ∀ i < s.nu + s.nx, stageVector d.sizes.nu u x i = s.point.v.get i) {row : Nat}
    (hrow : row < d.sizes.nc) :
    (d.margin u x row).lo =
        rowSum s.data.jac.get (s.nu + s.nx) s.point.v.get row - s.data.bound.lo.get row ∧
      (d.margin u x row).up =
        s.data.bound.up.get row - rowSum s.data.jac.get (s.nu + s.nx) s.point.v.get row := by
  obtain ⟨hnu, hnx, hdata⟩ := StageState.eq_of_fixed heq
  obtain ⟨hlo, hup⟩ := PackedStage.ofStage_bound d hd row
  rw [← rowSum_congr _ row hv, hnu, hnx, hdata, hlo, hup, ← Stage.rowValue_eq hpos u x hrow]
  exact ⟨rfl, rfl⟩

/-! ## The starting point -/

/-- The point that a solve starts from: the given one after a warm start, and otherwise zero. -/
def Horizon.startingPoint (h : Horizon K) (config : SolverConfig K) (t : Trajectory K) :
    Trajectory K :=
  if config.warmStart then t else Trajectory.zeros h.sizes

/-- The sides of rows that `start` satisfies with a margin of one tenth are satisfied strictly by
`z`, and the stages `l` hold no residual of them; no residual of a row is positive. -/
structure Horizon.KeepsMargins (h : Horizon K) (start z : Trajectory K) (l : List (StageState K)) :
    Prop where
  /-- No residual of a row is positive. -/
  loose : ∀ s ∈ l, s.Loose
  /-- Lower and upper sides of every row of every stage. -/
  sides : ∀ (k : Nat) (d : Stage K), h.stages[k]? = some d → ∃ s, l[k]? = some s ∧
    ∀ row < d.sizes.nc,
      (1 / 10 ≤ (d.margin (start.control k) (start.state k) row).lo →
        s.residual.ineq.lo.get row = 0 ∧ 0 < (d.margin (z.control k) (z.state k) row).lo) ∧
      (1 / 10 ≤ (d.margin (start.control k) (start.state k) row).up →
        s.residual.ineq.up.get row = 0 ∧ 0 < (d.margin (z.control k) (z.state k) row).up)

section Run

variable {h : Horizon K} {config : SolverConfig K} {t : Trajectory K} {w : Workspace K}
  (hs : h.Solvable config t w)

include hs

/-- The stage vectors that a solve starts with are those of its starting point. -/
theorem Horizon.Solvable.stageVector_startingPoint {k : Nat} {d : Stage K}
    (hd : h.stages[k]? = some d) (i : Nat) :
    stageVector d.sizes.nu ((h.startingPoint config t).control k)
      ((h.startingPoint config t).state k) i = (startVector config t k d).get i := by
  rw [startingPoint, startVector]
  split
  · have hsz : h.sizes[k]? = some d.sizes := by
      rw [sizes, List.getElem?_map, hd]
      rfl
    obtain ⟨x, hx, _⟩ := Trajectory.size_x hs.trajectory hsz
    rw [stageVector, Trajectory.control, Trajectory.state, hx, Option.elim_some, Option.getD_some,
      Vec.get_append]
    cases hu : t.u[k]? with
    | none =>
        rw [hs.no_control_of_last hd hu]
        rfl
    | some u =>
        rw [Option.elim_some, Option.getD_some, Trajectory.size_u hs.trajectory hsz hu]
  · rw [Trajectory.control_zeros, Trajectory.state_zeros, Vec.get_zeros, stageVector, ite_self]

variable (hw : w.Allocated)

include hw

/-- A side with a margin of one tenth starts without a residual. -/
theorem Horizon.Solvable.residual_start {k : Nat} {d : Stage K} (hd : h.stages[k]? = some d) :
    ∃ s, (RunState.initial h config t w).workspace.residuals.stages[k]? = some s ∧
      ∀ row < d.sizes.nc,
        (1 / 10 ≤ (d.margin ((h.startingPoint config t).control k)
          ((h.startingPoint config t).state k) row).lo → s.residual.ineq.lo.get row = 0) ∧
        (1 / 10 ≤ (d.margin ((h.startingPoint config t).control k)
          ((h.startingPoint config t).state k) row).up → s.residual.ineq.up.get row = 0) := by
  have hfixed := initial_fixed hs hw
  obtain ⟨s₁, hs₁, heq⟩ := exists_state_of_fixed hfixed hd
  have hshape := (horizonShaped_initial hs hw).chained k s₁ hs₁
  have hmem := List.mem_of_getElem? hd
  have hnc := StageState.nc_of_fixed (h.consistent.shaped d hmem) heq
  obtain ⟨s₀, d', hd', _, _, rfl⟩ := hs.initial_getElem? hw hs₁
  obtain rfl := Option.some.inj (hd.symm.trans hd')
  rw [Workspace.residuals_getElem?, hs₁]
  refine ⟨_, rfl, fun row hrow => ?_⟩
  obtain ⟨hlo, hup⟩ := StageState.margin_eq (h.consistent.shaped d hmem)
    (h.consistent.positions d hmem) heq
    (fun i _ => hs.stageVector_startingPoint hd i) hrow
  obtain ⟨htlo, htup⟩ := StageState.get_start_t hshape (hnc.symm ▸ hrow)
  rw [StageState.get_evaluated_lo hshape _ _ (hnc.symm ▸ hrow),
    StageState.get_evaluated_up hshape _ _ (hnc.symm ▸ hrow), hlo, hup, htlo, htup,
    StageState.leastSlack_exact]
  exact ⟨fun hle => sub_eq_zero.2 (max_eq_left hle).symm,
    fun hle => sub_eq_zero.2 (max_eq_left hle).symm⟩

/-! ## Loop heads -/

/-- It never gets one. -/
theorem RunState.Visits.residual_zero {r : RunState K}
    (hr : RunState.Visits config (RunState.initial h config t w) r) {k : Nat} {d : Stage K}
    (hd : h.stages[k]? = some d) :
    ∃ s, r.workspace.residuals.stages[k]? = some s ∧ ∀ row < d.sizes.nc,
      (1 / 10 ≤ (d.margin ((h.startingPoint config t).control k)
        ((h.startingPoint config t).state k) row).lo → s.residual.ineq.lo.get row = 0) ∧
      (1 / 10 ≤ (d.margin ((h.startingPoint config t).control k)
        ((h.startingPoint config t).state k) row).up → s.residual.ineq.up.get row = 0) := by
  obtain ⟨s₀, hs₀, hzero⟩ := hs.residual_start hw hd
  have hscaled := congrArg (fun l => l[k]?)
    (hr.feasibility (Horizon.horizonShaped_initial hs hw) rfl)
  simp only [List.getElem?_map, hs₀, Option.map_some] at hscaled
  obtain ⟨s, hs', heq⟩ := Option.map_eq_some_iff.1 hscaled
  have hkeep : ∀ {v : Vec K} {i : Nat}, v.get i = 0 →
      (v.map fun x => contraction r.workspace.stats * x).get i = 0 := by
    intro v i hv
    rcases Nat.lt_or_ge i v.size with hi | hi
    · rw [Vec.get_map _ _ hi, hv, mul_zero]
    · rw [Vec.get_of_size_le (by rw [Vec.size_map]; exact hi)]
  refine ⟨s, hs', fun row hrow => ?_⟩
  obtain ⟨hlo, hup⟩ := hzero row hrow
  rw [show s.residual.ineq.lo = _ from congrArg (fun p => p.2.lo) heq,
    show s.residual.ineq.up = _ from congrArg (fun p => p.2.up) heq]
  exact ⟨fun hle => hkeep (hlo hle), fun hle => hkeep (hup hle)⟩

/-- Without a residual, the margin of a side is its slack. -/
theorem RunState.Visits.keepsMargins [IsStrictOrderedRing K] {r : RunState K}
    (hr : RunState.Visits config (RunState.initial h config t w) r) :
    h.KeepsMargins (h.startingPoint config t) r.workspace.toTrajectory
      r.workspace.residuals.stages := by
  refine ⟨hr.loose hs hw, fun k d hd => ?_⟩
  obtain ⟨hshaped, hfixed⟩ := hs.visited hw hr
  have hbase := Workspace.residuals_base r.workspace
  have hshaped' := Workspace.horizonShaped_residuals hshaped
  have hfixed' := (map_fixed_of_base hbase).trans hfixed
  have hmem := List.mem_of_getElem? hd
  obtain ⟨s, hs', hzero⟩ := hr.residual_zero hs hw hd
  obtain ⟨d', hd', heq⟩ := exists_stage_of_fixed hfixed' hs'
  obtain rfl := Option.some.inj (hd.symm.trans hd')
  have hint := (hr.interior hs hw).residuals s (List.mem_of_getElem? hs')
  have hshape := hshaped'.chained k s hs'
  have heval : Evaluated r.workspace.residuals.stages := evaluated_of_base rfl
  refine ⟨s, hs', fun row hrow => ?_⟩
  have hnc := StageState.nc_of_fixed (h.consistent.shaped d hmem) heq
  have hlo := heval.get_lo hshaped'.chained hs' (hnc.symm ▸ hrow)
  have hup := heval.get_up hshaped'.chained hs' (hnc.symm ▸ hrow)
  have htlo := hint.t_lo row (hrow.trans_eq (hnc.symm.trans hshape.t_lo.symm))
  have htup := hint.t_up row (hrow.trans_eq (hnc.symm.trans hshape.t_up.symm))
  obtain ⟨hmlo, hmup⟩ := StageState.margin_eq (h.consistent.shaped d hmem)
    (h.consistent.positions d hmem) heq
    (u := r.workspace.toTrajectory.control k) (x := r.workspace.toTrajectory.state k)
    (fun i hi => by
      rw [← h.vectors_eq _ hd, ← Workspace.toTrajectory_of_base hbase]
      exact Workspace.vectors_toTrajectory hshaped' hfixed' hs' hi) hrow
  rw [hmlo, hmup]
  refine ⟨fun hle => ?_, fun hle => ?_⟩
  · have hnone := (hzero row hrow).1 hle
    refine ⟨hnone, ?_⟩
    rw [hlo, sub_eq_zero] at hnone
    rwa [hnone]
  · have hnone := (hzero row hrow).2 hle
    refine ⟨hnone, ?_⟩
    rw [hup, sub_eq_zero] at hnone
    rwa [hnone]

end Run

/-! ## A whole solve -/

/-- **Rows that start with a margin are never violated.** At every loop head of a solve of any
horizon, regularized or not, no residual of an inequality row is positive; and a side of a row,
lower or upper, box or general, that the starting point satisfies with a margin of one tenth has no
residual at all and is satisfied strictly. However the solve ends, this holds of the trajectory and
the residuals it returns. -/
theorem margins_kept [IsStrictOrderedRing K] {h : Horizon K} {config : SolverConfig K}
    {t : Trajectory K} {w : Workspace K} (hs : h.Solvable config t w) (hw : w.Reached) :
    (∀ r, RunState.Visits config (RunState.initial h config t w) r →
      h.KeepsMargins (h.startingPoint config t) r.workspace.toTrajectory
        r.workspace.residuals.stages) ∧
    ∃ res, h.solveIn config t w = .ok res ∧
      h.KeepsMargins (h.startingPoint config t) res.trajectory res.workspace.stages := by
  have halloc := hw.allocated hs
  refine ⟨fun r hr => hr.keepsMargins hs halloc, ?_⟩
  obtain ⟨res, hres, r, hr, hfrom⟩ := hs.exists_solveIn
  have hkeeps := hr.keepsMargins hs halloc
  have hineq : res.workspace.stages.map (fun s => s.residual.ineq) =
      r.workspace.residuals.stages.map fun s => s.residual.ineq :=
    map_map_eq (f := StageState.core) (g := StageCore.ineq) hfrom.core
  refine ⟨res, hres, ?_, fun k d hd => ?_⟩
  · refine forall_mem_of_map_eq hineq (fun s s' heq hloose i => ?_) hkeeps.loose
    rw [show s'.residual.ineq = s.residual.ineq from heq]
    exact hloose i
  · obtain ⟨s, hs', hsides⟩ := hkeeps.sides k d hd
    obtain ⟨s', hs'', heq⟩ := exists_getElem?_of_map_eq hineq.symm hs'
    refine ⟨s', hs'', ?_⟩
    rw [show s'.residual.ineq = s.residual.ineq from heq.symm, hfrom.trajectory]
    exact hsides

/-- For instance on the raised step, which starts below its lower bound and well below its upper
bound: the solve is run, and the control it comes back with is strictly below the upper bound. -/
theorem margins_kept_raised : ∃ (w : Workspace ℚ) (res : SolveResult ℚ),
    Workspace.of? Horizon.raised.sizes .coarse = .ok w ∧
    Horizon.raised.solveIn .coarse (Trajectory.zeros Horizon.raised.sizes) w = .ok res ∧
    res.status = .success ∧ res.report.iters = 2 ∧ res.trajectory.control 0 0 < 1 := by
  obtain ⟨w, res, hnew, hres, hsuccess, hiters⟩ := Horizon.exists_solved_raised
  obtain ⟨_, res', hres', hkeeps⟩ := margins_kept (Horizon.solvable_of_solveIn hres) (.new hnew)
  obtain rfl := Except.ok.inj (hres.symm.trans hres')
  obtain ⟨s, _, hsides⟩ := hkeeps.sides 0 (.bounded 1 (1 / 2) 1) rfl
  have hup : ∀ u x : Nat → ℚ, ((Stage.bounded 1 (1 / 2) 1).margin u x 0).up = 1 - u 0 :=
    fun _ _ => rfl
  have hstart : 1 / 10 ≤ ((Stage.bounded 1 (1 / 2) 1).margin
      ((Horizon.raised.startingPoint .coarse (Trajectory.zeros Horizon.raised.sizes)).control 0)
      ((Horizon.raised.startingPoint .coarse (Trajectory.zeros Horizon.raised.sizes)).state 0)
      0).up := by
    rw [hup, show Horizon.raised.startingPoint .coarse (Trajectory.zeros Horizon.raised.sizes) =
      Trajectory.zeros Horizon.raised.sizes from rfl, Trajectory.control_zeros]
    norm_num
  have hstrict := ((hsides 0 Nat.one_pos).2 hstart).2
  rw [hup, sub_pos] at hstrict
  exact ⟨w, res, hnew, hres, hsuccess, hiters, hstrict⟩

end StagedQP
