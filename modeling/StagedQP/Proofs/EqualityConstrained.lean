import StagedQP.Proofs.RunEnding
import StagedQP.Proofs.StepAgreement
import StagedQP.Proofs.UniqueMinimizer

/-!
# Horizons without inequality rows

Without inequality rows the optimality system is linear, so a Newton step solves it. The method for
general horizons has to come down to this by itself: there are no slacks to limit a step, which is
therefore full, no products to center, and no barrier terms in the condensed Hessians, so that every
backward sweep is a sweep over the Hessians of the stages.

A full step leaves no residuals. The point that it leads to is then the unique minimizer, wherever
the step started, and the verdict there is success at any tolerance. So a run has at most two loop
heads, its start and the point after the first step.

The hypothesis on the sweep is one on the horizon alone (`Horizon.ownSweep`). It replaces convexity:
single stages may have indefinite Hessians.

## Main results

* `Workspace.record_of_pairs` — the record of a step without rows.
* `Workspace.Holds.agree_sweep` — every sweep is a sweep over the Hessians of the stages.
* `Workspace.Holds.norms_moved`, `Workspace.Holds.uniqueMinimizer_moved` — where a step leads.
* `equalityConstrained_in_one_step` — a solve takes at most one step.
-/

namespace StagedQP

variable {K : Type} [Field K] [LinearOrder K] [SquareRoot K]

/-! ## Steps without rows -/

/-- A stage without rows limits no step. -/
theorem StageState.stepLimit_of_nc {s : StageState K} {n : Nat} (hs : s.Shaped n) (hnc : s.nc = 0)
    (limit : Option K) : s.stepLimit limit = limit := by
  simp only [stepLimit, hs.t_lo, hs.t_up, hs.lam_lo, hs.lam_up, hnc, ratioLimit]

theorem foldl_stepLimit_of_nc (l : List (StageState K)) :
    (∀ s ∈ l, s.nc = 0 ∧ ∃ n, s.Shaped n) →
      ∀ limit, l.foldl StageState.stepLimit limit = limit := by
  induction l with
  | nil =>
      intro _ limit
      rfl
  | cons s rest ih =>
      intro hl limit
      obtain ⟨hnc, n, hs⟩ := hl s List.mem_cons_self
      rw [List.foldl_cons, StageState.stepLimit_of_nc hs hnc]
      exact ih (fun s hs => hl s (List.mem_cons_of_mem _ hs)) limit

namespace Workspace

variable {w : Workspace K} (hw : HorizonShaped w.stages) (hpairs : w.pairs = 0)

include hw hpairs

theorem maxStep_of_pairs (cap : Option K) : w.maxStep cap = cap := by
  refine foldl_stepLimit_of_nc w.stages (fun s hs => ⟨nc_eq_zero_of_pairs hpairs s hs, ?_⟩) cap
  obtain ⟨k, hk⟩ := List.getElem?_of_mem hs
  exact ⟨_, hw.chained k s hk⟩

omit hw in
theorem duality_of_pairs : w.duality = 0 := if_pos hpairs

theorem predict_of_pairs (mu sigmaMin : K) : w.predict mu sigmaMin = (1, 0, 0) := by
  simp [predict, maxStep_of_pairs hw hpairs, hpairs]

theorem stepLength_of_pairs : w.stepLength = 1 := by
  rw [stepLength, maxStep_of_pairs hw hpairs]

/-- A step without rows is full. -/
theorem alpha_of_pairs (mu sigmaMin : K) : w.alpha mu sigmaMin = 1 := by
  have hcorrector : (w.corrector (w.target mu sigmaMin)).pairs = 0 :=
    (duality_of_base (map_base_of_core (corrector_core hw _))).1.trans hpairs
  rw [alpha, stepLength_of_pairs (horizonShaped_corrector hw _) hcorrector]

/-- Its record: predictor and corrector are followed to the end, and nothing is centered. -/
theorem record_of_pairs (mu sigmaMin : K) :
    w.record mu sigmaMin = { sigma := 0, alphaAff := 1, muAff := 0, alpha := 1, mu := 0 } := by
  have hpredictor : w.predictor.pairs = 0 :=
    (duality_of_base (map_base_of_core (predictor_core hw))).1.trans hpairs
  have hmoved : (w.moved mu sigmaMin).pairs = 0 := (pairs_moved hw mu sigmaMin).trans hpairs
  rw [record, predict_of_pairs (horizonShaped_predictor hw) hpredictor,
    alpha_of_pairs hw hpairs, duality_of_pairs hmoved]

end Workspace

/-! ## The sweep of a horizon -/

/-- A stage in buffers of its own, with its Hessian in place of the condensed one. -/
def Stage.uncondensed (d : Stage K) : StageState K :=
  { StageState.zeros d.sizes d.nxNext with
    data := PackedStage.ofStage d
    condensed.hess := (PackedStage.ofStage d).hess }

/-- The backward sweep over the Hessians of the stages. -/
def Horizon.ownSweep (h : Horizon K) : Riccati.Sweep K :=
  Riccati.factorize (h.stages.map Stage.uncondensed)

/-- Every control block was factored, and none was shifted. -/
structure Riccati.Sweep.Clean (w : Riccati.Sweep K) : Prop where
  /-- None was impossible to factor. -/
  failed : w.failed = none
  /-- None was shifted. -/
  warnings : w.warnings = []

theorem Riccati.Sweep.Clean.shiftAt_eq {w : Riccati.Sweep K} (h : w.Clean) (k : Nat) :
    w.shiftAt k = 0 := by
  refine shiftAt_eq_zero (fun k eps hmem => ?_) k
  rw [h.warnings] at hmem
  exact List.not_mem_nil hmem

/-- Without rows the condensed Hessian of a stage is its Hessian. -/
theorem StageState.condensed_of_nc {s : StageState K} {d : Stage K} (hf : s.fixed = d.fixed)
    (hnc : d.sizes.nc = 0) :
    s.condenseHessian.condensed.hess = (PackedStage.ofStage d).hess := by
  have hdata : s.data = PackedStage.ofStage d := (eq_of_fixed hf).2.2
  have hjac : (PackedStage.ofStage d).jac.rows = 0 := hnc
  show Mat.addTrMul s.data.hess s.data.jac _ = _
  rw [hdata]
  refine Mat.ext_get (Mat.wellFormed_ofFn ..) (Mat.wellFormed_ofFn ..) rfl rfl fun i hi j hj => ?_
  rw [Mat.get_addTrMul _ _ _ (by exact hi) (by exact hj), hjac]
  exact add_zero _

namespace Workspace

theorem residualNorms_eq_zero {w : Workspace K} (hstat : w.residualNorms.stat ≤ 0)
    (hdyn : w.residualNorms.dyn ≤ 0) (hineq : w.residualNorms.ineq ≤ 0) :
    w.residualNorms = ⟨0, 0, 0⟩ := by
  have hstat' := le_antisymm hstat (norms_stat_le_iff.1 (le_refl w.residualNorms.stat)).1
  have hdyn' := le_antisymm hdyn (norms_dyn_le_iff.1 (le_refl w.residualNorms.dyn)).1
  have hineq' := le_antisymm hineq (norms_ineq_le_iff.1 (le_refl w.residualNorms.ineq)).1
  calc w.residualNorms
      = ⟨w.residualNorms.stat, w.residualNorms.dyn, w.residualNorms.ineq⟩ := rfl
    _ = ⟨0, 0, 0⟩ := by rw [hstat', hdyn', hineq']

/-- The workspace holds the horizon, and its point is one of the interior. -/
structure Holds (w : Workspace K) (h : Horizon K) : Prop where
  /-- The buffers. -/
  settled : w.Settled
  /-- The sizes and the data of the stages. -/
  fixed : w.stages.map StageState.fixed = h.stages.map Stage.fixed
  /-- Positive slacks and multipliers. -/
  interior : ∀ s ∈ w.stages, s.Interior

namespace Holds

variable {w : Workspace K} {h : Horizon K} (hw : w.Holds h)

include hw

theorem residuals : w.residuals.Holds h where
  settled := hw.settled.residuals
  fixed := (map_fixed_of_base (residuals_base w)).trans hw.fixed
  interior := forall_mem_of_map_eq (residuals_base w) (fun _ _ heq hs => hs.of_base heq) hw.interior

theorem moved [IsStrictOrderedRing K] (mu sigmaMin : K) : (w.moved mu sigmaMin).Holds h where
  settled := hw.settled.moved mu sigmaMin
  fixed := (moved_fixed hw.settled.shaped mu sigmaMin).trans hw.fixed
  interior := interior_moved hw.settled.shaped hw.interior mu sigmaMin

variable (hrows : h.rowCount = 0)

include hrows

theorem pairs : w.pairs = 0 := by
  rw [pairs_of_fixed hw.fixed, hrows]

/-- Without rows every sweep is a sweep over the Hessians of the stages. -/
theorem agree_sweep : w.sweep.Agrees h.ownSweep := by
  have hnc : ∀ d ∈ h.stages, d.sizes.nc = 0 := fun d hd =>
    List.sum_eq_zero_iff.1 hrows _ (List.mem_map_of_mem hd)
  have hown : (h.stages.map Stage.uncondensed).map StageState.sweptFrom =
      (h.stages.map Stage.fixed).map fun p => (p, p.2.hess) := by
    rw [List.map_map, List.map_map]
    rfl
  have hcondensed : (w.stages.map StageState.condenseHessian).map StageState.sweptFrom =
      (w.stages.map StageState.fixed).map fun p => (p, p.2.hess) := by
    rw [List.map_map, List.map_map]
    refine List.map_congr_left fun s hs => Prod.ext rfl ?_
    obtain ⟨k, hk⟩ := List.getElem?_of_mem hs
    obtain ⟨d, hd, heq⟩ := exists_stage_of_fixed hw.fixed hk
    have hdata : s.data = PackedStage.ofStage d := (StageState.eq_of_fixed heq).2.2
    show s.condenseHessian.condensed.hess = s.data.hess
    rw [StageState.condensed_of_nc heq (hnc d (List.mem_of_getElem? hd)), hdata]
  refine hw.settled.agree_sweep ?_ fun s hs => ?_
  · rw [hown, hcondensed, hw.fixed]
  · obtain ⟨d, _, rfl⟩ := List.mem_map.1 hs
    have hzeros : d.uncondensed.recursion =
        (StageState.zeros d.sizes d.nxNext : StageState K).recursion := rfl
    exact (StageState.tidy_zeros d.sizes d.nxNext).of_recursion hzeros

variable (hclean : h.ownSweep.Clean)

include hclean

theorem clean_sweep : w.sweep.Clean := by
  have hagree := hw.agree_sweep hrows
  exact ⟨hagree.failed.symm.trans hclean.failed, hagree.warnings.symm.trans hclean.warnings⟩

/-! ## One step -/

variable [ExactRoots K] [IsStrictOrderedRing K] (hsymm : h.Symmetric) (mu sigmaMin : K)

include hsymm

/-- A step leaves no residuals. -/
theorem norms_moved : (w.residuals.moved mu sigmaMin).residuals.residualNorms = ⟨0, 0, 0⟩ := by
  have hr := hw.residuals
  have hsweep := hr.clean_sweep hrows hclean
  have hfull := alpha_of_pairs hr.settled.shaped (hr.pairs hrows) mu sigmaMin
  obtain ⟨hdyn, hineq⟩ := norms_scaled (feasibility_moved hr.settled.shaped mu sigmaMin)
  have hstat := norm_stat_scaled (stat_moved_of_unshifted hr.settled.shaped mu sigmaMin
    (hsymm.hess hr.fixed) hr.interior hsweep.failed hsweep.shiftAt_eq)
  rw [hfull, sub_self, abs_zero, zero_mul] at hdyn hineq hstat
  exact residualNorms_eq_zero hstat hdyn hineq

/-- A step leads to the unique minimizer. -/
theorem uniqueMinimizer_moved :
    h.UniqueMinimizer (w.residuals.moved mu sigmaMin).toTrajectory := by
  have hr := (hw.residuals.moved mu sigmaMin).residuals
  have hsweep := hr.clean_sweep hrows hclean
  rw [← toTrajectory_of_base (residuals_base (w.residuals.moved mu sigmaMin))]
  exact uniqueMinimizer hsymm (evaluated_of_base rfl) hr.settled.shaped hr.fixed
    (nc_eq_zero_of_pairs (hr.pairs hrows)) (hw.norms_moved hrows hclean hsymm mu sigmaMin)
    hsweep.failed hr.interior hsweep.shiftAt_eq

end Holds

end Workspace

/-! ## A whole run -/

namespace RunState

variable {h : Horizon K} {config : SolverConfig K}

theorem holds_initial [IsStrictOrderedRing K] {t : Trajectory K} {w : Workspace K}
    (hs : h.Solvable config t w) (hw : w.Reached) :
    (initial h config t w).workspace.Holds h where
  settled := (hw.settled hs.sizes_eq.symm).initial hs
  fixed := Horizon.initial_fixed hs (hw.allocated hs)
  interior := (interior_initial hs (hw.allocated hs)).stages

variable {r₀ : RunState K} (hr : r₀.workspace.Holds h) (hrows : h.rowCount = 0)

include hr hrows

theorem record_next : (r₀.next config).workspace.stats = r₀.workspace.stats ++
    [{ sigma := 0, alphaAff := 1, muAff := 0, alpha := 1, mu := 0 }] := by
  rw [next_stats, Workspace.record_of_pairs hr.residuals.settled.shaped (hr.residuals.pairs hrows)]

variable [IsStrictOrderedRing K]

theorem mu_next : (r₀.next config).mu = 0 := by
  rw [next_mu]
  exact Workspace.duality_of_pairs ((hr.residuals.moved _ _).pairs hrows)

variable [ExactRoots K] (hclean : h.ownSweep.Clean) (hsymm : h.Symmetric)

include hclean hsymm

theorem norms_next_eq_zero : (r₀.next config).workspace.residuals.residualNorms = ⟨0, 0, 0⟩ := by
  rw [← hr.norms_moved hrows hclean hsymm r₀.mu config.sigmaMin]
  apply Workspace.residualNorms_of_core
  rw [Workspace.residuals_stages_congr (next_stages config r₀)]

/-- The verdict after a step is success, whatever the tolerance. -/
theorem within_next (hvalid : config.check = .ok ()) :
    (r₀.next config).gap.within config.tol = true := by
  have htol : 0 ≤ config.tol := by
    have h := (config.check_eq_ok_iff.1 hvalid).1
    rw [SolverConfig.tolOk, Bool.and_eq_true, Scalar.lt_iff] at h
    exact h.1.le
  have hmu : (r₀.next config).mu = 0 := mu_next hr hrows
  have hnorms : (r₀.next config).workspace.residuals.residualNorms = ⟨0, 0, 0⟩ :=
    norms_next_eq_zero hr hrows hclean hsymm
  simp only [gap, Workspace.gap, Gap.within, hmu, hnorms, (Scalar.le_iff 0 config.tol).2 htol,
    Bool.and_self]

/-- There are at most two loop heads, and the second only if the start is not within tolerance. -/
theorem Visits.eq_or_eq_next (hvalid : config.check = .ok ()) : ∀ r, Visits config r₀ r →
    r = r₀ ∨ r = r₀.next config ∧ r₀.gap.within config.tol = false := by
  refine Visits.induction (.inl rfl) fun r _ ih hgo _ => ?_
  have hfar := (verdict_eq_none_iff.1 hgo).1
  rcases ih with rfl | ⟨rfl, _⟩
  · exact .inr ⟨rfl, hfar⟩
  · rw [within_next hr hrows hclean hsymm hvalid] at hfar
    cases hfar

/-- A run that starts without records ends with success. -/
theorem Ended.eq_success (hvalid : config.check = .ok ()) (hstats : r₀.workspace.stats = [])
    (hiters : r₀.iters = 0) {r : RunState K} (hvisit : Visits config r₀ r) {o : Outcome}
    (hended : r.Ended config o) : o = .success := by
  obtain ⟨_, hcap, hstep, _⟩ := config.check_eq_ok_iff.1 hvalid
  have hlong : config.minStep ≤ 1 := by
    rw [SolverConfig.minStepOk, Bool.and_eq_true, Scalar.lt_iff, Scalar.lt_iff] at hstep
    exact hstep.2.le
  rcases hvisit.eq_or_eq_next hr hrows hclean hsymm hvalid r with rfl | ⟨rfl, _⟩
  · -- at the start there is no record and no step that could fail
    cases hended with
    | converged => rfl
    | capped _ _ _ hlast => exact absurd (hlast.symm.trans hiters) hcap
    | diverged _ _ hinfinite => cases hinfinite
    | stuck _ _ _ _ hfailed =>
        have hsweep := hr.residuals.clean_sweep hrows hclean
        rw [attempt, Workspace.step_of_swept hsweep.failed] at hfailed
        cases hfailed
    | short hshort => simp [hstats] at hshort
  · -- after a full step the verdict is success
    have hsteady : (r₀.next config).Steady config := by
      intro s hs
      rw [record_next hr hrows, hstats, List.nil_append, List.mem_singleton] at hs
      rw [hs, StepStats.Short, Scalar.lt_iff]
      exact not_lt.2 hlong
    exact hended.unique (.converged hsteady (within_next hr hrows hclean hsymm hvalid))

end RunState

/-- Without a warm start a solve starts from rest at zero. -/
theorem Horizon.toTrajectory_initial {h : Horizon K} {config : SolverConfig K} {t : Trajectory K}
    {w : Workspace K} (hs : h.Solvable config t w) (hw : w.Allocated)
    (hcold : config.warmStart = false) :
    (RunState.initial h config t w).workspace.toTrajectory = Trajectory.zeros h.sizes := by
  have hshaped := horizonShaped_initial hs hw
  have hfixed := initial_fixed hs hw
  refine Horizon.eq_of_vectors (Trajectory.fits_zeros _) (Workspace.fits_toTrajectory hfixed)
    fun k d hd i hi => ?_
  obtain ⟨s', hs', heq⟩ := exists_state_of_fixed hfixed hd
  obtain ⟨hnu, hnx, _⟩ := StageState.eq_of_fixed heq
  rw [Workspace.vectors_toTrajectory hshaped hfixed hs' (by omega)]
  obtain ⟨s, d', hd', _, _, rfl⟩ := hs.initial_getElem? hw hs'
  have hrest : startVector config t k d' = Vec.zeros d'.sizes.nv := by
    rw [startVector, hcold]
    rfl
  show (startVector config t k d').get i = _
  rw [hrest, Vec.get_zeros, h.vectors_eq _ hd, Trajectory.control_zeros, Trajectory.state_zeros]
  exact (ite_self 0).symm

/-! ## A horizon without rows -/

/-- A control of weight `r`. It moves the state of the stage after, which is one without it. -/
def Stage.pushed (r : K) : Stage K :=
  { Stage.zeros 0 1 1 with
    B := Mat.ofFn 1 1 fun _ _ => 1
    b := Vec.ofList [1]
    R := Mat.ofFn 1 1 fun _ _ => r }

/-- The horizon `minimize ½ r u² + ½ q x²  subject to  x = u + 1`. -/
def Horizon.pushed (r q : K) : Horizon K where
  templates := [⟨0, .pushed r⟩, ⟨1, .final q⟩]
  accepted := rfl

section Pushed

variable {r q : K}

theorem Horizon.symmetric_pushed : (pushed r q).Symmetric := by
  intro d hd
  have hpair : d ∈ [Stage.pushed r, Stage.final q] := hd
  rcases List.mem_pair.1 hpair with rfl | rfl
  · exact ⟨symmetricUpTo_of_le_one _ zero_le_one, symmetricUpTo_of_le_one _ le_rfl⟩
  · exact ⟨symmetricUpTo_of_le_one _ le_rfl, symmetricUpTo_of_le_one _ zero_le_one⟩

omit [LinearOrder K] [SquareRoot K] in
theorem PackedStage.hess_pushed : (ofStage (Stage.pushed r)).hess.get 0 0 = r := by
  refine (Mat.get_ofFn_of_lt _ Nat.one_pos Nat.one_pos).trans ?_
  refine (if_pos Nat.one_pos).trans ((if_pos Nat.one_pos).trans ?_)
  exact Mat.get_ofFn_of_lt _ Nat.one_pos Nat.one_pos

omit [LinearOrder K] [SquareRoot K] in
theorem PackedStage.dyn_pushed : (ofStage (Stage.pushed r)).dyn.get 0 0 = 1 := by
  refine (Mat.get_ofFn_of_lt _ Nat.one_pos Nat.one_pos).trans ?_
  refine (if_pos Nat.one_pos).trans ?_
  exact Mat.get_ofFn_of_lt _ Nat.one_pos Nat.one_pos

/-- Its control block is `r + q`, so one of the weights may be negative. -/
theorem Horizon.clean_pushed [ExactRoots K] [IsStrictOrderedRing K] (h : 1 ≤ r + q) :
    (pushed r q).ownSweep.Clean := by
  have hweight : (Stage.pushed r).uncondensed.condensed.hess.get 0 0 = r :=
    PackedStage.hess_pushed
  have hdyn : (Stage.pushed r).uncondensed.data.dyn.get 0 0 = 1 := PackedStage.dyn_pushed
  have hcost : (Stage.final q).uncondensed.closeCost.riccati.cost.get 0 0 = q := by
    refine (Mat.get_block_of_lt _ _ _ Nat.one_pos Nat.one_pos).trans ?_
    exact PackedStage.hess_final
  have hblock : 1 ≤ ((Stage.pushed r).uncondensed.pullCost
      (Stage.final q).uncondensed.closeCost.riccati.cost).controlBlock.get 0 0 := by
    rwa [StageState.controlBlock_single rfl rfl rfl rfl rfl rfl, hweight, hdyn, hcost, one_mul,
      mul_one]
  obtain ⟨hfailed, hwarnings⟩ := Riccati.swept_pair rfl hblock
  exact ⟨hfailed, hwarnings⟩

end Pushed

/-! ## Solves -/

/-- **Horizons without inequality rows are solved by one Newton step.** Take a symmetric horizon
without rows whose backward sweep neither fails nor shifts a control block. It has a unique
minimizer, and every solve of it succeeds after at most one step, for whatever configuration in
range, starting trajectory, and workspace with whatever history. No step is made exactly if the
start is within tolerance. If one was made, it was a full one with nothing to center, no residuals
are left, and the minimizer comes back. -/
theorem equalityConstrained_in_one_step [ExactRoots K] [IsStrictOrderedRing K] {h : Horizon K}
    (hrows : h.rowCount = 0) (hsymm : h.Symmetric) (hclean : h.ownSweep.Clean) :
    ∃ z, h.UniqueMinimizer z ∧ ∀ (config : SolverConfig K) (t : Trajectory K) (w : Workspace K),
      h.Solvable config t w → w.Reached → ∃ res, h.solveIn config t w = .ok res ∧
        res.status = .success ∧ res.report.iters ≤ 1 ∧
        (res.report.iters = 0 ↔
          (RunState.initial h config t w).gap.within config.tol = true) ∧
        (res.report.iters = 1 →
          res.report.stats = [{ sigma := 0, alphaAff := 1, muAff := 0, alpha := 1, mu := 0 }] ∧
          res.report.mu = 0 ∧ res.report.norms = ⟨0, 0, 0⟩ ∧ res.trajectory = z) := by
  have hstep : ∀ {config : SolverConfig K} {t : Trajectory K} {w : Workspace K},
      h.Solvable config t w → w.Reached → h.UniqueMinimizer
        ((RunState.initial h config t w).next config).workspace.toTrajectory := by
    intro config t w hs hw
    have hr := RunState.holds_initial hs hw
    have hbase : ((RunState.initial h config t w).next config).workspace.stages.map
        StageState.base = _ := congrArg _ (RunState.next_stages config _)
    rw [Workspace.toTrajectory_of_base hbase]
    exact hr.uniqueMinimizer_moved hrows hclean hsymm _ _
  obtain ⟨w₀, _, hw₀, hs₀⟩ := h.exists_solvable_standard
  refine ⟨_, hstep hs₀ hw₀.reached, fun config t w hs hw => ?_⟩
  have hr := RunState.holds_initial hs hw
  obtain ⟨res, r, hres, hvisit, hfrom, hended⟩ := hs.exists_ended
  have hsuccess := hended.eq_success hr hrows hclean hsymm hs.valid rfl rfl hvisit
  refine ⟨res, hres, hsuccess, ?_⟩
  rw [hfrom.iters, hfrom.stats, hfrom.mu, hfrom.norms, hfrom.trajectory]
  rcases hvisit.eq_or_eq_next hr hrows hclean hsymm hs.valid r with rfl | ⟨rfl, hfar⟩
  · rw [hsuccess] at hended
    have hwithin := (RunState.Ended.success_iff.1 hended).2
    exact ⟨Nat.zero_le 1, iff_of_true rfl hwithin, fun hone => absurd hone Nat.zero_ne_one⟩
  · have hleft : ¬ (RunState.initial h config t w).gap.within config.tol = true := by
      rw [hfar]
      exact Bool.false_ne_true
    refine ⟨le_rfl, iff_of_false one_ne_zero hleft, fun _ => ⟨RunState.record_next hr hrows,
      RunState.mu_next hr hrows, RunState.norms_next_eq_zero hr hrows hclean hsymm, ?_⟩⟩
    exact (hstep hs₀ hw₀.reached).eq (hstep hs hw)

/-- For instance with a control of weight `-1`, so that the first stage is not convex. A cold start
misses the dynamics by one, so the solve takes its step. -/
theorem equalityConstrained_in_one_step_pushed : ∃ (z : Trajectory ℝ) (w : Workspace ℝ)
    (res : SolveResult ℝ), (Horizon.pushed (-1) 2).UniqueMinimizer z ∧ w.Reached ∧
    (Horizon.pushed (-1) 2).solveIn .standard
      (Trajectory.zeros (Horizon.pushed (-1 : ℝ) 2).sizes) w = .ok res ∧
    res.status = .success ∧ res.report.iters = 1 ∧ res.trajectory = z := by
  obtain ⟨z, hz, hsolve⟩ := equalityConstrained_in_one_step (h := Horizon.pushed (-1 : ℝ) 2) rfl
    Horizon.symmetric_pushed (Horizon.clean_pushed (by norm_num))
  obtain ⟨w, _, hw, hs⟩ := (Horizon.pushed (-1 : ℝ) 2).exists_solvable_standard
  obtain ⟨res, hres, hsuccess, hle, _, hone⟩ := hsolve _ _ w hs hw.reached
  have hstep : res.report.iters ≠ 0 := by
    intro hzero
    obtain ⟨res', hres', r, hr, hfrom⟩ := hs.exists_solveIn
    obtain rfl := Except.ok.inj (hres.symm.trans hres')
    obtain rfl := hr.eq_of_iters .start rfl (hzero.symm.trans hfrom.iters)
    have hfeasible := (feasible_of_success hw.reached hres hsuccess).1
    rw [hfrom.trajectory, Horizon.toTrajectory_initial hs hw.allocated rfl] at hfeasible
    have hdyn := hfeasible.dynamics 0 (.pushed (-1)) rfl 0 Nat.one_pos
    have hoff : (Stage.pushed (-1 : ℝ)).b.get 0 = 1 := rfl
    have hmiss : (Stage.pushed (-1 : ℝ)).successor (fun _ => 0) (fun _ => 0) 0 = 1 := by
      simp [Stage.successor, rowSum, hoff]
    have htol : (SolverConfig.standard : SolverConfig ℝ).tol < 1 := by
      show ((1 : ℕ) : ℝ) / 10 ^ 8 < 1
      norm_num
    rw [Trajectory.control_zeros, Trajectory.state_zeros, Trajectory.state_zeros, hmiss, sub_zero,
      abs_one] at hdyn
    exact absurd hdyn (not_le.2 htol)
  have hiters : res.report.iters = 1 := by omega
  exact ⟨z, w, res, hz, hw.reached, hres, hsuccess, hiters, (hone hiters).2.2.2⟩

end StagedQP
