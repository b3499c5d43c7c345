import StagedQP.Proofs.FeasibleSuccess

/-!
# The last iterate

A run carries its duality measure beside the workspace, its residuals are those of the point before
the last step, and an attempt that fails has written over much of the workspace by then. What a
solve returns is nevertheless about one point, the one after as many accepted steps as it reports
(`RunState.after`), whichever way the run ended:

```text
trajectory   the stage vectors of that point
mu           its duality measure, and that of the last record
norms        those of its residuals, evaluated again
stats        one record for each step that led to it
```

An attempt that fails has only condensed the Hessians and swept over some of the stages. Both leave
sizes, data, point and residuals alone, and no record is added before the sweep has succeeded.

Nothing here uses a law of arithmetic.

## Main results

* `Workspace.step_of_error_frame` — an attempt that fails leaves the iterate as it was.
* `RunState.Visits.after_eq` — a loop head is the state after its number of accepted steps.
* `report_last_iterate` — what is returned, on every way out.
-/

namespace StagedQP

variable {α : Type} [Scalar α]

/-! ## Attempts that fail -/

/-- What an attempt must not lose if it fails: sizes, data, point and residuals. -/
def StageState.held (s : StageState α) :
    ((Nat × Nat) × PackedStage α) × StagePoint α × StageResidual α :=
  (s.fixed, s.point, s.residual)

namespace Workspace

theorem sweep_held (w : Workspace α) :
    w.sweep.stages.map StageState.held = w.stages.map StageState.held := by
  rw [sweep, Riccati.factorize, Riccati.factorizeFrom_map (fun _ _ => rfl), List.map_map]
  rfl

/-- An attempt that fails leaves sizes, data, point, residuals and records as they were. -/
theorem step_of_error_frame {w : Workspace α} {mu sigmaMin : α} {k : Nat}
    (h : (w.step mu sigmaMin).outcome = .error k) :
    (w.step mu sigmaMin).workspace.stages.map StageState.held = w.stages.map StageState.held ∧
      (w.step mu sigmaMin).workspace.stats = w.stats := by
  rw [of_step_error h]
  exact ⟨sweep_held w, rfl⟩

end Workspace

/-! ## Counting steps -/

namespace RunState

/-- The state after an accepted step, if a step can be made. -/
def advance (config : SolverConfig α) (r : RunState α) : Option (RunState α) :=
  match (r.attempt config).outcome with
  | .ok stats => some ((r.examine config).accept config (r.attempt config) stats)
  | .error _ => none

/-- The state after `n` accepted steps, if they can be made. -/
def after (config : SolverConfig α) (r : RunState α) : Nat → Option (RunState α)
  | 0 => some r
  | n + 1 => (after config r n).bind (advance config)

variable {config : SolverConfig α} {r₀ r : RunState α}

theorem advance_of_ok {stats : StepStats α} (hok : (r.attempt config).outcome = .ok stats) :
    r.advance config = some ((r.examine config).accept config (r.attempt config) stats) := by
  rw [advance, hok]

/-- A loop head is the state after as many accepted steps as it has counted. -/
theorem Visits.after_eq (h : Visits config r₀ r) (h₀ : r₀.iters = 0) :
    after config r₀ r.iters = some r := by
  induction h with
  | start =>
      rw [h₀]
      rfl
  | @step r _ _ _ hok ih =>
      show (after config r₀ r.iters).bind (advance config) = _
      rw [ih, Option.bind_some, advance_of_ok hok]

/-- There is one loop head for each number of steps. -/
theorem Visits.eq_of_iters {r' : RunState α} (h : Visits config r₀ r) (h' : Visits config r₀ r')
    (h₀ : r₀.iters = 0) (heq : r'.iters = r.iters) : r' = r := by
  have hafter := h'.after_eq h₀
  rw [heq, h.after_eq h₀] at hafter
  exact (Option.some.inj hafter).symm

/-- What a loop head carries beside its workspace is what the workspace holds. -/
structure Consistent (r : RunState α) : Prop where
  /-- The duality measure is that of the point. -/
  mu : r.mu = r.workspace.duality
  /-- There is a record of every step. -/
  length : r.workspace.stats.length = r.iters
  /-- The last record has the duality measure of the point. -/
  last : ∀ stats, r.workspace.stats.getLast? = some stats → stats.mu = r.mu

theorem consistent_initial (h : Horizon α) (config : SolverConfig α) (t : Trajectory α)
    (w : Workspace α) : (initial h config t w).Consistent :=
  ⟨rfl, rfl, fun _ hnone => nomatch hnone⟩

theorem consistent_next (config : SolverConfig α) (hr : r.Consistent) :
    (r.next config).Consistent := by
  have hstages : (r.next config).workspace.stages.map StageState.base =
      (r.workspace.residuals.moved r.mu config.sigmaMin).stages.map StageState.base := by
    rw [next_stages]
  constructor
  · rw [next_mu]
    exact (Workspace.duality_of_base hstages).2.symm
  · rw [next_stats, List.length_append, hr.length]
    rfl
  · intro stats hlast
    rw [next_stats, List.getLast?_concat] at hlast
    obtain rfl := Option.some.inj hlast
    rw [next_mu, Workspace.record_mu]

theorem Visits.consistent (h : Visits config r₀ r) (h₀ : r₀.Consistent) : r.Consistent :=
  Visits.induction h₀ (fun _ _ hr _ _ => consistent_next config hr) r h

end RunState

/-! ## What is returned -/

/-- A result is about the point of `r`. -/
structure SolveResult.Describes (res : SolveResult α) (r : RunState α) : Prop where
  /-- The trajectory is its stage vectors. -/
  trajectory : res.trajectory = r.workspace.toTrajectory
  /-- The workspace holds its sizes, data and point. -/
  base : res.workspace.stages.map StageState.base = r.workspace.stages.map StageState.base
  /-- The duality measure is its duality measure. -/
  mu : res.report.mu = r.workspace.duality
  /-- The norms are those of its residuals. -/
  norms : res.report.norms = r.workspace.residuals.residualNorms
  /-- The records are those of the steps that led to it. -/
  stats : res.report.stats = r.workspace.stats

theorem SolveResult.From.describes {config : SolverConfig α} {r : RunState α}
    {res : SolveResult α} (hfrom : res.From config r) (hr : r.Consistent) : res.Describes r where
  trajectory := hfrom.trajectory
  base := (map_base_of_core hfrom.core).trans (Workspace.residuals_base r.workspace)
  mu := hfrom.mu.trans hr.mu
  norms := hfrom.norms
  stats := hfrom.stats

/-- **Everything returned is about the last iterate.** A solve that is not refused returns the point
after exactly as many accepted steps as it reports: its trajectory, its duality measure, the norms
of its residuals, and the records, which are those kept in the workspace. The last of them has the
duality measure reported. An attempt to step that fails, wherever it is made, leaves sizes, data,
point, residuals and records as they were. -/
theorem report_last_iterate {h : Horizon α} {config : SolverConfig α} {t : Trajectory α}
    {w : Workspace α} (hs : h.Solvable config t w) :
    (∃ res, h.solveIn config t w = .ok res ∧
      (∃ r, RunState.after config (RunState.initial h config t w) res.report.iters = some r ∧
        res.Describes r) ∧
      res.report.mu = res.workspace.duality ∧
      res.report.norms = res.workspace.residualNorms ∧
      res.report.stats = res.workspace.stats ∧
      res.report.stats.length = res.report.iters ∧
      (res.report.iters ≠ 0 →
        ∃ stats, res.report.stats.getLast? = some stats ∧ stats.mu = res.report.mu)) ∧
    ∀ (w' : Workspace α) (mu sigmaMin : α) (k : Nat),
      (w'.step mu sigmaMin).outcome = .error k →
        (w'.step mu sigmaMin).workspace.stages.map StageState.held =
          w'.stages.map StageState.held ∧
        (w'.step mu sigmaMin).workspace.stats = w'.stats := by
  refine ⟨?_, fun _ _ _ _ => Workspace.step_of_error_frame⟩
  obtain ⟨r, hr, hends⟩ := RunState.run_endsAt config (RunState.initial h config t w)
    config.maxIter (RunState.initial h config t w) .start
  have hfrom := SolveResult.from_conclude hends
  have hcons := hr.consistent (RunState.consistent_initial h config t w)
  have hdescribes := hfrom.describes hcons
  refine ⟨_, hs.solveIn_eq, ⟨r, ?_, hdescribes⟩, ?_, rfl, rfl, ?_, ?_⟩
  · rw [hfrom.iters]
    exact hr.after_eq rfl
  · rw [hdescribes.mu, (Workspace.duality_of_base hdescribes.base).2]
  · rw [hfrom.stats, hfrom.iters]
    exact hcons.length
  · intro hpos
    rw [hfrom.iters, ← hcons.length] at hpos
    have hne : r.workspace.stats ≠ [] := fun hnil => hpos (by simp [hnil])
    rw [hfrom.stats, hfrom.mu]
    exact ⟨_, List.getLast?_eq_some_getLast hne,
      hcons.last _ (List.getLast?_eq_some_getLast hne)⟩

/-- The solve of the raised step is run in a new workspace: it succeeds after two steps. -/
theorem Horizon.exists_solved_raised : ∃ (w : Workspace ℚ) (res : SolveResult ℚ),
    Workspace.of? raised.sizes .coarse = .ok w ∧
      raised.solveIn .coarse (Trajectory.zeros raised.sizes) w = .ok res ∧
      res.status = .success ∧ res.report.iters = 2 := by
  have hrun : ((Workspace.of? raised.sizes .coarse).toOption.bind fun w =>
      (raised.solveIn .coarse (Trajectory.zeros raised.sizes) w).toOption.map fun res =>
        (res.status, res.report.iters)) = some (.success, 2) := by decide +kernel
  obtain ⟨w, res, hnew, hres, hpair⟩ := exists_of_evaluated_bind hrun
  exact ⟨w, res, hnew, hres, congrArg Prod.fst hpair, congrArg Prod.snd hpair⟩

theorem Horizon.solveIn_raised : ∃ (w : Workspace ℚ) (res : SolveResult ℚ),
    raised.solveIn .coarse (Trajectory.zeros raised.sizes) w = .ok res ∧
      res.status = .success ∧ res.report.iters = 2 := by
  obtain ⟨w, res, _, hres⟩ := exists_solved_raised
  exact ⟨w, res, hres⟩

/-- For instance on the raised step: what comes back is the point after two steps, and the record of
the second has its duality measure. -/
theorem report_last_iterate_raised : ∃ (w : Workspace ℚ) (res : SolveResult ℚ) (r : RunState ℚ),
    Horizon.raised.solveIn .coarse (Trajectory.zeros Horizon.raised.sizes) w = .ok res ∧
    RunState.after .coarse (RunState.initial Horizon.raised .coarse
      (Trajectory.zeros Horizon.raised.sizes) w) 2 = some r ∧
    res.trajectory = r.workspace.toTrajectory ∧ res.report.stats.length = 2 ∧
    ∃ stats, res.report.stats.getLast? = some stats ∧ stats.mu = r.workspace.duality := by
  obtain ⟨w, res, hres, _, hiters⟩ := Horizon.solveIn_raised
  obtain ⟨⟨res', hres', ⟨r, hafter, hdescribes⟩, _, _, _, hlength, hlast⟩, _⟩ :=
    report_last_iterate (Horizon.solvable_of_solveIn hres)
  obtain rfl := Except.ok.inj (hres.symm.trans hres')
  rw [hiters] at hafter hlength hlast
  obtain ⟨stats, hstats, hmu⟩ := hlast (by decide)
  exact ⟨w, res, r, hres, hafter, hdescribes.trajectory, hlength, stats, hstats,
    hmu.trans hdescribes.mu⟩

end StagedQP
