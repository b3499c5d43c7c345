import StagedQP.Proofs.StepAgreement
import StagedQP.Proofs.OneStepHorizon

/-!
# Solves do not remember

What a solve returns depends on the horizon, the configuration and, with a warm start, the
trajectory, and on nothing that happened to the workspace before. The proof follows two runs side by
side: they start from workspaces that agree, and what agrees before an iteration agrees after it,
whether the iteration makes a step, breaks down or ends the run. The only trace of the workspace in
a report is its size in bytes, which is a function of the stage sizes and the iteration cap it was
made for.

No law of arithmetic is used: the runs agree entry for entry, undefined entries included, because
they perform the same operations on the same operands.

## Main results

* `RunState.Agrees.run` — two runs side by side.
* `Horizon.Solvable.agrees_initial` — two solves start from states that agree.
* `solve_forgets_history` — two solves of one horizon in any two workspaces.
-/

namespace StagedQP

variable {α : Type} [Scalar α]

/-! ## Two runs side by side -/

/-- Two states of a run that nothing but the histories of their workspaces tells apart. -/
structure RunState.Agrees (r r' : RunState α) : Prop where
  /-- The workspaces agree. -/
  workspace : r.workspace.Agrees r'.workspace
  /-- The duality measure. -/
  mu : r'.mu = r.mu
  /-- The number of steps. -/
  iters : r'.iters = r.iters
  /-- The warnings. -/
  warnings : r'.warnings = r.warnings
  /-- The number of log lines. -/
  lines : r'.lines = r.lines

theorem Workspace.Agrees.core_residuals {w w' : Workspace α} (h : w.Agrees w') :
    w'.residuals.stages.map StageState.core = w.residuals.stages.map StageState.core :=
  residuals_core_of_base h.base

namespace RunState

variable {r r' : RunState α} (h : r.Agrees r') (config : SolverConfig α)

include h

theorem Agrees.logged (n : Nat) : r'.logged config n = r.logged config n := by
  rw [RunState.logged, RunState.logged, h.lines]

theorem Agrees.examine : (r.examine config).Agrees (r'.examine config) where
  workspace := h.workspace.residuals
  mu := h.mu
  iters := h.iters
  warnings := h.warnings
  lines := h.logged config 1

theorem Agrees.warn (warnings : List (Warning α)) :
    (r.warn warnings).Agrees (r'.warn warnings) where
  workspace := h.workspace
  mu := h.mu
  iters := h.iters
  warnings := by
    show _ ++ _ = _ ++ _
    rw [h.warnings]
  lines := h.lines

/-- Both loop heads are judged alike. -/
theorem Agrees.verdict : r'.verdict config = r.verdict config := by
  rw [RunState.verdict, RunState.verdict, Workspace.gap, Workspace.gap, h.mu, h.iters,
    Workspace.residualNorms_of_core h.workspace.core_residuals]

/-- Both attempts to step come out alike. -/
theorem Agrees.attempt : (r'.attempt config).outcome = (r.attempt config).outcome ∧
    (r'.attempt config).warnings = (r.attempt config).warnings ∧
    (r.attempt config).workspace.Agrees (r'.attempt config).workspace := by
  rw [RunState.attempt, RunState.attempt, h.mu]
  exact h.workspace.residuals.step h.workspace.core_residuals r.mu config.sigmaMin

/-- Both accept the same step. -/
theorem Agrees.accept {step step' : StepResult α} (hstep : step.workspace.Agrees step'.workspace)
    (hwarnings : step'.warnings = step.warnings) (stats : StepStats α) :
    (r.accept config step stats).Agrees (r'.accept config step' stats) where
  workspace :=
    { left := hstep.left.withStats _
      right := hstep.right.withStats _
      base := hstep.base
      stats := by
        show _ ++ _ = _ ++ _
        rw [hstep.stats]
      sizes := hstep.sizes }
  mu := rfl
  iters := congrArg (· + 1) h.iters
  warnings := by
    show _ ++ _ = _ ++ _
    rw [h.warnings, hwarnings]
  lines := h.logged config 1

omit h in
/-- Two runs from states that agree end alike, in states that agree. -/
theorem Agrees.run : ∀ (remaining : Nat) (r r' : RunState α), r.Agrees r' →
    (r.run config remaining).1.Agrees (r'.run config remaining).1 ∧
      (r'.run config remaining).2 = (r.run config remaining).2 := by
  refine run_induction (P := fun n r last => ∀ r', r.Agrees r' →
    last.1.Agrees (r'.run config n).1 ∧ (r'.run config n).2 = last.2) ?stop ?cap ?breakdown ?short
    ?step
  case stop =>
    intro n r p hv r' h
    rw [run_of_verdict ((h.verdict config).trans hv)]
    exact ⟨(h.examine config).warn p.2, rfl⟩
  case cap =>
    intro r hv r' h
    rw [run_zero ((h.verdict config).trans hv)]
    exact ⟨h.examine config, rfl⟩
  case breakdown =>
    intro n r k hv hok r' h
    obtain ⟨houtcome, hwarnings, hagrees⟩ := h.attempt config
    rw [run_of_error ((h.verdict config).trans hv) (houtcome.trans hok), hwarnings, h.iters]
    have hexamined := h.examine config
    have hbroken : ({ r.examine config with
          workspace := (r.attempt config).workspace } : RunState α).Agrees
        { r'.examine config with workspace := (r'.attempt config).workspace } :=
      { hexamined with workspace := hagrees }
    exact ⟨hbroken.warn _, rfl⟩
  case short =>
    intro n r stats hv hok hshort r' h
    obtain ⟨houtcome, hwarnings, hagrees⟩ := h.attempt config
    rw [run_of_ok ((h.verdict config).trans hv) (houtcome.trans hok), if_pos hshort, h.iters]
    exact ⟨((h.examine config).accept config hagrees hwarnings stats).warn _, rfl⟩
  case step =>
    intro n r stats last hv hok hlong ih r' h
    obtain ⟨houtcome, hwarnings, hagrees⟩ := h.attempt config
    rw [run_of_ok ((h.verdict config).trans hv) (houtcome.trans hok), if_neg hlong]
    exact ih _ ((h.examine config).accept config hagrees hwarnings stats)

end RunState

/-! ## Two solves -/

namespace Horizon

variable {h : Horizon α} {config : SolverConfig α} {t t' : Trajectory α} {w w' : Workspace α}

/-- The stage vectors that a solve starts with: those of the trajectory, which are not looked at
without a warm start. -/
theorem startVector_congr (ht : config.warmStart = true → t' = t) (k : Nat) (d : Stage α) :
    startVector config t' k d = startVector config t k d := by
  rw [startVector, startVector]
  split
  · rw [ht ‹_›]
  · rfl

/-- Two solves of one horizon start with the same point. -/
theorem Solvable.initial_base (hs : h.Solvable config t w) (hs' : h.Solvable config t' w')
    (hw : w.Allocated) (hw' : w'.Allocated) (ht : config.warmStart = true → t' = t) :
    (RunState.initial h config t' w').workspace.stages.map StageState.base =
      (RunState.initial h config t w).workspace.stages.map StageState.base := by
  have hfixed := initial_fixed hs hw
  have hfixed' := initial_fixed hs' hw'
  refine List.ext_getElem? fun k => ?_
  rw [List.getElem?_map, List.getElem?_map]
  cases hk' : (RunState.initial h config t' w').workspace.stages[k]? with
  | none => rw [getElem?_eq_none_of_map_eq (hfixed'.trans hfixed.symm) hk']
  | some s' =>
      obtain ⟨s, hk, _⟩ := exists_getElem?_of_map_eq (hfixed'.trans hfixed.symm) hk'
      rw [hk]
      obtain ⟨s₀, d, hd, halloc, _, rfl⟩ := hs.initial_getElem? hw hk
      obtain ⟨s₀', d', hd', halloc', _, rfl⟩ := hs'.initial_getElem? hw' hk'
      obtain rfl := Option.some.inj (hd.symm.trans hd')
      have hv := startVector_congr ht k d
      have hpi : s₀'.point.pi.size = s₀.point.pi.size := halloc'.pi.trans halloc.pi.symm
      have hnx : s₀'.nx = s₀.nx := halloc'.nx.trans halloc.nx.symm
      have hnu : s₀'.nu = s₀.nu := halloc'.nu.trans halloc.nu.symm
      refine congrArg some ?_
      simp only [StageState.base, StageState.start, hnx, hnu, hv, hpi]

/-- Two solves of one horizon start from states that agree. -/
theorem Solvable.agrees_initial (hs : h.Solvable config t w) (hs' : h.Solvable config t' w')
    (hw : w.Settled) (hw' : w'.Settled) (ht : config.warmStart = true → t' = t) :
    (RunState.initial h config t w).Agrees (RunState.initial h config t' w') := by
  have hbase := hs.initial_base hs' hw.allocated hw'.allocated ht
  refine ⟨⟨hw.initial hs, hw'.initial hs', hbase, rfl, ?_⟩,
    (Workspace.duality_of_base hbase).2, rfl, rfl, rfl⟩
  rw [h.initial_sizes, h.initial_sizes, hs.sizes_eq, hs'.sizes_eq]

end Horizon

/-- A run keeps the cap that its workspace was made for. -/
theorem RunState.run_maxIter (h : Horizon α) (config : SolverConfig α) (t : Trajectory α)
    (w : Workspace α) (remaining : Nat) :
    ((initial h config t w).run config remaining).1.workspace.maxIter = w.maxIter := by
  refine run_workspace (P := fun w' => w'.maxIter = w.maxIter) (fun _ hw => hw)
    (fun w' mu sigmaMin hw => (Workspace.step_maxIter w' mu sigmaMin).trans hw) (fun _ _ hw => hw)
    config remaining _ ?_
  show (h.placed config t w).maxIter = w.maxIter
  rw [Horizon.placed]
  split
  · rfl
  · rfl

/-- So does a solve. -/
theorem Workspace.solved_maxIter {h : Horizon α} {config : SolverConfig α} {t : Trajectory α}
    {w : Workspace α} {res : SolveResult α} (hres : h.solveIn config t w = .ok res) :
    res.workspace.maxIter = w.maxIter := by
  have hs := Horizon.solvable_of_solveIn hres
  obtain rfl := Except.ok.inj (hres.symm.trans hs.solveIn_eq)
  exact RunState.run_maxIter h config t w config.maxIter

/-- States that agree are reported alike, but for the size of the workspace. -/
theorem RunState.Agrees.conclude {r r' : RunState α} (h : r.Agrees r') (status : Outcome) :
    (r'.conclude status).trajectory = (r.conclude status).trajectory ∧
      (r'.conclude status).report =
        { (r.conclude status).report with bytes := (r'.conclude status).report.bytes } ∧
      (r'.workspace.maxIter = r.workspace.maxIter →
        (r'.conclude status).report = (r.conclude status).report) := by
  have hnorms := Workspace.residualNorms_of_core h.workspace.core_residuals
  have hstats : r'.workspace.residuals.stats = r.workspace.residuals.stats := h.workspace.stats
  have hreport : (r'.conclude status).report =
      { (r.conclude status).report with bytes := (r'.conclude status).report.bytes } := by
    simp only [RunState.conclude, h.mu, h.iters, hnorms, hstats]
  refine ⟨Workspace.toTrajectory_of_base h.workspace.residuals.base, hreport, fun hcap => ?_⟩
  have hbytes : r'.workspace.residuals.bytes = r.workspace.residuals.bytes := by
    show Workspace.byteSize r'.workspace.sizes r'.workspace.maxIter =
      Workspace.byteSize r.workspace.sizes r.workspace.maxIter
    rw [h.workspace.sizes, hcap]
  rw [hreport]
  simp only [RunState.conclude, hbytes]

/-- Solves do not remember: a horizon solved in two workspaces that both fit it comes out the same,
whatever was done in either of them before. Only the size of the workspace is reported as it is, and
workspaces made for the same cap have the same size. Without a warm start the content of the
trajectory does not matter either. -/
theorem solve_forgets_history {h : Horizon α} {config : SolverConfig α} {t t' : Trajectory α}
    {w w' : Workspace α} (hs : h.Solvable config t w) (hs' : h.Solvable config t' w')
    (hw : w.Reached) (hw' : w'.Reached) (ht : config.warmStart = true → t' = t) :
    ∃ res res', h.solveIn config t w = .ok res ∧ h.solveIn config t' w' = .ok res' ∧
      res'.status = res.status ∧ res'.trajectory = res.trajectory ∧
      res'.warnings = res.warnings ∧ res'.lines = res.lines ∧
      res'.report = { res.report with bytes := res'.report.bytes } ∧
      (w'.maxIter = w.maxIter → res'.report = res.report) := by
  have hstart := hs.agrees_initial hs' (hw.settled hs.sizes_eq.symm)
    (hw'.settled hs'.sizes_eq.symm) ht
  obtain ⟨hagrees, hstatus⟩ := RunState.Agrees.run config config.maxIter _ _ hstart
  have hcap := RunState.run_maxIter h config t w config.maxIter
  have hcap' := RunState.run_maxIter h config t' w' config.maxIter
  refine ⟨_, _, hs.solveIn_eq, hs'.solveIn_eq, hstatus, ?_⟩
  rw [hstatus]
  generalize (RunState.initial h config t w).run config config.maxIter = last at *
  generalize (RunState.initial h config t' w').run config config.maxIter = last' at *
  obtain ⟨htrajectory, hreport, hsame⟩ := hagrees.conclude last.2
  exact ⟨htrajectory, hagrees.warnings, hagrees.lines, hreport, fun hmax =>
    hsame (hcap'.trans (hmax.trans hcap.symm))⟩

/-- For instance on the unit step: in a new workspace, and in one that has solved another horizon
and then made a step of its own, with another trajectory passed in. -/
theorem solve_forgets_history_unitStep : ∃ (w : Workspace ℝ) (before res res' : SolveResult ℝ),
    Workspace.of? Horizon.unitStep.sizes .standard = .ok w ∧
    (Horizon.oneStep 2 3 0 5 (by norm_num)).solveIn .standard
      (Trajectory.zeros Horizon.unitStep.sizes) w = .ok before ∧
    Horizon.unitStep.solveIn .standard (Trajectory.zeros Horizon.unitStep.sizes) w = .ok res ∧
    Horizon.unitStep.solveIn .standard ⟨[Vec.empty, Vec.ofList [7]], [Vec.ofList [7]]⟩
      (before.workspace.step 1 0).workspace = .ok res' ∧
    res'.status = res.status ∧ res'.trajectory = res.trajectory ∧ res'.report = res.report := by
  obtain ⟨w, hnew, hw, hs⟩ := Horizon.unitStep.exists_solvable_standard
  have hother : (Horizon.oneStep 2 3 0 5 (by norm_num)).Solvable .standard
      (Trajectory.zeros Horizon.unitStep.sizes) w := ⟨hs.valid, hs.workspace, hs.trajectory⟩
  obtain ⟨before, hbefore, _⟩ := hother.exists_solveIn
  have hcap : (before.workspace.step 1 0).workspace.maxIter = w.maxIter :=
    (Workspace.step_maxIter ..).trans (Workspace.solved_maxIter hbefore)
  have hs' : Horizon.unitStep.Solvable .standard
      ⟨[Vec.empty, Vec.ofList [7]], [Vec.ofList [7]]⟩ (before.workspace.step 1 0).workspace := by
    refine ⟨hs.valid, ?_, rfl⟩
    rw [Workspace.fits, hcap, Workspace.step_sizes, Workspace.solved_sizes hbefore]
    exact hs.workspace
  have hreached : (before.workspace.step 1 0).workspace.Reached :=
    .stepped 1 0 (.solved hw.reached hbefore)
  obtain ⟨res, res', hres, hres', hstatus, htrajectory, _, _, _, hreport⟩ :=
    solve_forgets_history hs hs' hw.reached hreached fun hwarm =>
      absurd hwarm Bool.false_ne_true
  exact ⟨w, before, res, res', hnew, hbefore, hres, hres', hstatus, htrajectory, hreport hcap⟩

end StagedQP
