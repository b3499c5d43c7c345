import StagedQP.Solver.Run
import StagedQP.Proofs.ResidualEvaluation
import StagedQP.Proofs.StepPhases
import StagedQP.Proofs.AcceptedHorizon

/-!
# The states a solve visits

A run goes from one loop head to the next by an accepted step. `RunState.Visits` is the set of loop
heads reached from a start, so a property of all iterates is proved by one induction over it. What a
solve returns is made from a visited state: whichever way the run ends, sizes, data and point of the
stages are those of the last loop head or of the point an accepted step led to.

Nothing here uses a law of arithmetic.

## Main results

* `RunState.Visits` — the loop heads of a run.
* `RunState.Visits.induction` — an invariant of all loop heads, from its start and one step.
* `RunState.run_induction` — what a run does, by the way it goes on or ends.
* `RunState.run_pair` — two runs side by side.
* `Horizon.Solvable.exists_solveIn` — the result of a solve is that of a visited state.
-/

namespace StagedQP

variable {α : Type} [Scalar α]

/-! ## What a step leaves alone -/

/-- Sizes and data of a stage: what a whole solve leaves alone. -/
def StageState.fixed (s : StageState α) : (Nat × Nat) × PackedStage α := ((s.nx, s.nu), s.data)

omit [Scalar α] in
theorem map_fixed_of_base {l l' : List (StageState α)}
    (h : l'.map StageState.base = l.map StageState.base) :
    l'.map StageState.fixed = l.map StageState.fixed :=
  map_map_eq (f := StageState.base) (g := fun b => (b.1, b.2.1)) h

omit [Scalar α] in
/-- The ends of a chain depend on sizes alone. -/
theorem HorizonShaped.of_fixed {l l' : List (StageState α)} (h : HorizonShaped l)
    (hf : l'.map StageState.fixed = l.map StageState.fixed) (hl : Chained l') :
    HorizonShaped l' := by
  refine ⟨hl, ?_, ?_⟩
  · intro s' hs'
    obtain ⟨s, hs, heq⟩ := exists_getElem?_of_map_eq hf hs'
    rw [show s'.nx = s.nx from congrArg (fun p => p.1.1) heq]
    exact h.first s hs
  · intro k s' hs' hnone
    obtain ⟨s, hs, heq⟩ := exists_getElem?_of_map_eq hf hs'
    rw [show s'.nu = s.nu from congrArg (fun p => p.1.2) heq]
    exact h.last k s hs (getElem?_eq_none_of_map_eq hf hnone)

namespace Workspace

variable {w : Workspace α}

theorem horizonShaped_residuals (h : HorizonShaped w.stages) : HorizonShaped w.residuals.stages :=
  h.of_fixed (map_fixed_of_base (residuals_base w)) (chained_residuals h.chained)

theorem moved_fixed (h : HorizonShaped w.stages) (mu sigmaMin : α) :
    (w.moved mu sigmaMin).stages.map StageState.fixed = w.stages.map StageState.fixed := by
  rw [moved, List.map_map]
  exact map_fixed_of_base (map_base_of_core (corrector_core h _))

theorem horizonShaped_moved (h : HorizonShaped w.stages) (mu sigmaMin : α) :
    HorizonShaped (w.moved mu sigmaMin).stages := by
  refine h.of_fixed (moved_fixed h mu sigmaMin) ?_
  exact (horizonShaped_corrector h _).chained.map _ (fun _ => rfl) fun s n hs => hs.move _

end Workspace

/-! ## Loop heads -/

namespace RunState

/-- The verdict at a loop head. -/
def verdict (config : SolverConfig α) (r : RunState α) : Option (Outcome × List (Warning α)) :=
  (r.workspace.residuals.gap r.mu).verdict config r.iters

/-- The attempt to step from a loop head. -/
def attempt (config : SolverConfig α) (r : RunState α) : StepResult α :=
  r.workspace.residuals.step r.mu config.sigmaMin

/-- The loop heads reached from `r₀`. -/
inductive Visits (config : SolverConfig α) (r₀ : RunState α) : RunState α → Prop where
  /-- The start. -/
  | start : Visits config r₀ r₀
  /-- The verdict was to go on, and a step was made. -/
  | step {r : RunState α} {stats : StepStats α} (h : Visits config r₀ r)
      (hgo : r.verdict config = none) (hok : (r.attempt config).outcome = .ok stats) :
      Visits config r₀ ((r.examine config).accept config (r.attempt config) stats)

/-- The loop head after `r`, if a step is made there. -/
def next (config : SolverConfig α) (r : RunState α) : RunState α where
  workspace :=
    { r.workspace.residuals.moved r.mu config.sigmaMin with
      stats := (r.workspace.residuals.moved r.mu config.sigmaMin).stats ++
        [r.workspace.residuals.record r.mu config.sigmaMin] }
  mu := (r.workspace.residuals.record r.mu config.sigmaMin).mu
  iters := r.iters + 1
  warnings := r.warnings ++ r.workspace.residuals.sweep.warnings
  lines := (r.examine config).logged config 1

theorem accept_eq_next {config : SolverConfig α} {r : RunState α} {stats : StepStats α}
    (hok : (r.attempt config).outcome = .ok stats) :
    r.workspace.residuals.sweep.failed = none ∧
      stats = r.workspace.residuals.record r.mu config.sigmaMin ∧
      (r.examine config).accept config (r.attempt config) stats = r.next config := by
  obtain ⟨hswept, hworkspace, hwarnings, rfl⟩ := Workspace.of_step_ok hok
  refine ⟨hswept, rfl, ?_⟩
  rw [accept, attempt, hworkspace, hwarnings]
  rfl

theorem next_stages (config : SolverConfig α) (r : RunState α) :
    (r.next config).workspace.stages =
      (r.workspace.residuals.moved r.mu config.sigmaMin).stages := by
  rw [next]

theorem next_mu (config : SolverConfig α) (r : RunState α) :
    (r.next config).mu = (r.workspace.residuals.moved r.mu config.sigmaMin).duality := by
  rw [next, Workspace.record_mu]

theorem next_warnings (config : SolverConfig α) (r : RunState α) :
    (r.next config).warnings = r.warnings ++ r.workspace.residuals.sweep.warnings := by
  rw [next]

theorem next_stats (config : SolverConfig α) (r : RunState α) :
    (r.next config).workspace.stats =
      r.workspace.stats ++ [r.workspace.residuals.record r.mu config.sigmaMin] := by
  rw [next, Workspace.moved]
  rfl

theorem next_sizes (config : SolverConfig α) (r : RunState α) :
    (r.next config).workspace.sizes = r.workspace.sizes := by
  rw [next, Workspace.moved]
  rfl

/-- An invariant of all loop heads: it holds at the start, and a step keeps it. -/
theorem Visits.induction {config : SolverConfig α} {r₀ : RunState α} {P : RunState α → Prop}
    (hstart : P r₀)
    (hstep : ∀ r, Visits config r₀ r → P r →
      r.verdict config = none → r.workspace.residuals.sweep.failed = none → P (r.next config)) :
    ∀ r, Visits config r₀ r → P r := by
  intro r hr
  induction hr with
  | start => exact hstart
  | step h hgo hok ih =>
      obtain ⟨hswept, _, heq⟩ := accept_eq_next hok
      rw [heq]
      exact hstep _ h ih hgo hswept

theorem Visits.trans {config : SolverConfig α} {r₀ r r' : RunState α} (h : Visits config r₀ r)
    (h' : Visits config r r') : Visits config r₀ r' := by
  induction h' with
  | start => exact h
  | step _ hgo hok ih => exact .step ih hgo hok

/-- There is a record of every step. -/
theorem Visits.length_stats {config : SolverConfig α} {r₀ r : RunState α} (h : Visits config r₀ r)
    (h₀ : r₀.workspace.stats.length = r₀.iters) : r.workspace.stats.length = r.iters := by
  refine Visits.induction (P := fun r => r.workspace.stats.length = r.iters) h₀
    (fun r _ ih _ _ => ?_) r h
  rw [next_stats, List.length_append, ih]
  rfl

/-- Every loop head has the sizes and data of the start, in buffers of the right sizes. -/
theorem Visits.horizonShaped {config : SolverConfig α} {r₀ r : RunState α}
    (h : Visits config r₀ r) (h₀ : HorizonShaped r₀.workspace.stages) :
    HorizonShaped r.workspace.stages ∧
      r.workspace.stages.map StageState.fixed = r₀.workspace.stages.map StageState.fixed := by
  refine Visits.induction (P := fun r => HorizonShaped r.workspace.stages ∧
    r.workspace.stages.map StageState.fixed = r₀.workspace.stages.map StageState.fixed)
    ⟨h₀, rfl⟩ (fun r _ hr _ _ => ?_) r h
  have hres := Workspace.horizonShaped_residuals hr.1
  rw [next_stages]
  exact ⟨Workspace.horizonShaped_moved hres _ _, ((Workspace.moved_fixed hres _ _).trans
    (map_fixed_of_base (Workspace.residuals_base _))).trans hr.2⟩

/-! ## The end of a run -/

section Run

variable {config : SolverConfig α} {r : RunState α}

theorem run_of_verdict {p : Outcome × List (Warning α)} (hv : r.verdict config = some p)
    (remaining : Nat) : r.run config remaining = ((r.examine config).warn p.2, p.1) := by
  have hv' : ((r.examine config).workspace.gap (r.examine config).mu).verdict config
      (r.examine config).iters = some p := hv
  cases remaining with
  | zero =>
      rw [run]
      simp only [hv']
  | succ remaining =>
      rw [run]
      simp only [hv']

theorem run_zero (hv : r.verdict config = none) :
    r.run config 0 = (r.examine config, .maxIterReached) := by
  have hv' : ((r.examine config).workspace.gap (r.examine config).mu).verdict config
      (r.examine config).iters = none := hv
  rw [run]
  simp only [hv']

theorem run_of_error {k : Nat} (hv : r.verdict config = none)
    (hok : (r.attempt config).outcome = .error k) (remaining : Nat) :
    r.run config (remaining + 1) =
      ({ r.examine config with workspace := (r.attempt config).workspace }.warn
        ((r.attempt config).warnings ++ [Warning.breakdown k r.iters]), .belowMinStep) := by
  have hv' : ((r.examine config).workspace.gap (r.examine config).mu).verdict config
      (r.examine config).iters = none := hv
  have hok' : ((r.examine config).workspace.step (r.examine config).mu config.sigmaMin).outcome =
      .error k := hok
  rw [run]
  simp only [hv', hok']
  rfl

theorem run_of_ok {stats : StepStats α} (hv : r.verdict config = none)
    (hok : (r.attempt config).outcome = .ok stats) (remaining : Nat) :
    r.run config (remaining + 1) =
      if Scalar.lt stats.alpha config.minStep then
        (((r.examine config).accept config (r.attempt config) stats).warn
          [.shortStep stats.alpha config.minStep (r.iters + 1)], .belowMinStep)
      else ((r.examine config).accept config (r.attempt config) stats).run config remaining := by
  have hv' : ((r.examine config).workspace.gap (r.examine config).mu).verdict config
      (r.examine config).iters = none := hv
  have hok' : ((r.examine config).workspace.step (r.examine config).mu config.sigmaMin).outcome =
      .ok stats := hok
  rw [run]
  simp only [hv', hok']
  rfl

/-- The verdict is success only within tolerance. -/
theorem within_of_verdict {p : Outcome × List (Warning α)} (hv : r.verdict config = some p)
    (hp : p.1 = .success) : (r.workspace.residuals.gap r.mu).within config.tol = true := by
  rw [verdict, Gap.verdict] at hv
  split at hv
  · assumption
  · split at hv
    · cases hv
      cases hp
    · split at hv
      · cases hv
        cases hp
      · cases hv

end Run

/-- A run that ended with `last` is over at the loop head `r`. -/
structure EndsAt (config : SolverConfig α) (r : RunState α) (last : RunState α × Outcome) :
    Prop where
  /-- Sizes, data and point. -/
  base : last.1.workspace.stages.map StageState.base = r.workspace.stages.map StageState.base
  /-- The buffers keep their sizes. -/
  chained : HorizonShaped r.workspace.stages → Chained last.1.workspace.stages
  /-- The records. -/
  stats : last.1.workspace.stats = r.workspace.stats
  /-- The stage sizes of the workspace. -/
  sizes : last.1.workspace.sizes = r.workspace.sizes
  /-- The duality measure. -/
  mu : last.1.mu = r.mu
  /-- The number of steps. -/
  iters : last.1.iters = r.iters
  /-- Success is reported only within tolerance. -/
  within : last.2 = .success → (r.workspace.residuals.gap r.mu).within config.tol = true

/-- What a run does: it stops at a verdict or at the cap, gives up when no step can be made or after
a step that is too short, and otherwise goes on from where its step leads. -/
theorem run_induction {config : SolverConfig α} {P : Nat → RunState α → RunState α × Outcome → Prop}
    (stop : ∀ n r p, r.verdict config = some p → P n r ((r.examine config).warn p.2, p.1))
    (cap : ∀ r, r.verdict config = none → P 0 r (r.examine config, .maxIterReached))
    (breakdown : ∀ n r k, r.verdict config = none → (r.attempt config).outcome = .error k →
      P (n + 1) r ({ r.examine config with workspace := (r.attempt config).workspace }.warn
        ((r.attempt config).warnings ++ [Warning.breakdown k r.iters]), .belowMinStep))
    (short : ∀ n r stats, r.verdict config = none → (r.attempt config).outcome = .ok stats →
      Scalar.lt stats.alpha config.minStep = true →
      P (n + 1) r (((r.examine config).accept config (r.attempt config) stats).warn
        [.shortStep stats.alpha config.minStep (r.iters + 1)], .belowMinStep))
    (step : ∀ n r stats last, r.verdict config = none → (r.attempt config).outcome = .ok stats →
      ¬ Scalar.lt stats.alpha config.minStep = true →
      P n ((r.examine config).accept config (r.attempt config) stats) last → P (n + 1) r last) :
    ∀ n r, P n r (r.run config n) := by
  intro n
  induction n with
  | zero =>
      intro r
      cases hv : r.verdict config with
      | some p =>
          rw [run_of_verdict hv]
          exact stop 0 r p hv
      | none =>
          rw [run_zero hv]
          exact cap r hv
  | succ n ih =>
      intro r
      cases hv : r.verdict config with
      | some p =>
          rw [run_of_verdict hv]
          exact stop (n + 1) r p hv
      | none =>
          cases hok : (r.attempt config).outcome with
          | error k =>
              rw [run_of_error hv hok]
              exact breakdown n r k hv hok
          | ok stats =>
              rw [run_of_ok hv hok]
              split
              · exact short n r stats hv hok ‹_›
              · exact step n r stats _ hv hok ‹_› (ih _)

section EndsAt

variable {config : SolverConfig α} {r : RunState α}

theorem endsAt_of_verdict {p : Outcome × List (Warning α)} (hv : r.verdict config = some p) :
    EndsAt config r ((r.examine config).warn p.2, p.1) :=
  ⟨Workspace.residuals_base _, fun h => Workspace.chained_residuals h.chained, rfl, rfl, rfl, rfl,
    within_of_verdict hv⟩

theorem endsAt_of_cap (config : SolverConfig α) (r : RunState α) :
    EndsAt config r (r.examine config, .maxIterReached) :=
  ⟨Workspace.residuals_base _, fun h => Workspace.chained_residuals h.chained, rfl, rfl, rfl, rfl,
    fun hp => nomatch hp⟩

theorem endsAt_of_error {k : Nat} (hok : (r.attempt config).outcome = .error k)
    (warnings : List (Warning α)) :
    EndsAt config r ({ r.examine config with workspace := (r.attempt config).workspace }.warn
      warnings, .belowMinStep) := by
  have hworkspace : (r.attempt config).workspace = _ := Workspace.of_step_error hok
  have hcore := map_base_of_core (Workspace.sweep_core r.workspace.residuals)
  have hswept := fun h : HorizonShaped r.workspace.stages =>
    (Workspace.horizonShaped_sweep (Workspace.horizonShaped_residuals h)).chained
  rw [hworkspace]
  exact ⟨hcore.trans (Workspace.residuals_base _), hswept, rfl, rfl, rfl, rfl,
    fun hp => nomatch hp⟩

theorem endsAt_of_short (config : SolverConfig α) (r : RunState α)
    (warnings : List (Warning α)) : EndsAt config r (r.warn warnings, .belowMinStep) :=
  ⟨rfl, HorizonShaped.chained, rfl, rfl, rfl, rfl, fun hp => nomatch hp⟩

end EndsAt

/-- Whichever way a run ends, it ends at a loop head. -/
theorem run_endsAt (config : SolverConfig α) (r₀ : RunState α) :
    ∀ remaining r, Visits config r₀ r →
      ∃ r', Visits config r₀ r' ∧ EndsAt config r' (r.run config remaining) := by
  refine run_induction (P := fun _ r last => Visits config r₀ r →
    ∃ r', Visits config r₀ r' ∧ EndsAt config r' last) ?stop ?cap ?breakdown ?short ?step
  case stop =>
    intro _ r p hv hr
    exact ⟨r, hr, endsAt_of_verdict hv⟩
  case cap =>
    intro r _ hr
    exact ⟨r, hr, endsAt_of_cap config r⟩
  case breakdown =>
    intro _ r k _ hok hr
    exact ⟨r, hr, endsAt_of_error hok _⟩
  case short =>
    intro _ r stats hv hok _ hr
    exact ⟨_, .step hr hv hok, endsAt_of_short config _ _⟩
  case step =>
    intro _ r stats last hv hok _ ih hr
    exact ih (.step hr hv hok)

/-- Two runs side by side. If a relation between loop heads makes both be judged alike and step
alike, and an accepted step keeps it, then both runs have the same outcome and end at loop heads
that are related. -/
theorem run_pair {config : SolverConfig α} {R : RunState α → RunState α → Prop}
    (hverdict : ∀ r r', R r r' → r'.verdict config = r.verdict config)
    (hattempt : ∀ r r', R r r' → (r'.attempt config).outcome = (r.attempt config).outcome)
    (hnext : ∀ r r', R r r' → ∀ stats, (r.attempt config).outcome = .ok stats →
      R (r.next config) (r'.next config)) :
    ∀ (n : Nat) (r r' : RunState α), R r r' → (r'.run config n).2 = (r.run config n).2 ∧
      ∃ p p', R p p' ∧ EndsAt config p (r.run config n) ∧ EndsAt config p' (r'.run config n) := by
  refine run_induction (P := fun n r last => ∀ r', R r r' → (r'.run config n).2 = last.2 ∧
    ∃ p p', R p p' ∧ EndsAt config p last ∧ EndsAt config p' (r'.run config n)) ?stop ?cap
    ?breakdown ?short ?step
  case stop =>
    intro n r p hv r' h
    have hv' := (hverdict r r' h).trans hv
    rw [run_of_verdict hv']
    exact ⟨rfl, r, r', h, endsAt_of_verdict hv, endsAt_of_verdict hv'⟩
  case cap =>
    intro r hv r' h
    rw [run_zero ((hverdict r r' h).trans hv)]
    exact ⟨rfl, r, r', h, endsAt_of_cap config r, endsAt_of_cap config r'⟩
  case breakdown =>
    intro n r k hv hok r' h
    have hok' := (hattempt r r' h).trans hok
    rw [run_of_error ((hverdict r r' h).trans hv) hok']
    exact ⟨rfl, r, r', h, endsAt_of_error hok _, endsAt_of_error hok' _⟩
  case short =>
    intro n r stats hv hok hshort r' h
    have hok' := (hattempt r r' h).trans hok
    have hrel := hnext r r' h stats hok
    rw [run_of_ok ((hverdict r r' h).trans hv) hok', if_pos hshort]
    rw [← (accept_eq_next hok).2.2, ← (accept_eq_next hok').2.2] at hrel
    exact ⟨rfl, _, _, hrel, endsAt_of_short config _ _, endsAt_of_short config _ _⟩
  case step =>
    intro n r stats last hv hok hlong ih r' h
    have hok' := (hattempt r r' h).trans hok
    have hrel := hnext r r' h stats hok
    rw [run_of_ok ((hverdict r r' h).trans hv) hok', if_neg hlong]
    rw [← (accept_eq_next hok).2.2, ← (accept_eq_next hok').2.2] at hrel
    exact ih _ hrel

end RunState

/-! ## The result of a solve -/

omit [Scalar α] in
theorem map_states_of_base [Zero α] {l l' : List (StageState α)}
    (h : l'.map StageState.base = l.map StageState.base) :
    l'.map StageState.states = l.map StageState.states :=
  map_map_eq (f := StageState.base) (g := fun b => b.2.2.v.slice b.1.2 b.1.1) h

omit [Scalar α] in
theorem map_controls_of_base [Zero α] {l l' : List (StageState α)}
    (h : l'.map StageState.base = l.map StageState.base) :
    l'.map StageState.controls = l.map StageState.controls :=
  map_map_eq (f := StageState.base) (g := fun b => b.2.2.v.slice 0 b.1.2) h

theorem Workspace.toTrajectory_of_base {w w' : Workspace α}
    (h : w'.stages.map StageState.base = w.stages.map StageState.base) :
    w'.toTrajectory = w.toTrajectory := by
  rw [toTrajectory, toTrajectory, map_states_of_base h, List.map_dropLast, List.map_dropLast,
    map_controls_of_base h]

/-- The duality measure is a function of the rows, the slacks and their multipliers. -/
theorem Workspace.duality_of_base {w w' : Workspace α}
    (h : w'.stages.map StageState.base = w.stages.map StageState.base) :
    w'.pairs = w.pairs ∧ w'.duality = w.duality := by
  have hpairs : w'.pairs = w.pairs :=
    congrArg (fun l => l.foldr (· + ·) 0)
      (map_map_eq (f := StageState.base) (g := fun b => 2 * b.2.1.bound.lo.size) h)
  have hproducts : ∀ (acc : α) (s s' : StageState α), s'.base = s.base →
      acc + s'.products = acc + s.products := by
    intro acc s s' heq
    have hpoint : s'.point = s.point := congrArg (fun b => b.2.2) heq
    rw [StageState.products, StageState.products, hpoint]
  refine ⟨hpairs, ?_⟩
  rw [duality, duality, hpairs, foldl_eq_of_map_eq h hproducts]

/-- The norms of residuals are a function of the residuals. -/
theorem Workspace.residualNorms_of_core {w w' : Workspace α}
    (h : w'.stages.map StageState.core = w.stages.map StageState.core) :
    w'.residualNorms = w.residualNorms := by
  refine foldl_eq_of_map_eq h (fun acc s s' heq => ?_) _
  have hstat : s'.residual.stat = s.residual.stat := congrArg StageCore.stat heq
  have hdyn : s'.residual.dyn = s.residual.dyn := congrArg StageCore.dyn heq
  have hineq : s'.residual.ineq = s.residual.ineq := congrArg StageCore.ineq heq
  rw [hstat, hdyn, hineq]

/-- A solve that was not refused returns what it found at a loop head of its run. -/
structure SolveResult.From (config : SolverConfig α) (r : RunState α) (res : SolveResult α) :
    Prop where
  /-- The trajectory is the current point. -/
  trajectory : res.trajectory = r.workspace.toTrajectory
  /-- The workspace holds the residuals of the point. -/
  core : res.workspace.stages.map StageState.core =
    r.workspace.residuals.stages.map StageState.core
  /-- Its buffers keep their sizes. -/
  chained : HorizonShaped r.workspace.stages → Chained res.workspace.stages
  /-- The workspace is for the same stage sizes. -/
  sizes : res.workspace.sizes = r.workspace.sizes
  /-- The report is about the point. -/
  norms : res.report.norms = r.workspace.residuals.residualNorms
  /-- The duality measure. -/
  mu : res.report.mu = r.mu
  /-- The number of steps. -/
  iters : res.report.iters = r.iters
  /-- The records of the steps. -/
  stats : res.report.stats = r.workspace.stats
  /-- Success is reported only within tolerance. -/
  within : res.status = .success → (r.workspace.residuals.gap r.mu).within config.tol = true

theorem SolveResult.from_conclude {config : SolverConfig α} {r : RunState α}
    {last : RunState α × Outcome} (h : RunState.EndsAt config r last) :
    (last.1.conclude last.2).From config r := by
  have hcore := Workspace.residuals_core_of_base h.base
  exact
    { trajectory := (Workspace.toTrajectory_of_base (Workspace.residuals_base _)).trans
        (Workspace.toTrajectory_of_base h.base)
      core := hcore
      chained := fun hr => Workspace.chained_residuals (h.chained hr)
      sizes := h.sizes
      norms := Workspace.residualNorms_of_core hcore
      mu := h.mu
      iters := h.iters
      stats := h.stats
      within := h.within }

/-- The arguments of a solve that is not refused. -/
structure Horizon.Solvable (h : Horizon α) (config : SolverConfig α) (t : Trajectory α)
    (w : Workspace α) : Prop where
  /-- The configuration is in range. -/
  valid : config.check = .ok ()
  /-- The workspace was made for these sizes and this cap. -/
  workspace : w.fits h.sizes config.maxIter = true
  /-- The trajectory has the vectors of the horizon. -/
  trajectory : t.fits h.sizes = true

/-- A solve goes through only with such arguments. -/
theorem Horizon.solvable_of_solveIn {h : Horizon α} {config : SolverConfig α} {t : Trajectory α}
    {w : Workspace α} {res : SolveResult α} (hres : h.solveIn config t w = .ok res) :
    h.Solvable config t w := by
  rw [solveIn, seq_eq_ok] at hres
  obtain ⟨hconfig, hres⟩ := hres
  cases hfits : w.fits h.sizes config.maxIter with
  | false =>
      rw [hfits] at hres
      cases hres
  | true =>
      cases hshape : t.fits h.sizes with
      | false =>
          rw [hfits, hshape] at hres
          cases hres
      | true => exact ⟨hconfig, hfits, hshape⟩

/-- With such arguments it goes through: it returns what its run ended with. -/
theorem Horizon.Solvable.solveIn_eq {h : Horizon α} {config : SolverConfig α} {t : Trajectory α}
    {w : Workspace α} (hs : h.Solvable config t w) : h.solveIn config t w =
      .ok (((RunState.initial h config t w).run config config.maxIter).1.conclude
        ((RunState.initial h config t w).run config config.maxIter).2) := by
  rw [solveIn, seq_eq_ok]
  refine ⟨hs.valid, ?_⟩
  rw [hs.workspace, hs.trajectory]
  rfl

/-- What it returns is from a loop head of its run. -/
theorem Horizon.Solvable.exists_solveIn {h : Horizon α} {config : SolverConfig α}
    {t : Trajectory α} {w : Workspace α} (hs : h.Solvable config t w) :
    ∃ res, h.solveIn config t w = .ok res ∧
      ∃ r, RunState.Visits config (RunState.initial h config t w) r ∧ res.From config r := by
  obtain ⟨r, hr, hends⟩ := RunState.run_endsAt config (RunState.initial h config t w)
    config.maxIter (RunState.initial h config t w) .start
  exact ⟨_, hs.solveIn_eq, r, hr, SolveResult.from_conclude hends⟩

end StagedQP
