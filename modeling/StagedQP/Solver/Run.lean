import StagedQP.Solver.Step
import StagedQP.Solver.Gap

/-!
# Solves

A solve takes the data of a horizon into a workspace, starts from zero or from the given trajectory,
and makes steps until the verdict on the current point, a step that is too short, or a control block
that cannot be factored ends it. Whatever ends it, the last point is what it returns, with its
residuals evaluated again.

`Horizon.solveIn` uses a workspace and a trajectory of the caller's. It refuses a configuration out
of range, a workspace of other sizes or a smaller cap, and a trajectory of other sizes, and then
leaves both as they are. `Horizon.solve` makes its own, if the records of all iterations fit an
array.
-/

namespace StagedQP

variable {α : Type} [Scalar α]

/-- What a solve reports about the last point. -/
structure SolveReport (α : Type) where
  /-- Number of accepted steps. -/
  iters : Nat
  /-- Duality measure. -/
  mu : α
  /-- Residual norms. -/
  norms : ResidualNorms α
  /-- Size of the workspace in bytes. -/
  bytes : Nat
  /-- The records of the accepted steps. -/
  stats : List (StepStats α)

/-- The state of a solve between two steps. -/
structure RunState (α : Type) where
  /-- The workspace. -/
  workspace : Workspace α
  /-- Duality measure of the current point. -/
  mu : α
  /-- Number of accepted steps. -/
  iters : Nat
  /-- Warnings so far. -/
  warnings : List (Warning α)
  /-- Number of log lines so far. -/
  lines : Nat

namespace RunState

/-- The number of log lines after `n` more, if the configuration asks for them. -/
def logged (r : RunState α) (config : SolverConfig α) (n : Nat) : Nat :=
  if config.verbose then r.lines + n else r.lines

/-- The state with the residuals of the current point evaluated. -/
def examine (r : RunState α) (config : SolverConfig α) : RunState α :=
  { r with workspace := r.workspace.residuals, lines := r.logged config 1 }

/-- The state after an accepted step. -/
def accept (r : RunState α) (config : SolverConfig α) (s : StepResult α) (stats : StepStats α) :
    RunState α where
  workspace := { s.workspace with stats := s.workspace.stats ++ [stats] }
  mu := stats.mu
  iters := r.iters + 1
  warnings := r.warnings ++ s.warnings
  lines := r.logged config 1

/-- The state with more warnings. -/
def warn (r : RunState α) (warnings : List (Warning α)) : RunState α :=
  { r with warnings := r.warnings ++ warnings }

/-- The steps of a solve, `remaining` of which the cap still allows. -/
def run (config : SolverConfig α) (remaining : Nat) (r : RunState α) :
    RunState α × Outcome :=
  let r := r.examine config
  match (r.workspace.gap r.mu).verdict config r.iters with
  | some (status, warnings) => (r.warn warnings, status)
  | none =>
    match remaining with
    | 0 => (r, .maxIterReached)
    | remaining + 1 =>
      let s := r.workspace.step r.mu config.sigmaMin
      match s.outcome with
      | .error k =>
        ({ r with workspace := s.workspace }.warn (s.warnings ++ [Warning.breakdown k r.iters]),
          .belowMinStep)
      | .ok stats =>
        let next := r.accept config s stats
        if Scalar.lt stats.alpha config.minStep then
          (next.warn [.shortStep stats.alpha config.minStep next.iters], .belowMinStep)
        else run config remaining next

end RunState

/-- The result of a solve. -/
structure SolveResult (α : Type) where
  /-- How it ended. -/
  status : Outcome
  /-- The last point, as a trajectory. -/
  trajectory : Trajectory α
  /-- The workspace it leaves. -/
  workspace : Workspace α
  /-- The report on the last point. -/
  report : SolveReport α
  /-- The warnings, in order. -/
  warnings : List (Warning α)
  /-- The number of log lines. -/
  lines : Nat

/-- The initial barrier parameter: the configured one if positive. -/
def startingBarrier (h : Horizon α) (config : SolverConfig α) : α :=
  if Scalar.lt 0 config.mu0 then config.mu0 else h.defaultBarrier

/-- The state from which a solve starts. -/
def RunState.initial (h : Horizon α) (config : SolverConfig α) (t : Trajectory α)
    (w : Workspace α) : RunState α :=
  let loaded := w.load h
  let placed := if config.warmStart then loaded.readTrajectory t else loaded.clearPoint
  let started := { placed.start (startingBarrier h config) with stats := [] }
  { workspace := started
    mu := started.duality
    iters := 0
    warnings := []
    lines := if config.verbose then 1 else 0 }

/-- The result of a run that ended with `status`. -/
def RunState.conclude (r : RunState α) (status : Outcome) : SolveResult α :=
  let last := r.workspace.residuals
  { status := status
    trajectory := last.toTrajectory
    workspace := last
    report :=
      { iters := r.iters
        mu := r.mu
        norms := last.residualNorms
        bytes := last.bytes
        stats := last.stats }
    warnings := r.warnings
    lines := r.lines }

/-- Solves a horizon in the caller's workspace. With a warm start the trajectory is the starting
point. -/
def Horizon.solveIn (h : Horizon α) (config : SolverConfig α) (t : Trajectory α)
    (w : Workspace α) : Except (SetupError α) (SolveResult α) := do
  config.check
  if !w.fits h.sizes config.maxIter then
    throw (.mismatch 0 .workspace)
  if !t.fits h.sizes then
    throw (.mismatch 0 .trajectory)
  let (last, status) := (RunState.initial h config t w).run config config.maxIter
  return last.conclude status

/-- Solves a horizon in a workspace of its own. -/
def Horizon.solve (h : Horizon α) (config : SolverConfig α) :
    Except (SetupFault α) (SolveResult α) := do
  config.check.mapError .refused
  let w ← Workspace.of? h.sizes config
  (h.solveIn config (Trajectory.zeros h.sizes) w).mapError .refused

end StagedQP
