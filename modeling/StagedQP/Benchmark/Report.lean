import StagedQP.Benchmark.Options
import StagedQP.Error.Message
import StagedQP.Problem.Build
import StagedQP.Solver.Run

/-!
# The benchmark report

A run prints what it is about to do, sets the problem up, solves it a number of times, and prints
the last solution. This module holds the lines of the report and the reasons for which a run fails;
the clock, the machine's name and the files are the command line's business.
-/

namespace StagedQP.Benchmark

/-- Why a run failed. -/
inductive Failure where
  /-- It reports what it was doing, and what went wrong. -/
  | reported (context cause : String)
  /-- It stops where it is: an array would have been too large. -/
  | stopped

namespace Failure

/-- The lines of a failure. A run that stops also says where, in lines that depend on how the
benchmark was built. -/
def lines : Failure → List String
  | reported context cause => ["Error: " ++ context, "", "Caused by:", "    " ++ cause]
  | stopped => ["capacity overflow"]

/-- The exit code of a run that failed. -/
def exitCode : Failure → Nat
  | reported .. => 1
  | stopped => 101

/-- The failure to set a run up, with what the run was doing. -/
def ofFault (context : String) : SetupFault Float → Failure
  | .refused e => reported context e.message
  | .capacity => stopped

end Failure

/-- An error, with what the run was doing. -/
def during {β : Type} (context : String) : Except (SetupError Float) β → Except Failure β :=
  Except.mapError fun e => .reported context e.message

/-- The lines printed before the problem is set up. -/
def Options.headLines (o : Options) : List String :=
  ["OCP Solver Benchmark", "====================", "",
    "Test problem: mass-spring system with " ++ toString (o.nx / 2) ++ " masses and "
      ++ toString o.nu ++ " controls.",
    "MPC problem size: " ++ toString o.nx ++ " states, " ++ toString o.nu ++ " inputs, "
      ++ toString o.horizon ++ " horizon length, " ++ toString o.nb
      ++ " two-sided box constraints, " ++ toString o.ng ++ " two-sided general constraints, "
      ++ toString o.ngn ++ " two-sided general constraints on the last stage.",
    "IP method parameters: predictor-corrector IP, double precision, " ++ toString o.maxIter
      ++ " maximum iterations, " ++ logNumber 1 o.tol ++ " exit tolerance, "
      ++ logNumber 1 o.minStep ++ " minimum step length."]

/-- A problem that is ready to be solved. -/
structure Prepared where
  /-- The horizon. -/
  horizon : Horizon Float
  /-- The configuration. -/
  config : SolverConfig Float
  /-- A workspace for both. -/
  workspace : Workspace Float
  /-- A trajectory for the horizon. -/
  trajectory : Trajectory Float

/-- The problem of a run, set up. -/
def Options.prepare (o : Options) : Except Failure Prepared := do
  let problem ← during "Failed to set up the mass-spring problem"
    (ControlProblem.chain? o.ts o.nx o.nu o.horizon o.nb o.ng o.ngn)
  let horizon ← during "Failed to build the stage QPs" problem.build?
  during "Invalid solver parameters" o.config.check
  let workspace ← (Workspace.of? horizon.sizes o.config).mapError
    (Failure.ofFault "Invalid solver parameters")
  return ⟨horizon, o.config, workspace, Trajectory.zeros horizon.sizes⟩

/-- The lines printed before the first solve. -/
def Prepared.sizeLines (p : Prepared) : List String :=
  ["Workspace size: " ++ toString p.workspace.bytes ++ " bytes", ""]

/-- One solve in the workspace that the solve before has left. -/
def Prepared.solveOnce (p : Prepared) : Except Failure (SolveResult Float) :=
  during "Failed to solve" (p.horizon.solveIn p.config p.trajectory p.workspace)

/-- The buffers as a solve has left them. -/
def Prepared.after (p : Prepared) (r : SolveResult Float) : Prepared :=
  { p with workspace := r.workspace, trajectory := r.trajectory }

/-- The line of a vector: its entries with five decimal places. -/
def vectorLine (name : String) (k : Nat) (v : Vec Float) : String :=
  let entries := v.toList.map fun x =>
    Decimal.padLeft 9 (Decimal.fixed .inMessages 5 x)
  "  " ++ name ++ "[" ++ Decimal.padLeft 3 (toString k) ++ "] = ["
    ++ " ".intercalate entries ++ "]"

/-- The lines of a list of vectors. -/
def vectorLines (name : String) (vs : List (Vec Float)) : List String :=
  vs.zipIdx.map fun p => vectorLine name p.2 p.1

/-- A rule across the page. -/
def rule : String := String.ofList (List.replicate 60 '=')

/-- The lines of a solution. -/
def solutionLines (r : SolveResult Float) : List String :=
  ["Solver status: " ++ r.status.text ++ " (code " ++ toString r.status.code ++ ") after "
      ++ toString r.report.iters ++ " iterations, mu = " ++ logNumber 3 r.report.mu, "",
    "u ="] ++ vectorLines "u" r.trajectory.u ++ ["", "x ="]
    ++ vectorLines "x" r.trajectory.x ++ [""]

/-- A warning as a log line. -/
def warningLine (text : String) : String := "[WARN ] " ++ text

/-- The log lines of one solve. -/
def solveWarnings (r : SolveResult Float) : List String :=
  r.warnings.map fun w => warningLine w.message

/-- The log lines after the last solve. -/
def closingWarnings (r : SolveResult Float) : List String :=
  if r.status.isSuccess then []
  else [warningLine "returned trajectory is the last iterate, not an optimum"]

/-- The failure to create the file of the summary. -/
def creationFailure (path cause : String) : Failure :=
  .reported ("Failed to create file " ++ path) cause

/-- The failure to write the summary to its file. -/
def writingFailure (path cause : String) : Failure :=
  .reported ("Failed to write JSON to " ++ path) cause

/-- The line that follows a summary. -/
def writtenLine (path : String) : String := "Summary written to " ++ path

end StagedQP.Benchmark
