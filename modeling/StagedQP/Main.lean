import StagedQP.Benchmark.Transcript

/-!
# The benchmark command

The outer layer of the benchmark: it prints the report while the problem is set up and solved,
measures the time, and writes the summary.
-/

namespace StagedQP.Benchmark

/-- Prints the lines of a failure and gives the exit code. -/
def reportFailure (f : Failure) : IO UInt32 := do
  for line in f.lines do
    IO.eprintln line
  return UInt32.ofNat f.exitCode

/-- Prints lines of the report. -/
def printLines (lines : List String) : IO Unit := do
  for line in lines do
    IO.println line

/-- Solves `reps` times, printing the warnings of each solve; the last solution. -/
def solveRepeatedly (p : Prepared) : (reps : Nat) → IO (Except Failure (SolveResult Float))
  | 0 => return p.solveOnce
  | reps + 1 => do
    match p.solveOnce with
    | .error f => return .error f
    | .ok r =>
      for line in solveWarnings r do
        IO.eprintln line
      if reps = 0 then return .ok r else solveRepeatedly (p.after r) reps

/-- The number of the fault behind an error. -/
def faultCode? : IO.Error → Option UInt32
  | .noFileOrDirectory _ code _ => some code
  | .permissionDenied _ code _ => some code
  | .inappropriateType _ code _ => some code
  | .invalidArgument _ code _ => some code
  | .resourceExhausted _ code _ => some code
  | .noSuchThing _ code _ => some code
  | .otherError code _ => some code
  | _ => none

/-- The wording of an error. -/
def faultMessage (e : IO.Error) : String :=
  match (faultCode? e).bind fun code => FileFault.ofCode? code.toNat with
  | some fault => fault.message
  | none => toString e

/-- Writes the summary of a run. A fault of writing counts only when the text is longer than the
buffer that holds it back. -/
def writeSummary (o : Options) (r : SolveResult Float) (mean : Float) (path : String) :
    IO UInt32 := do
  let text := Summary.render 0 (Summary.ofRun o r Summary.machine (Summary.clock mean))
  match ← (IO.FS.Handle.mk path .write).toBaseIO with
  | .error e => reportFailure (creationFailure path (faultMessage e))
  | .ok file =>
    match ← (file.putStr text).toBaseIO, decide (bufferSize < text.utf8ByteSize) with
    | .error e, true => reportFailure (writingFailure path (faultMessage e))
    | _, _ =>
      IO.println (writtenLine path)
      return 0

/-- Runs the benchmark. -/
def run (o : Options) : IO UInt32 := do
  printLines (o.headLines ++ ["Build target: x86_64 (linux)", ""])
  match o.prepare with
  | .error f => reportFailure f
  | .ok p =>
    printLines p.sizeLines
    let start ← IO.monoNanosNow
    match ← solveRepeatedly p o.solves with
    | .error f => reportFailure f
    | .ok r =>
      let stop ← IO.monoNanosNow
      let mean := Float.ofNat (stop - start) / 1e6 / Float.ofNat o.solves
      for line in closingWarnings r do
        IO.eprintln line
      printLines (solutionLines r ++ [rule,
        "Average solution time over " ++ toString o.solves ++ " runs: "
          ++ Decimal.fixed .inMessages 3 mean ++ " ms", rule])
      match o.json with
      | none => return 0
      | some path => writeSummary o r mean path

end StagedQP.Benchmark

/-- The benchmark command; a usage error ends it with exit code 2. -/
def main (args : List String) : IO UInt32 := do
  match StagedQP.Benchmark.Options.read? args with
  | none =>
    IO.eprintln "error: unexpected or malformed argument"
    return 2
  | some o => StagedQP.Benchmark.run o
