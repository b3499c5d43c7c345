import StagedQP.FileTree
import StagedQP.Benchmark.Summary

/-!
# Transcripts of runs

A transcript is everything a run prints that does not depend on the clock or the machine's name,
and the reason for which the run fails, if it does. Which files can be written is a property of the
machine, so a transcript is taken on a `FileTree`.

The file of the summary is opened after the report is printed. Its text is held back in a buffer and
written when the buffer overflows, or when the file is closed; a fault on closing goes unnoticed. A
device that refuses what is written to it therefore fails only a summary longer than the buffer.
-/

namespace StagedQP.Benchmark

/-- The bytes of a summary that are held back before any of them is written. -/
def bufferSize : Nat := 8192

/-- Number of bytes of a summary, for a mean time of zero. -/
def summarySize (o : Options) (r : SolveResult Float) : Nat :=
  (Summary.render 0 (Summary.ofRun o r Summary.machine (Summary.clock 0))).utf8ByteSize

/-- The reason for which the summary of a run cannot be written to `path`, if there is one. -/
def storageFailure (files : FileTree) (o : Options) (r : SolveResult Float) (path : String) :
    Option Failure :=
  match files.openForWriting path with
  | .error fault => some (creationFailure path fault.message)
  | .ok (.file _ (some fault)) =>
    if bufferSize < summarySize o r then some (writingFailure path fault.message) else none
  | .ok _ => none

/-- Everything a run prints that does not depend on the clock or the machine's name. -/
structure Transcript where
  /-- Lines of the report. -/
  report : List String
  /-- Lines of the log. -/
  log : List String
  /-- The last solution, if the run got that far. -/
  solution : Option (SolveResult Float)
  /-- Why the run failed, if it did. -/
  failure : Option Failure

/-- The last line of a report, once the summary is stored, and the failure to store it. -/
def Options.storing (o : Options) (files : FileTree) (r : SolveResult Float) :
    List String × Option Failure :=
  match o.json with
  | none => ([], none)
  | some path =>
    match storageFailure files o r path with
    | none => ([writtenLine path], none)
    | some f => ([], some f)

/-- The transcript of a run on a machine with these files. Every solve starts cold from the same
data, so all of them report the same; one is computed and its warnings are repeated. -/
def Options.transcript (o : Options) (files : FileTree) : Transcript :=
  let head := o.headLines ++ [""]
  match o.prepare with
  | .error f => ⟨head, [], none, some f⟩
  | .ok p =>
    match p.solveOnce with
    | .error f => ⟨head ++ p.sizeLines, [], none, some f⟩
    | .ok r =>
      let (lastLines, failure) := o.storing files r
      ⟨head ++ p.sizeLines ++ solutionLines r ++ [rule, rule] ++ lastLines,
        (List.replicate o.solves (solveWarnings r)).flatten ++ closingWarnings r, some r, failure⟩

end StagedQP.Benchmark
