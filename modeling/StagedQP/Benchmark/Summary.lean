import StagedQP.Benchmark.Report

/-!
# The run summary

The machine-readable record of a run is a tree of named values, `Summary.Value`, written as indented
JSON. The tree is built from the options and the solution; the machine's name and the mean time are
passed in by the command line.

A number is written with the fewest digits that read back: positionally from `1e-5` up to below
`1e16`, with at least one digit after the point, and with a power of ten otherwise. A number that is
not finite is written as `null`.
-/

namespace StagedQP.Benchmark.Summary

/-- A value of the summary. -/
inductive Value where
  /-- A natural number. -/
  | count (n : Nat)
  /-- A number. -/
  | number (x : Float)
  /-- A text. -/
  | text (s : String)
  /-- A list of values. -/
  | list (items : List Value)
  /-- Named values, in order. -/
  | record (fields : List (String × Value))

/-- The sizes of the problem. -/
def problem (o : Options) : Value :=
  .record [("nx", .count o.nx), ("nu", .count o.nu), ("horizon", .count o.horizon),
    ("nb", .count o.nb), ("ng", .count o.ng), ("ngn", .count o.ngn), ("ts", .number o.ts)]

/-- The parameters of the solver. -/
def solver (o : Options) : Value :=
  .record [("tol", .number o.tol), ("max_iter", .count o.maxIter),
    ("min_step", .number o.minStep), ("mu0", .number o.mu0),
    ("sigma_min", .number o.sigmaMin)]

/-- A list of vectors. -/
def vectors (vs : List (Vec Float)) : Value :=
  .list (vs.map fun v => .list (v.toList.map .number))

/-- The machine of a run. -/
def machine : List (String × Value) := [("arch", .text "x86_64"), ("os", .text "linux")]

/-- The mean time of a solve, in milliseconds. -/
def clock (mean : Float) : List (String × Value) := [("avg_solve_ms", .number mean)]

/-- The record of a run; `machine` comes first and `clock` before the trajectory. -/
def ofRun (o : Options) (r : SolveResult Float) (machine clock : List (String × Value)) : Value :=
  .record (machine ++ [("problem", problem o), ("solver", solver o),
    ("workspace_bytes", .count r.report.bytes), ("status_code", .count r.status.code),
    ("status", .text r.status.text), ("iters", .count r.report.iters),
    ("mu", .number r.report.mu), ("reps", .count o.solves)] ++ clock ++
    [("u", vectors r.trajectory.u), ("x", vectors r.trajectory.x)])

/-- The text of a positive finite number `m * 2 ^ q`. -/
def positiveText (m : Nat) (q : Int) : String :=
  let e := (Decimal.Magnitude.ofBinary m q).exponent
  let (c, k) := (Decimal.RoundingInterval.ofBinary m q).shortestFrom e 1 20
  let digits := (Nat.toDigits 10 c).reverse.dropWhile (· == '0')
  let first : Int := (Nat.toDigits 10 c).length + k
  if -5 < first ∧ first ≤ 16 then
    let text := Decimal.positional c k
    if text.toList.contains '.' then text else text ++ ".0"
  else
    match digits.reverse with
    | [] => "0.0"
    | [d] => String.ofList [d] ++ "e" ++ toString (first - 1)
    | d :: rest => String.ofList (d :: '.' :: rest) ++ "e" ++ toString (first - 1)

/-- The text of a number. -/
def numberText (x : Float) : String :=
  match Decimal.Parts.ofFloat x with
  | .finite negative m q =>
    Decimal.signText negative ++ if m = 0 then "0.0" else positiveText m q
  | _ => "null"

/-- A character inside a quoted text. -/
def escaped (c : Char) : String :=
  if c = '"' then "\\\"" else if c = '\\' then "\\\\" else String.ofList [c]

/-- A text in quotes. -/
def quoted (s : String) : String := "\"" ++ String.join (s.toList.map escaped) ++ "\""

/-- Two blanks for each level. -/
def indent (level : Nat) : String := String.ofList (List.replicate (2 * level) ' ')

/-- Items one to a line between two brackets; nothing stands between the brackets of no items. -/
def bracketed (opening closing : String) (level : Nat) (items : List String) : String :=
  if items.isEmpty then opening ++ closing
  else opening ++ "\n" ++ ",\n".intercalate (items.map fun i => indent (level + 1) ++ i)
    ++ "\n" ++ indent level ++ closing

/-- The text of a value at a level of indentation. -/
def render (level : Nat) : Value → String
  | .count n => toString n
  | .number x => numberText x
  | .text s => quoted s
  | .list items =>
    bracketed "[" "]" level (items.attach.map fun ⟨v, _⟩ => render (level + 1) v)
  | .record fields =>
    bracketed "\x7b" "\x7d" level
      (fields.attach.map fun ⟨f, _⟩ => quoted f.1 ++ ": " ++ render (level + 1) f.2)
  termination_by v => v
  decreasing_by
    · rename_i h
      have := List.sizeOf_lt_of_mem h
      simp
      omega
    · rename_i h
      have := List.sizeOf_lt_of_mem h
      have : sizeOf f = 1 + sizeOf f.1 + sizeOf f.2 := rfl
      simp
      omega

end StagedQP.Benchmark.Summary
