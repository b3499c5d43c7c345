import StagedQP.Scalar.Binary64
import StagedQP.Decimal.Numeral
import StagedQP.Solver.Config

/-!
# Options of the benchmark

The command line of the benchmark is a list of long options, each at most once and in any order. An
option with a value takes it from the same word after an equals sign, or from the next word, which
must then not look like an option itself. Anything else on the command line is a usage error.
-/

namespace StagedQP.Benchmark

/-- The options of a run. -/
structure Options where
  /-- Number of states, two for each mass. -/
  nx : Nat := 8
  /-- Number of actuated masses. -/
  nu : Nat := 3
  /-- Number of steps. -/
  horizon : Nat := 20
  /-- Box rows of an interior stage. -/
  nb : Nat := 11
  /-- General rows of a step. -/
  ng : Nat := 0
  /-- General rows of the last stage. -/
  ngn : Nat := 8
  /-- Sampling period. -/
  ts : Float := 0.5
  /-- Tolerance. -/
  tol : Float := 1e-8
  /-- Iteration cap. -/
  maxIter : Nat := 10
  /-- Least step length. -/
  minStep : Float := 1e-8
  /-- Initial barrier parameter; taken from the cost data unless positive. -/
  mu0 : Float := 0
  /-- Least centering. -/
  sigmaMin : Float := 1e-3
  /-- Number of solves. -/
  reps : Nat := 1000
  /-- Log every iteration. -/
  verbose : Bool := false
  /-- Where to write the summary. -/
  json : Option String := none

/-- What an option does with its value. -/
inductive Setting where
  /-- A natural number is taken in. -/
  | count (set : Options → Nat → Options)
  /-- A number is taken in. -/
  | number (set : Options → Float → Options)
  /-- A file name is taken in. -/
  | path (set : Options → String → Options)
  /-- The option has no value. -/
  | flag (set : Options → Options)

/-- The options by name. -/
def settings : List (String × Setting) :=
  [("nx", .count fun o n => { o with nx := n }),
    ("nu", .count fun o n => { o with nu := n }),
    ("horizon", .count fun o n => { o with horizon := n }),
    ("nb", .count fun o n => { o with nb := n }),
    ("ng", .count fun o n => { o with ng := n }),
    ("ngn", .count fun o n => { o with ngn := n }),
    ("ts", .number fun o x => { o with ts := x }),
    ("tol", .number fun o x => { o with tol := x }),
    ("max-iter", .count fun o n => { o with maxIter := n }),
    ("min-step", .number fun o x => { o with minStep := x }),
    ("mu0", .number fun o x => { o with mu0 := x }),
    ("sigma-min", .number fun o x => { o with sigmaMin := x }),
    ("reps", .count fun o n => { o with reps := n }),
    ("verbose", .flag fun o => { o with verbose := true }),
    ("json", .path fun o p => { o with json := some p })]

/-- The options after a value has been taken in, if the value is well formed. -/
def Setting.withValue? (s : Setting) (o : Options) (value : String) : Option Options :=
  match s with
  | .count set => (Decimal.Numeral.readWord? value).map (set o)
  | .number set => (Decimal.Numeral.read? value).map (set o)
  | .path set => if value.isEmpty then none else some (set o value)
  | .flag _ => none

/-- A word of the command line. -/
inductive Word where
  /-- An option, with its value if one follows an equals sign. -/
  | option (name : String) (value : Option String)
  /-- The mark after which no option follows. -/
  | endOfOptions
  /-- Anything else. -/
  | other

/-- The name of an option and the value after its equals sign. -/
def splitOption (body : List Char) : Word :=
  let name := String.ofList (body.takeWhile (· ≠ '='))
  match body.dropWhile (· ≠ '=') with
  | [] => .option name none
  | _ :: value => .option name (some (String.ofList value))

/-- What a word of the command line is. -/
def Word.of (word : String) : Word :=
  match word.toList with
  | ['-', '-'] => .endOfOptions
  | '-' :: '-' :: body => splitOption body
  | _ => .other

/-- The word can be the value of the option before it. -/
def isValue (word : String) : Bool := word.length ≤ 1 || word.toList.head? != some '-'

/-- The words listed, read into `o`; `seen` are the options already given. -/
def Options.readFrom (o : Options) (seen : List String) : List String → Option Options
  | [] => some o
  | [word] =>
    match Word.of word with
    | .endOfOptions => some o
    | .option name inline =>
      if name ∈ seen then none
      else
        match settings.lookup name, inline with
        | some (.flag set), none => some (set o)
        | some s, some value => s.withValue? o value
        | _, _ => none
    | .other => none
  | word :: next :: rest =>
    match Word.of word with
    | .option name inline =>
      if name ∈ seen then none
      else
        match settings.lookup name, inline with
        | some (.flag set), none => readFrom (set o) (name :: seen) (next :: rest)
        | some s, some value =>
          (s.withValue? o value).bind fun o' => readFrom o' (name :: seen) (next :: rest)
        | some s, none =>
          if isValue next then
            (s.withValue? o next).bind fun o' => readFrom o' (name :: seen) rest
          else none
        | none, _ => none
    | _ => none

/-- The options on a command line; `none` is a usage error. -/
def Options.read? (words : List String) : Option Options := Options.readFrom {} [] words

/-- Number of solves, at least one. -/
def Options.solves (o : Options) : Nat := max o.reps 1

/-- The solver configuration of a run. Every solve starts cold. -/
def Options.config (o : Options) : SolverConfig Float where
  tol := o.tol
  maxIter := o.maxIter
  minStep := o.minStep
  mu0 := o.mu0
  sigmaMin := o.sigmaMin
  warmStart := false
  verbose := o.verbose

end StagedQP.Benchmark
