import StagedQP.Dense.Import
import StagedQP.Solver.Outcome
import StagedQP.Decimal.Shortest

/-!
# Messages

The wording of errors and warnings. A number in an error message is the shortest decimal that reads
back to it; a number in a warning is rounded to a few digits.
-/

namespace StagedQP

/-- A shape, rows by columns. -/
def shapeText (rows cols : Nat) : String := toString rows ++ "x" ++ toString cols

/-- The wording of a storage order. -/
def StorageOrder.text : StorageOrder → String
  | rowMajor => "row-major"
  | colMajor => "column-major"

/-- The wording of a mismatch. -/
def Mismatch.message : Mismatch → String
  | shape name rows cols wantRows wantCols =>
    s!"{name} has shape " ++ shapeText rows cols ++ ", expected " ++ shapeText wantRows wantCols
  | length name size want => s!"{name} has length {size}, expected {want}"
  | buffer order size rows cols =>
    order.text ++ s!" buffer has {size} entries, expected " ++ shapeText rows cols ++ " = "
      ++ toString (rows * cols % wordModulus)
  | indexOutside position index entries =>
    s!"idxb[{position}] = {index} is outside the stage vector of length {entries}"
  | indexRepeated position index => s!"idxb[{position}] = {index} repeats an earlier index"
  | tooFewStages count => s!"a horizon needs at least 2 stages, got {count}"
  | initialState nx => s!"first stage must have no free state, got nx = {nx}"
  | dynamics rows next nx => s!"dynamics map into {rows} states but stage {next} has {nx}"
  | terminalControl nu => s!"terminal stage must have no control, got nu = {nu}"
  | terminalDynamics rows => s!"terminal stage must have no dynamics, got {rows} rows"
  | emptyHorizon => "horizon length must be at least 1"
  | stateBounds nbx nx => s!"{nbx} state bounds requested but only {nx} states exist"
  | workspace =>
    "workspace was allocated for different dimensions or a smaller iteration cap"
  | trajectory => "trajectory buffers do not match the horizon"

/-- The wording of an unusable plant. -/
def SystemFault.message : SystemFault Float → String
  | notSquare rows cols => "Ac must be square and non-empty, got " ++ shapeText rows cols
  | inputRows rows want => s!"Bc has {rows} rows, expected {want}"
  | offsetLength size want => s!"offset has length {size}, expected {want}"
  | chainStates nx => s!"mass-spring state dimension must be even and positive, got {nx}"
  | chainInputs masses nu =>
    s!"mass-spring input dimension must be in 1..={masses}, got {nu}"
  | period ts => "sampling period must be positive and finite, got " ++ Decimal.shortest ts

/-- The wording of a failed sampling. -/
def Singularity.message : Singularity → String
  | zeroPivot => "Ac has a zero pivot"
  | notFinite => "discretization produced non-finite entries"

/-- The wording of a parameter out of range. -/
def ConfigFault.message : ConfigFault Float → String
  | tolerance value => "tol must be positive, got " ++ Decimal.shortest value
  | noIterations => "max_iter must be at least 1"
  | leastStep value => "min_step must lie in (0, 1), got " ++ Decimal.shortest value
  | barrier value => "mu0 must be finite, got " ++ Decimal.shortest value
  | centering value => "sigma_min must lie in [0, 1), got " ++ Decimal.shortest value

/-- The wording of an error. -/
def SetupError.message : SetupError Float → String
  | singular cause => "Singular system: " ++ cause.message
  | mismatch stage cause => s!"Dimension mismatch at stage {stage}: " ++ cause.message
  | bounds stage row lower upper =>
    s!"Infeasible bounds at stage {stage}, row {row}: [" ++ Decimal.shortest lower ++ ", "
      ++ Decimal.shortest upper ++ "]"
  | system cause => "Invalid system: " ++ cause.message
  | config cause => "Invalid solver configuration: " ++ cause.message

/-- A number of a log line, rounded to `places` digits after the first. -/
def logNumber (places : Nat) (x : Float) : String := Decimal.scientific .inMessages places x

/-- The wording of a control block that could not be factored. -/
def breakdownMessage (stage : Nat) : String :=
  s!"control block at stage {stage} is not positive definite"

/-- The wording of a warning. -/
def Warning.message : Warning Float → String
  | regularized stage shift =>
    s!"Riccati: regularized control block at stage {stage} with shift " ++ logNumber 1 shift
  | shortStep alpha minStep iters =>
    "IPM: step length " ++ logNumber 3 alpha ++ " below minimum " ++ logNumber 1 minStep
      ++ s!" at iteration {iters}"
  | breakdown stage iters => "IPM: " ++ breakdownMessage stage ++ s!" at iteration {iters}"
  | notFinite iters => s!"IPM: non-finite iterate after {iters} iterations"

end StagedQP
