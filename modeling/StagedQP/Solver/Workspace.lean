import StagedQP.Horizon
import StagedQP.Trajectory
import StagedQP.Solver.StageState
import StagedQP.Solver.Config
import StagedQP.Solver.Outcome
import StagedQP.Word

/-!
# Workspaces

A workspace holds everything a solve computes with: the state of every stage and the records of the
steps. It is made once for given stage sizes, filled with zeros, and serves any horizon of those
sizes with at most the iteration cap it was made for.

Trajectories go in and out through the stage vectors: `Workspace.readTrajectory` packs controls and
states, `Workspace.toTrajectory` unpacks them. The last stage has no controls in a trajectory.

The size of a workspace is a function of the stage sizes and the cap alone
(`Workspace.byteSize`), and it is a 64-bit word. Room for the records of all iterations is made at
once, so a cap can be too large for the array that holds them.
-/

namespace StagedQP

variable {α : Type}

/-- For each stage, the number of states of the stage after it; `0` for the last. -/
def nextStates (sizes : List StageSizes) : List Nat := (sizes.drop 1).map StageSizes.nx ++ [0]

/-- The number of values kept for each stage. -/
def valueCounts (sizes : List StageSizes) : List Nat :=
  (sizes.zip (nextStates sizes)).map fun p => StageState.valueCount p.1 p.2

/-- Number of values kept for each iteration. -/
def statsPerIteration : Nat := 5

/-- Bytes of one value. -/
def bytesPerValue : Nat := 8

/-- Bytes of the record of one iteration. -/
def bytesPerRecord : Nat := statsPerIteration * bytesPerValue

/-- The size in bytes, as a 64-bit word, of a workspace for these stage sizes and iteration cap. -/
def Workspace.byteSize (sizes : List StageSizes) (maxIter : Nat) : Nat :=
  ((valueCounts sizes).foldr (· + ·) 0 + statsPerIteration * maxIter) * bytesPerValue
    % wordModulus

/-- The state of a solve. -/
structure Workspace (α : Type) where
  /-- The stages, first to last. -/
  stages : List (StageState α)
  /-- The records of the accepted steps of the last solve. -/
  stats : List (StepStats α)
  /-- The stage sizes the workspace was made for. -/
  sizes : List StageSizes
  /-- The iteration cap the workspace was made for. -/
  maxIter : Nat

namespace Workspace

/-- A workspace for stages of these sizes and this cap, filled with zeros. -/
def zeros [Scalar α] (sizes : List StageSizes) (maxIter : Nat) : Workspace α where
  stages := (sizes.zip (nextStates sizes)).map fun p => StageState.zeros p.1 p.2
  stats := []
  sizes := sizes
  maxIter := maxIter

/-- A workspace for stages of these sizes and the cap of a configuration. Memory never runs out
here, but no array takes more than `arrayLimit` bytes. The room for the records is made for the
whole cap, and a valid cap can ask for more than that; the stages are made whatever their sizes,
since none of their buffers gets that large as long as the size in bytes is a machine word. -/
def of? [Scalar α] (sizes : List StageSizes) (config : SolverConfig α) :
    Except (SetupFault α) (Workspace α) := do
  config.check.mapError .refused
  if sizes.length < 2 then
    throw (.refused (.mismatch 0 (.tooFewStages sizes.length)))
  if arrayLimit < bytesPerRecord * config.maxIter then
    throw .capacity
  return zeros sizes config.maxIter

/-- The size in bytes. -/
def bytes (w : Workspace α) : Nat := Workspace.byteSize w.sizes w.maxIter

/-- The workspace can serve a solve of these sizes and cap. -/
def fits (w : Workspace α) (sizes : List StageSizes) (maxIter : Nat) : Bool :=
  w.sizes == sizes && decide (maxIter ≤ w.maxIter)

/-- Number of pairs of a slack and a multiplier. -/
def pairs (w : Workspace α) : Nat := (w.stages.map fun s => 2 * s.nc).foldr (· + ·) 0

section

variable [Scalar α]

/-- Stage data replaced by that of a chain of stages. -/
def loadStages : List (StageState α) → List (Stage α) → List (StageState α)
  | s :: ss, d :: ds => { s with data := PackedStage.ofStage d } :: loadStages ss ds
  | ss, _ => ss

/-- The stage vectors replaced by the controls and states of a trajectory. -/
def readStages : List (StageState α) → List (Vec α) → List (Vec α) → List (StageState α)
  | s :: ss, us, x :: xs =>
    { s with point.v := (us.headD s.controls).append x } :: readStages ss us.tail xs
  | ss, _, _ => ss

/-- The data of a horizon taken in. -/
def load (w : Workspace α) (h : Horizon α) : Workspace α :=
  { w with stages := loadStages w.stages h.stages }

/-- The stage vectors taken from a trajectory. -/
def readTrajectory (w : Workspace α) (t : Trajectory α) : Workspace α :=
  { w with stages := readStages w.stages t.u t.x }

/-- The stage vectors set to zero. -/
def clearPoint (w : Workspace α) : Workspace α :=
  { w with stages := w.stages.map fun s => { s with point.v := Vec.zeros s.point.v.size } }

/-- The stage vectors as a trajectory. -/
def toTrajectory (w : Workspace α) : Trajectory α where
  x := w.stages.map StageState.states
  u := w.stages.dropLast.map StageState.controls

end

end Workspace

end StagedQP
