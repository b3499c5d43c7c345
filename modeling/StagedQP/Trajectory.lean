import StagedQP.Stage

/-!
# Trajectories

The states and controls of a horizon. There is one vector of states for each stage (the first is
empty, since the initial state is not a variable) and one vector of controls for each step, so one
vector of controls less. `Trajectory.fits` recognises the trajectories of given stage sizes.
-/

namespace StagedQP

/-- States and controls along a horizon. -/
structure Trajectory (α : Type) where
  /-- The states of each stage. -/
  x : List (Vec α)
  /-- The controls of each step. -/
  u : List (Vec α)
  deriving BEq

namespace Trajectory

variable {α : Type}

/-- The trajectory of zeros for stages of these sizes. -/
def zeros [Zero α] (sizes : List StageSizes) : Trajectory α where
  x := sizes.map fun d => Vec.zeros d.nx
  u := (sizes.take (sizes.length - 1)).map fun d => Vec.zeros d.nu

/-- The trajectory has the vectors of stages of these sizes. -/
def fits (t : Trajectory α) (sizes : List StageSizes) : Bool :=
  t.x.map Vec.size == sizes.map StageSizes.nx &&
    t.u.map Vec.size == (sizes.take (sizes.length - 1)).map StageSizes.nu

/-- Number of steps. -/
def steps (t : Trajectory α) : Nat := t.u.length

end Trajectory

end StagedQP
