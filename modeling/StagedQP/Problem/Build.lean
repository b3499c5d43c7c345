import StagedQP.Problem.Basic
import StagedQP.Horizon
import StagedQP.Dense.Product

/-!
# From a control problem to a horizon

`ControlProblem.build?` lays the data of a control problem out as a chain of stages. The known
initial state is folded into the first stage, which keeps its controls and loses its states:

```text
b + A x0      r + S x0      lg - C x0      ug - C x0
```

The interior stages share one template, with the bounded controls followed by the bounded states.
The last stage keeps the states and loses the controls.

`ControlProblem.check` compares every array with the sizes of the plant and reports at the stage
where the data ends up: interior data at stage `1`, or at stage `0` when there is no interior stage,
terminal data at the last.
-/

namespace StagedQP.ControlProblem

variable {α : Type}

/-- The stage at which errors in interior data are reported. -/
def interiorLabel (p : ControlProblem α) : Nat := if 1 < p.steps then 1 else 0

/-- The shapes of the step cost. -/
def checkCost (p : ControlProblem α) : Except (SetupError α) Unit := do
  let k := p.interiorLabel
  p.cost.Q.checkShape k "Q" p.plant.nx p.plant.nx
  p.cost.S.checkShape k "S" p.plant.nu p.plant.nx
  p.cost.R.checkShape k "R" p.plant.nu p.plant.nu
  p.cost.q.checkLength k "q" p.plant.nx
  p.cost.r.checkLength k "r" p.plant.nu

/-- The shapes of the terminal cost, if there is one. -/
def checkTerminalCost (p : ControlProblem α) : Except (SetupError α) Unit :=
  match p.terminalCost with
  | none => .ok ()
  | some t => do
    t.Q.checkShape p.steps "Q_N" p.plant.nx p.plant.nx
    t.q.checkLength p.steps "q_N" p.plant.nx

/-- The sizes of the box bounds. -/
def checkBox (p : ControlProblem α) : Except (SetupError α) Unit := do
  let k := p.interiorLabel
  let (nbu, nbx) := BoxRows.split p.bounds.nb p.plant.nu
  if p.plant.nx < nbx then
    throw (.mismatch k (.stateBounds nbx p.plant.nx))
  p.bounds.lbu.checkLength k "lbu" nbu
  p.bounds.ubu.checkLength k "ubu" nbu
  p.bounds.lbx.checkLength k "lbx" nbx
  p.bounds.ubx.checkLength k "ubx" nbx

/-- The shapes of the general rows. -/
def checkGeneral (p : ControlProblem α) : Except (SetupError α) Unit := do
  let k := p.interiorLabel
  let ng := p.general.count
  p.general.C.checkShape k "C" ng p.plant.nx
  p.general.D.checkShape k "D" ng p.plant.nu
  p.general.lg.checkLength k "lg" ng
  p.general.ug.checkLength k "ug" ng

/-- The shapes of the terminal rows. -/
def checkTerminal (p : ControlProblem α) : Except (SetupError α) Unit := do
  let ng := p.terminal.count
  p.terminal.C.checkShape p.steps "C_N" ng p.plant.nx
  p.terminal.lg.checkLength p.steps "lg_N" ng
  p.terminal.ug.checkLength p.steps "ug_N" ng

/-- All arrays agree with the sizes of the plant. -/
def check (p : ControlProblem α) : Except (SetupError α) Unit := do
  p.plant.check
  if p.steps = 0 then
    throw (.mismatch 0 .emptyHorizon)
  p.x0.checkLength 0 "x0" p.plant.nx
  p.checkCost
  p.checkTerminalCost
  p.checkBox
  p.checkGeneral
  p.checkTerminal

variable [Scalar α]

/-- Number of bounded controls. -/
def boundedControls (p : ControlProblem α) : Nat := (BoxRows.split p.bounds.nb p.plant.nu).1

/-- Number of bounded states. -/
def boundedStates (p : ControlProblem α) : Nat := (BoxRows.split p.bounds.nb p.plant.nu).2

/-- The first stage, with the initial state folded in. -/
def firstStage (p : ControlProblem α) : Stage α :=
  let cx := p.general.C.mulVec p.x0
  { Stage.zeros 0 p.plant.nu p.plant.nx with
    B := p.plant.B
    b := p.plant.b.add (p.plant.A.mulVec p.x0)
    R := p.cost.R
    r := p.cost.r.add (p.cost.S.mulVec p.x0)
    idxb := List.range p.boundedControls
    lb := p.bounds.lbu
    ub := p.bounds.ubu
    C := Mat.zeros p.general.count 0
    D := p.general.D
    lg := p.general.lg.sub cx
    ug := p.general.ug.sub cx }

/-- The stage of every step but the first. -/
def interiorStage (p : ControlProblem α) : Stage α where
  A := p.plant.A
  B := p.plant.B
  b := p.plant.b
  Q := p.cost.Q
  S := p.cost.S
  R := p.cost.R
  q := p.cost.q
  r := p.cost.r
  idxb := List.range p.boundedControls ++
    (List.range p.boundedStates).map fun i => p.plant.nu + i
  lb := p.bounds.lbu.append p.bounds.lbx
  ub := p.bounds.ubu.append p.bounds.ubx
  C := p.general.C
  D := p.general.D
  lg := p.general.lg
  ug := p.general.ug

/-- The cost of the last state. -/
def lastCost (p : ControlProblem α) : TerminalCost α :=
  p.terminalCost.getD ⟨p.cost.Q, p.cost.q⟩

/-- The stage of the last state. -/
def lastStage (p : ControlProblem α) : Stage α :=
  { Stage.zeros p.plant.nx 0 0 with
    Q := p.lastCost.Q
    q := p.lastCost.q
    idxb := List.range p.boundedStates
    lb := p.bounds.lbx
    ub := p.bounds.ubx
    C := p.terminal.C
    D := Mat.zeros p.terminal.count 0
    lg := p.terminal.lg
    ug := p.terminal.ug }

/-- The chain of stages; the interior stages share their data. -/
def templates (p : ControlProblem α) : List (Template α) :=
  ⟨0, p.firstStage⟩ :: (List.replicate (p.steps - 1) ⟨1, p.interiorStage⟩ ++ [⟨2, p.lastStage⟩])

/-- The horizon of the problem. Memory is idealized: the list of stages is as long as the horizon,
however long that is, and no array of a stage is too large. -/
def build? (p : ControlProblem α) : Except (SetupError α) (Horizon α) := do
  p.check
  Horizon.of? p.templates

/-- The line that records the sizes of a horizon that was built. -/
def sizeNote (p : ControlProblem α) : String :=
  "built OCP horizon: N=" ++ toString p.steps ++ ", nx=" ++ toString p.plant.nx ++
    ", nu=" ++ toString p.plant.nu ++ ", nbu=" ++ toString p.boundedControls ++
    ", nbx=" ++ toString p.boundedStates ++ ", ng=" ++ toString p.general.count ++
    ", ngN=" ++ toString p.terminal.count

end StagedQP.ControlProblem
