import StagedQP.Stage

/-!
# Horizons

A horizon of `N` steps is a chain of `N + 1` stages. Its first stage has no states, since the
initial state is known; its last stage has neither controls nor dynamics; in between, the dynamics
of each stage lead to the states of the stage after it. `Horizon.check` accepts exactly such chains
of consistent stages, each stage being examined on its own before the chain is. A value of type
`Horizon` carries the fact that its stages were accepted.

Stages of one time-invariant model share their data. A horizon therefore lists *templates*: a label
with the data under it, equal labels meaning one shared datum.
-/

namespace StagedQP

/-- Stage data under a label; equal labels within a horizon stand for shared data. -/
structure Template (α : Type) where
  /-- Identity of the data. -/
  label : Nat
  /-- The data. -/
  stage : Stage α

namespace Horizon

variable {α : Type}

/-- Each of the stages, the first of which has number `k`, is consistent in itself. -/
def checkStages [Scalar α] (k : Nat) : List (Stage α) → Except (SetupError α) Unit
  | [] => .ok ()
  | s :: rest => do
    s.check k
    checkStages (k + 1) rest

/-- The first stage has no states. -/
def checkFirst : List (Stage α) → Except (SetupError α) Unit
  | [] => .ok ()
  | s :: _ => if s.sizes.nx = 0 then .ok () else .error (.mismatch 0 (.initialState s.sizes.nx))

/-- The dynamics of each stage lead to the states of the next; the first stage has number `k`. -/
def checkLinks (k : Nat) : List (Stage α) → Except (SetupError α) Unit
  | s :: next :: rest =>
    if s.nxNext = next.sizes.nx then checkLinks (k + 1) (next :: rest)
    else .error (.mismatch k (.dynamics s.nxNext (k + 1) next.sizes.nx))
  | _ => .ok ()

/-- The last stage, of number `k`, has neither controls nor dynamics. -/
def checkLast (k : Nat) (s : Stage α) : Except (SetupError α) Unit :=
  if s.sizes.nu ≠ 0 then .error (.mismatch k (.terminalControl s.sizes.nu))
  else if s.nxNext ≠ 0 then .error (.mismatch k (.terminalDynamics s.nxNext))
  else .ok ()

/-- The stages are consistent and form a chain. -/
def check [Scalar α] (stages : List (Stage α)) : Except (SetupError α) Unit := do
  if stages.length < 2 then
    throw (.mismatch 0 (.tooFewStages stages.length))
  checkStages 0 stages
  checkFirst stages
  checkLinks 0 stages
  match stages.getLast? with
  | none => pure ()
  | some last => checkLast (stages.length - 1) last

end Horizon

/-- A chain of stages that passed `Horizon.check`. -/
structure Horizon (α : Type) [Scalar α] where
  /-- The stages with their labels, first to last. -/
  templates : List (Template α)
  /-- The chain was accepted. -/
  accepted : Horizon.check (templates.map (·.stage)) = .ok ()

namespace Horizon

variable {α : Type} [Scalar α]

/-- The horizon of these stages, if they are consistent and form a chain. -/
def of? (templates : List (Template α)) : Except (SetupError α) (Horizon α) :=
  match h : check (templates.map (·.stage)) with
  | .ok () => .ok ⟨templates, h⟩
  | .error e => .error e

/-- The stages, first to last. -/
def stages (h : Horizon α) : List (Stage α) := h.templates.map (·.stage)

/-- Number of steps. -/
def steps (h : Horizon α) : Nat := h.templates.length - 1

/-- The sizes of the stages. -/
def sizes (h : Horizon α) : List StageSizes := h.stages.map (·.sizes)

/-- The first stage that shares its data with stage `k`. -/
def firstShared (h : Horizon α) (k : Nat) : Nat :=
  match h.templates[k]? with
  | none => k
  | some t => h.templates.findIdx fun s => s.label == t.label

end Horizon

end StagedQP
