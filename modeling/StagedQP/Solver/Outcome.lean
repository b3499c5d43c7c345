/-!
# Outcomes of a solve

A solve ends in one of three ways, each with a code and a text. Statistics are kept for every
accepted step. What a solve has to say besides is a list of warnings.
-/

namespace StagedQP

/-- How a solve ended. -/
inductive Outcome where
  /-- The duality measure and the residuals are within tolerance. -/
  | success
  /-- The iteration cap was reached first. -/
  | maxIterReached
  /-- A step was too short, or no step could be computed. -/
  | belowMinStep
  deriving DecidableEq

namespace Outcome

/-- The code of an outcome. -/
def code : Outcome → Nat
  | success => 0
  | maxIterReached => 1
  | belowMinStep => 2

/-- The outcome with a given code. -/
def ofCode? : Int → Option Outcome
  | 0 => some success
  | 1 => some maxIterReached
  | 2 => some belowMinStep
  | _ => none

/-- A solution was found. -/
def isSuccess : Outcome → Bool
  | success => true
  | _ => false

/-- The text of an outcome. -/
def text : Outcome → String
  | success => "solution found"
  | maxIterReached => "maximum number of iterations reached"
  | belowMinStep => "below minimum step size length"

theorem ofCode?_code (s : Outcome) : ofCode? s.code = some s := by
  cases s <;> rfl

end Outcome

/-- The record of one accepted step. -/
structure StepStats (α : Type) where
  /-- Centering. -/
  sigma : α
  /-- Step length of the predictor. -/
  alphaAff : α
  /-- Duality measure the predictor step would have led to. -/
  muAff : α
  /-- Step length. -/
  alpha : α
  /-- Duality measure after the step. -/
  mu : α

/-- What a solve warns about. -/
inductive Warning (α : Type) where
  /-- The control block of a stage was factored with a shift of its diagonal. -/
  | regularized (stage : Nat) (shift : α)
  /-- A step was shorter than the least step length. -/
  | shortStep (alpha minStep : α) (iters : Nat)
  /-- The control block of a stage could not be factored at all. -/
  | breakdown (stage iters : Nat)
  /-- The duality measure or a residual is infinite or undefined. -/
  | notFinite (iters : Nat)

end StagedQP
