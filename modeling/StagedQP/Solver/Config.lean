import StagedQP.Scalar
import StagedQP.Error

/-!
# Solver configurations

The parameters of a solve. A configuration is a plain record; `SolverConfig.check` says whether its
values are in range, and every entry point of the solver asks it again.
-/

namespace StagedQP

/-- The parameters of a solve. -/
structure SolverConfig (α : Type) where
  /-- The duality measure and all residuals of a solution are at most this. -/
  tol : α
  /-- Largest number of iterations. -/
  maxIter : Nat
  /-- A step shorter than this ends the solve. -/
  minStep : α
  /-- Initial barrier parameter; taken from the cost data unless positive. -/
  mu0 : α
  /-- Least centering of a step. -/
  sigmaMin : α
  /-- Start from the given trajectory rather than from zero. -/
  warmStart : Bool
  /-- Write a log line for every iteration. -/
  verbose : Bool

namespace SolverConfig

variable {α : Type} [Scalar α]

open Scalar (lt le)

/-- The customary parameters. -/
def standard : SolverConfig α where
  tol := Scalar.decimal 1 8
  maxIter := 50
  minStep := Scalar.decimal 1 8
  mu0 := 0
  sigmaMin := Scalar.decimal 1 3
  warmStart := false
  verbose := false

/-- The tolerance is positive and finite. -/
def tolOk (c : SolverConfig α) : Bool := lt 0 c.tol && Scalar.isFinite c.tol

/-- The least step length is strictly between zero and one. -/
def minStepOk (c : SolverConfig α) : Bool := lt 0 c.minStep && lt c.minStep 1

/-- The least centering is at least zero and less than one. -/
def sigmaMinOk (c : SolverConfig α) : Bool := le 0 c.sigmaMin && lt c.sigmaMin 1

/-- All parameters are in range; the first that is not is reported. -/
def check (c : SolverConfig α) : Except (SetupError α) Unit :=
  if !c.tolOk then .error (.config (.tolerance c.tol))
  else if c.maxIter = 0 then .error (.config .noIterations)
  else if !c.minStepOk then .error (.config (.leastStep c.minStep))
  else if !Scalar.isFinite c.mu0 then .error (.config (.barrier c.mu0))
  else if !c.sigmaMinOk then .error (.config (.centering c.sigmaMin))
  else .ok ()

theorem check_eq_ok_iff (c : SolverConfig α) : c.check = .ok () ↔ c.tolOk = true ∧
    c.maxIter ≠ 0 ∧ c.minStepOk = true ∧ Scalar.isFinite c.mu0 = true ∧ c.sigmaMinOk = true := by
  unfold check
  by_cases htol : c.tolOk = true
  · by_cases hcap : c.maxIter = 0
    · simp [htol, hcap]
    · by_cases hstep : c.minStepOk = true
      · by_cases hmu : Scalar.isFinite c.mu0 = true
        · simp [htol, hcap, hstep, hmu]
        · simp [htol, hcap, hstep, hmu]
      · simp [htol, hcap, hstep]
  · simp [htol]

/-- The customary parameters with another tolerance, cap and least step, if they are in range. -/
def of? (tol : α) (maxIter : Nat) (minStep : α) : Except (SetupError α) (SolverConfig α) := do
  let c := { standard with tol := tol, maxIter := maxIter, minStep := minStep }
  c.check
  return c

end SolverConfig

end StagedQP
