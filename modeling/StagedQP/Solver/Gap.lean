import StagedQP.Solver.Residual

/-!
# The gap to optimality

A point is judged by the duality measure and the three residual norms, its *gap*. At the head of
every iteration a solve stops with success if all four are within tolerance, gives up if one of them
is not finite, and stops at the iteration cap, in this order (`Gap.verdict`). Undefined residual
entries do not show in the norms, so a finite gap does not make every residual entry finite.
-/

namespace StagedQP

variable {α : Type} [Scalar α]

/-- How far a point is from optimality. -/
structure Gap (α : Type) where
  /-- Duality measure. -/
  mu : α
  /-- Residual norms. -/
  norms : ResidualNorms α

namespace Gap

/-- All four measures are finite. -/
def isFinite (p : Gap α) : Bool :=
  Scalar.isFinite p.mu && Scalar.isFinite p.norms.stat && Scalar.isFinite p.norms.dyn
    && Scalar.isFinite p.norms.ineq

/-- All four measures are at most `tol`. -/
def within (p : Gap α) (tol : α) : Bool :=
  Scalar.le p.mu tol && Scalar.le p.norms.stat tol && Scalar.le p.norms.dyn tol
    && Scalar.le p.norms.ineq tol

/-- The outcome with which a solve stops after `iters` steps, if it does, with its warnings. -/
def verdict (p : Gap α) (config : SolverConfig α) (iters : Nat) :
    Option (Outcome × List (Warning α)) :=
  if p.within config.tol then some (.success, [])
  else if !p.isFinite then some (.belowMinStep, [.notFinite iters])
  else if config.maxIter ≤ iters then some (.maxIterReached, [])
  else none

end Gap

/-- The gap of a workspace whose residuals have been evaluated. -/
def Workspace.gap (w : Workspace α) (mu : α) : Gap α := ⟨mu, w.residualNorms⟩

end StagedQP
