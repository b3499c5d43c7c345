import StagedQP.Solver.Riccati

/-!
# Newton directions

Linearising the optimality system at a point with positive slacks and eliminating the slacks and
inequality multipliers of each row leaves a linear-quadratic problem along the chain with

```text
Hessian   hess + jacᵀ W jac,      W = lam_lo / t_lo + lam_up / t_up
gradient  stat + jacᵀ γ,          γ = (comp_lo + lam_lo ineq_lo) / t_lo
                                    - (comp_up + lam_up ineq_up) / t_up
```

which the Riccati recursion solves. `StageState.expand` recovers the directions that were
eliminated. The Hessian does not depend on the right-hand side `comp` of the complementarity
equations, so several directions at one point share a factorization.
-/

namespace StagedQP

variable {α : Type} [Scalar α]

namespace StageState

/-- The barrier weights and the condensed Hessian. -/
def condenseHessian (s : StageState α) : StageState α :=
  let p := s.point
  let weight := (p.lam.lo.zipWith (· / ·) p.t.lo).add (p.lam.up.zipWith (· / ·) p.t.up)
  let weighted := Mat.scaleRows weight s.data.jac
  { s with
    condensed.weight := weight
    condensed.weighted := weighted
    condensed.hess := Mat.addTrMul s.data.hess s.data.jac weighted }

/-- The complementarity term `(comp + lam ineq) / t` of one side. -/
def sideTerm (comp lam ineq t : Vec α) : Vec α :=
  (comp.add (lam.zipWith (· * ·) ineq)).zipWith (· / ·) t

/-- The condensed gradient for the current right-hand side. -/
def condenseGradient (s : StageState α) : StageState α :=
  let p := s.point
  let r := s.residual
  let term := (sideTerm r.comp.lo p.lam.lo r.ineq.lo p.t.lo).sub
    (sideTerm r.comp.up p.lam.up r.ineq.up p.t.up)
  { s with
    condensed.term := term
    condensed.grad := Mat.addTrMulVec r.stat s.data.jac term }

/-- The multiplier direction `-(comp + lam dt) / t` of one side. -/
def sideMultiplier (comp lam dt t : Vec α) : Vec α :=
  (comp.add (lam.zipWith (· * ·) dt)).neg.zipWith (· / ·) t

/-- The directions of slacks and inequality multipliers that belong to the direction of the stage
vector. -/
def expand (s : StageState α) : StageState α :=
  let p := s.point
  let r := s.residual
  let c := s.data.jac.mulVec s.direction.dv
  let dt : Sides (Vec α) := ⟨c.add r.ineq.lo, c.neg.add r.ineq.up⟩
  { s with
    scratch.nc := c
    direction.dt := dt
    direction.dlam :=
      ⟨sideMultiplier r.comp.lo p.lam.lo dt.lo p.t.lo,
        sideMultiplier r.comp.up p.lam.up dt.up p.t.up⟩ }

end StageState

/-- The search direction for the current right-hand side, by the factorization already made. -/
def newtonDirection (stages : List (StageState α)) : List (StageState α) :=
  (Riccati.solve (stages.map StageState.condenseGradient)).map StageState.expand

end StagedQP
