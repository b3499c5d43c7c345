import StagedQP.Solver.Workspace
import StagedQP.Dense.Product

/-!
# The optimality system

The interior-point view of a horizon: each inequality row has the two sides

```text
c(v) - lo - t_lo = 0     up - c(v) - t_up = 0     t ≥ 0, lam ≥ 0
```

where `c(v) = jac v`. `Workspace.start` puts slacks and multipliers around the stage vectors,
`Workspace.duality` measures how far the products of slacks and multipliers are from zero, and
`Workspace.residuals` evaluates the remaining equations:

```text
stat = hess v + grad + dynᵀ pi - [0; pi of the stage before] - jacᵀ (lam_lo - lam_up)
dyn  = dyn v + off - states of the stage after
ineq = (jac v - lo - t_lo,  up - jac v - t_up)
```

The equations of a stage touch its neighbours only through the multipliers before it and the states
after it, so `residuals` evaluates each stage on its own and then couples them.
-/

namespace StagedQP

variable {α : Type} [Scalar α]

/-- The largest absolute entry of the cost data, and at least two: the barrier parameter to start
from when the configuration names none. -/
def Horizon.defaultBarrier (h : Horizon α) : α :=
  h.stages.foldl (fun acc s =>
    Scalar.max (Scalar.max (Scalar.max (Scalar.max (Scalar.max acc
      s.Q.maxAbs) s.S.maxAbs) s.R.maxAbs) s.q.infNorm) s.r.infNorm) (Scalar.ofNat 2)

namespace StageState

/-- The least slack at the start. -/
def leastSlack : α := Scalar.decimal 1 1

/-- Slacks as large as the distance to the bounds, but not below the least slack; multipliers that
make every product `mu0`; no multipliers on the dynamics. -/
def start (mu0 : α) (s : StageState α) : StageState α :=
  let c := s.data.jac.mulVec s.point.v
  let room : Sides (Vec α) := ⟨c.sub s.data.bound.lo, s.data.bound.up.sub c⟩
  let t := room.map fun r => r.map fun a => Scalar.max a leastSlack
  { s with
    scratch.nc := c
    point.t := t
    point.lam := t.map fun v => v.map fun a => mu0 / a
    point.pi := Vec.zeros s.point.pi.size }

/-- The sum of all products of a slack and its multiplier. -/
def products (s : StageState α) : α :=
  s.point.lam.lo.dot s.point.t.lo + s.point.lam.up.dot s.point.t.up

/-- The residuals of a stage on its own. -/
def ownResiduals (s : StageState α) : StageState α :=
  let d := s.data
  let p := s.point
  let force := p.lam.lo.sub p.lam.up
  let stat := Mat.addTrMulVec (Mat.addMulVec d.grad d.hess p.v) d.dyn p.pi
  let c := d.jac.mulVec p.v
  { s with
    scratch.nc := c
    residual.stat := Mat.subTrMulVec stat d.jac force
    residual.dyn := Mat.addMulVec d.off d.dyn p.v
    residual.ineq := ⟨(c.sub d.bound.lo).sub p.t.lo, (d.bound.up.sub c).sub p.t.up⟩ }

/-- The multipliers of the stage before taken off the states' part of the stationarity residual. -/
def coupleBefore (pi : Vec α) (s : StageState α) : StageState α :=
  { s with
    residual.stat := Vec.ofFn s.residual.stat.size fun i =>
      if i < s.nu then s.residual.stat.get i
      else s.residual.stat.get i - pi.get (i - s.nu) }

/-- The states of the stage after taken off the dynamics residual. -/
def coupleAfter (states : Vec α) (s : StageState α) : StageState α :=
  { s with residual.dyn := s.residual.dyn.sub states }

end StageState

namespace Workspace

/-- Own residuals coupled along the chain; `before` is the stage before the first one listed. -/
def couple (before : Option (StageState α)) : List (StageState α) → List (StageState α)
  | [] => []
  | s :: rest =>
    let s₁ := match before with
      | none => s
      | some b => s.coupleBefore b.point.pi
    let s₂ := match rest with
      | [] => s₁
      | next :: _ => s₁.coupleAfter next.states
    s₂ :: couple (some s) rest

/-- The residuals of the current point. -/
def residuals (w : Workspace α) : Workspace α :=
  { w with stages := couple none (w.stages.map StageState.ownResiduals) }

/-- Slacks and multipliers put around the stage vectors. -/
def start (w : Workspace α) (mu0 : α) : Workspace α :=
  { w with stages := w.stages.map (StageState.start mu0) }

/-- The mean product of a slack and its multiplier; `0` without inequality rows. -/
def duality (w : Workspace α) : α :=
  if w.pairs = 0 then 0
  else w.stages.foldl (fun acc s => acc + s.products) 0 / Scalar.ofNat w.pairs

end Workspace

/-- The largest absolute residuals. -/
structure ResidualNorms (α : Type) where
  /-- Of stationarity. -/
  stat : α
  /-- Of the dynamics. -/
  dyn : α
  /-- Of the inequality rows. -/
  ineq : α

/-- The norms of the residuals last evaluated; undefined entries are passed over. -/
def Workspace.residualNorms (w : Workspace α) : ResidualNorms α :=
  w.stages.foldl (fun acc s =>
    { stat := Scalar.max acc.stat s.residual.stat.infNorm
      dyn := Scalar.max acc.dyn s.residual.dyn.infNorm
      ineq := Scalar.max (Scalar.max acc.ineq s.residual.ineq.lo.infNorm)
        s.residual.ineq.up.infNorm }) ⟨0, 0, 0⟩

end StagedQP
