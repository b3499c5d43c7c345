import StagedQP.Solver.Workspace
import StagedQP.Dense.Product

/-!
# The Riccati recursion

A Newton system with slacks and multipliers eliminated is a linear-quadratic problem along the
chain,

```text
minimize    Σ_k ½ dv_kᵀ hess_k dv_k + grad_kᵀ dv_k
subject to  dx_{k+1} = dyn_k dv_k + r_k
```

with the condensed Hessians and gradients and the dynamics residuals `r`. Going backward, the
optimal value from stage `k` on is a quadratic function of `dx_k`, the *cost-to-go*, and the optimal
control is affine in it, `du = gain dx + feed`. Going forward, the states follow.

The matrix part (`factorize`) depends on the condensed Hessians alone and is done once for a step;
the vector part (`solve`) is done for each right-hand side.

A control block that is not positive definite enough is factored with a shift of its diagonal: the
four admissible shifts are tried in increasing order (`ControlFactor.of?`), relative to the scale of
the block. If none of them will do, the sweep stops at that stage.
-/

namespace StagedQP

variable {α : Type} [Scalar α]

/-! ## Control blocks -/

/-- A factor of a control block. -/
structure ControlFactor (α : Type) where
  /-- The diagonal shift that was added, if any. -/
  shift : Option α
  /-- The factor of the shifted block. -/
  factor : Cholesky α

namespace ControlFactor

/-- The shifts tried, relative to the scale of the block. -/
def shifts : List α :=
  [Scalar.decimal 1 12, Scalar.decimal 1 10, Scalar.decimal 1 8, Scalar.decimal 1 6]

/-- The least square of a diagonal entry, relative to the scale of the block. -/
def leastPivot : α := Scalar.decimal 1 14

/-- The largest absolute diagonal entry of a block, and at least one. -/
def scale (m : Mat α) : α := Scalar.maxUpTo 1 (fun i => Scalar.abs (m.get i i)) m.rows

/-- The factor of `m`, if it exists and all its diagonal entries are large enough. -/
def tryFactor (scale : α) (m : Mat α) : Option (Cholesky α) :=
  (Cholesky.factor m).filter fun c => c.pivotsExceed (leastPivot * scale)

/-- The matrix with `shift` added on the diagonal. -/
def shifted (m : Mat α) (shift : α) : Mat α :=
  Mat.ofFn m.rows m.cols fun i j => if i = j then m.get i j + shift else m.get i j

/-- The factor with the first of the given relative shifts that will do. -/
def firstShifted (scale : α) (m : Mat α) : List α → Option (ControlFactor α)
  | [] => none
  | eps :: rest =>
    match tryFactor scale (shifted m (eps * scale)) with
    | some c => some ⟨some (eps * scale), c⟩
    | none => firstShifted scale m rest

/-- The factor of a control block, without a shift if possible. -/
def of? (m : Mat α) : Option (ControlFactor α) :=
  match tryFactor (scale m) m with
  | some c => some ⟨none, c⟩
  | none => firstShifted (scale m) m shifts

end ControlFactor

/-! ## The matrix part -/

namespace StageState

/-- The cost-to-go of the last stage is its own cost. -/
def closeCost (s : StageState α) : StageState α :=
  { s with
    riccati.total := s.condensed.hess
    riccati.cost := s.condensed.hess.block s.nu s.nu s.nx s.nx }

/-- The stage cost with the cost-to-go `next` of the stage after pulled back through the
dynamics. -/
def pullCost (next : Mat α) (s : StageState α) : StageState α :=
  let pulled := s.data.dyn.trMul next
  { s with
    riccati.pulled := pulled
    riccati.total := Mat.addMul s.condensed.hess pulled s.data.dyn }

/-- The control block of the pulled-back cost. -/
def controlBlock (s : StageState α) : Mat α := s.riccati.total.block 0 0 s.nu s.nu

/-- The cross block of the pulled-back cost. -/
def crossBlock (s : StageState α) : Mat α := s.riccati.total.block 0 s.nu s.nu s.nx

/-- The feedback gain and the cost-to-go, once the control block is factored. A stage without
states has neither. -/
def closeLoop (s : StageState α) : StageState α :=
  if s.nx = 0 then s
  else
    let cross := s.crossBlock
    let gain := (match s.riccati.factor with
      | none => cross
      | some c => c.solve cross).neg
    let own := s.riccati.total.block s.nu s.nu s.nx s.nx
    { s with
      riccati.gain := gain
      riccati.cost := (Mat.addTrMul own cross gain).symmetrize }

end StageState

namespace Riccati

/-- A backward sweep over the stages from some stage on. -/
structure Sweep (α : Type) where
  /-- The stages, as far as the sweep got. -/
  stages : List (StageState α)
  /-- The shifts that were needed, last stage first. -/
  warnings : List (Warning α)
  /-- The stage whose control block could not be factored. -/
  failed : Option Nat

/-- Stage `k` with its control block factored; the cost is already pulled back. A stage without
controls has nothing to factor. -/
def factorStage (k : Nat) (s : StageState α) : Sweep α :=
  if s.nu = 0 then ⟨[s.closeLoop], [], none⟩
  else
    match ControlFactor.of? s.controlBlock with
    | none => ⟨[{ s with riccati.factor := none }], [], some k⟩
    | some c =>
      ⟨[{ s with riccati.factor := some c.factor }.closeLoop],
        c.shift.toList.map (Warning.regularized k), none⟩

/-- The backward sweep over the stages listed, the first of which has number `k`. It stops at the
first stage, from the end, that cannot be factored. -/
def factorizeFrom (k : Nat) : List (StageState α) → Sweep α
  | [] => ⟨[], [], none⟩
  | [last] => ⟨[last.closeCost], [], none⟩
  | s :: next :: rest =>
    let after := factorizeFrom (k + 1) (next :: rest)
    match after.failed, after.stages with
    | none, done :: _ =>
      let own := factorStage k (s.pullCost done.riccati.cost)
      ⟨own.stages ++ after.stages, after.warnings ++ own.warnings, own.failed⟩
    | _, _ => { after with stages := s :: after.stages }

/-- The matrix part of the recursion over a whole chain. -/
def factorize (stages : List (StageState α)) : Sweep α := factorizeFrom 0 stages

end Riccati

/-! ## The vector part -/

namespace StageState

/-- The gradient of the last stage's cost-to-go. -/
def closeGradient (s : StageState α) : StageState α :=
  { s with
    riccati.totalVec := s.condensed.grad
    riccati.costVec := s.condensed.grad.slice s.nu s.nx }

/-- The feedforward control and the gradient of the cost-to-go, from those of the stage after. -/
def pullGradient (next : RiccatiData α) (s : StageState α) : StageState α :=
  let force := Mat.addMulVec next.costVec next.cost s.residual.dyn
  let total := Mat.addTrMulVec s.condensed.grad s.data.dyn force
  let control := total.slice 0 s.nu
  let feed := (match s.riccati.factor with
    | none => control
    | some c => c.solveVec control).neg
  { s with
    scratch.nxNext := force
    riccati.totalVec := total
    riccati.feed := feed
    riccati.costVec := Mat.addTrMulVec (total.slice s.nu s.nx) s.crossBlock feed }

/-- The controls that the feedback law answers to the states `dx` with. -/
def feedback (s : StageState α) (dx : Vec α) : Vec α :=
  Mat.addMulVec s.riccati.feed s.riccati.gain dx

end StageState

namespace Riccati

/-- The backward sweep over the vectors. -/
def gradients : List (StageState α) → List (StageState α)
  | [] => []
  | [last] => [last.closeGradient]
  | s :: next :: rest =>
    match gradients (next :: rest) with
    | [] => []
    | done :: after => s.pullGradient done.riccati :: done :: after

/-- The forward sweep: each stage gets the direction of its vector from the direction `dx` of its
states, and with it the direction of the dynamics' multipliers. The controls come about in the
first `nu` entries of the room for a stage vector. -/
def rollout (dx : Vec α) : List (StageState α) → List (StageState α)
  | [] => []
  | [last] => [{ last with direction.dv := last.direction.dv.withTail last.nu dx }]
  | s :: next :: rest =>
    let du := s.feedback dx
    let dv := du.append dx
    let dxNext := Mat.addMulVec s.residual.dyn s.data.dyn dv
    let s' := { s with
      scratch.nv := du.append (s.scratch.nv.slice s.nu s.nx)
      direction.dv := dv
      direction.dpi := Mat.addMulVec next.riccati.costVec next.riccati.cost dxNext }
    s' :: rollout dxNext (next :: rest)

/-- The vector part of the recursion, for a chain on which `factorize` succeeded. The states of the
first stage keep their direction: there are none. -/
def solve (stages : List (StageState α)) : List (StageState α) :=
  match gradients stages with
  | [] => []
  | s :: rest => rollout (s.direction.dv.slice s.nu s.nx) (s :: rest)

end Riccati

end StagedQP
