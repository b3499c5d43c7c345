import StagedQP.Solver.Packed
import StagedQP.Dense.Cholesky

/-!
# The state of a stage during a solve

For each stage a solve keeps the packed data, the current point, its residuals, the condensed Newton
system with its Riccati recursion, the search direction with the slack and multiplier parts of the
predictor, and room for intermediate results. Every inequality row has a lower and an upper side,
each with a slack `t` and a multiplier `lam`.

The sizes of all parts follow from the sizes of the stage and the number of states of the stage
after it; `StageState.valueCount` adds them up.
-/

namespace StagedQP

/-- The point a solve has reached, at one stage. -/
structure StagePoint (α : Type) where
  /-- Stage vector. -/
  v : Vec α
  /-- Multipliers of the dynamics that leave the stage. -/
  pi : Vec α
  /-- Slacks. -/
  t : Sides (Vec α)
  /-- Multipliers of the inequality rows. -/
  lam : Sides (Vec α)

/-- What a stage lacks to optimality. -/
structure StageResidual (α : Type) where
  /-- Gradient of the Lagrangian. -/
  stat : Vec α
  /-- Violation of the dynamics. -/
  dyn : Vec α
  /-- Violation of the inequality rows, slacks included. -/
  ineq : Sides (Vec α)
  /-- Right-hand side of the complementarity equations. -/
  comp : Sides (Vec α)

/-- The Newton system of a stage with slacks and multipliers eliminated. -/
structure Condensed (α : Type) where
  /-- Barrier weight of each row. -/
  weight : Vec α
  /-- Complementarity term of each row. -/
  term : Vec α
  /-- The rows times their weights. -/
  weighted : Mat α
  /-- Hessian with the barrier terms. -/
  hess : Mat α
  /-- Gradient with the complementarity terms. -/
  grad : Vec α

/-- The Riccati recursion at one stage. -/
structure RiccatiData (α : Type) where
  /-- Hessian of the stage cost plus the cost-to-go of the next stage. -/
  total : Mat α
  /-- Gradient of the same. -/
  totalVec : Vec α
  /-- The dynamics' transpose times the next cost-to-go. -/
  pulled : Mat α
  /-- Hessian of the cost-to-go. -/
  cost : Mat α
  /-- Gradient of the cost-to-go. -/
  costVec : Vec α
  /-- Feedback gain. -/
  gain : Mat α
  /-- Feedforward control. -/
  feed : Vec α
  /-- Factor of the control block of `total`. -/
  factor : Option (Cholesky α)

/-- A search direction at one stage. -/
structure StageDirection (α : Type) where
  /-- Direction of the stage vector. -/
  dv : Vec α
  /-- Direction of the dynamics' multipliers. -/
  dpi : Vec α
  /-- Direction of the slacks. -/
  dt : Sides (Vec α)
  /-- Direction of the inequality multipliers. -/
  dlam : Sides (Vec α)

/-- Room for intermediate results of the three lengths that occur at a stage. -/
structure Scratch (α : Type) where
  /-- As long as the stage vector. -/
  nv : Vec α
  /-- As long as the inequality rows. -/
  nc : Vec α
  /-- As long as the next stage's states. -/
  nxNext : Vec α

/-- Everything a solve keeps for one stage. -/
structure StageState (α : Type) where
  /-- Number of states. -/
  nx : Nat
  /-- Number of controls. -/
  nu : Nat
  /-- The packed data. -/
  data : PackedStage α
  /-- The current point. -/
  point : StagePoint α
  /-- Its residuals. -/
  residual : StageResidual α
  /-- The condensed Newton system. -/
  condensed : Condensed α
  /-- The Riccati recursion. -/
  riccati : RiccatiData α
  /-- The search direction. -/
  direction : StageDirection α
  /-- The slack part of the predictor direction. -/
  affineT : Sides (Vec α)
  /-- The multiplier part of the predictor direction. -/
  affineLam : Sides (Vec α)
  /-- Intermediate results. -/
  scratch : Scratch α

variable {α : Type}

namespace StageState

/-- Room for a stage of these sizes whose successor has `nxNext` states, filled with zeros. The
control factor starts as that of the identity. -/
def zeros [Scalar α] (d : StageSizes) (nxNext : Nat) : StageState α :=
  let nv := d.nv
  let perNv : Vec α := Vec.zeros nv
  let perNc : Vec α := Vec.zeros d.nc
  let perNext : Vec α := Vec.zeros nxNext
  let sides : Sides (Vec α) := ⟨perNc, perNc⟩
  { nx := d.nx
    nu := d.nu
    data := ⟨Mat.zeros nv nv, perNv, Mat.zeros d.nc nv, Mat.zeros nxNext nv, perNext, sides⟩
    point := ⟨perNv, perNext, sides, sides⟩
    residual := ⟨perNv, perNext, sides, sides⟩
    condensed := ⟨perNc, perNc, Mat.zeros d.nc nv, Mat.zeros nv nv, perNv⟩
    riccati :=
      { total := Mat.zeros nv nv
        totalVec := perNv
        pulled := Mat.zeros nv nxNext
        cost := Mat.zeros d.nx d.nx
        costVec := Vec.zeros d.nx
        gain := Mat.zeros d.nu d.nx
        feed := Vec.zeros d.nu
        factor := some (Cholesky.ofIdentity d.nu) }
    direction := ⟨perNv, perNext, sides, sides⟩
    affineT := sides
    affineLam := sides
    scratch := ⟨perNv, perNc, perNext⟩ }

/-- Number of inequality rows. -/
def nc (s : StageState α) : Nat := s.data.bound.lo.size

/-- The states of the current point. -/
def states [Zero α] (s : StageState α) : Vec α := s.point.v.slice s.nu s.nx

/-- The controls of the current point. -/
def controls [Zero α] (s : StageState α) : Vec α := s.point.v.slice 0 s.nu

/-- Number of values kept for a stage of these sizes whose successor has `nxNext` states. -/
def valueCount (d : StageSizes) (nxNext : Nat) : Nat :=
  let nv := d.nv
  let nc := d.nc
  3 * nv * nv + 2 * nc * nv + 2 * nxNext * nv + (d.nx * d.nx + d.nu * d.nx + d.nu * d.nu)
    + 7 * nv + 5 * nxNext + 21 * nc + (d.nx + d.nu)

end StageState

end StagedQP
