import StagedQP.Stage

/-!
# Packed stages

The solver works on the stage vector `v = [u; x]` as a whole, so it packs the data of a stage in
that order:

```text
hess = [ R  S ]   grad = [ r ]   jac = [ unit rows of idxb ]   dyn = [ B  A ]
       [ Sᵀ Q ]          [ q ]         [       D  C        ]
```

Box rows come before general rows, in the rows of `jac` as well as in the bounds. A packed stage
depends on the stage alone: `PackedStage.ofStage` builds every entry anew.
-/

namespace StagedQP

/-- A value for each side of two-sided rows. -/
structure Sides (β : Type) where
  /-- The value of the lower side. -/
  lo : β
  /-- The value of the upper side. -/
  up : β

/-- The same function of both sides. -/
def Sides.map {β γ : Type} (f : β → γ) (s : Sides β) : Sides γ := ⟨f s.lo, f s.up⟩

/-- A function of both sides of two values. -/
def Sides.zipWith {β γ δ : Type} (f : β → γ → δ) (s : Sides β) (t : Sides γ) : Sides δ :=
  ⟨f s.lo t.lo, f s.up t.up⟩

/-- Stage data in the order of the stage vector. -/
structure PackedStage (α : Type) where
  /-- Hessian of the cost. -/
  hess : Mat α
  /-- Gradient of the cost. -/
  grad : Vec α
  /-- Matrix of the inequality rows, box rows first. -/
  jac : Mat α
  /-- Matrix of the dynamics. -/
  dyn : Mat α
  /-- Offset of the dynamics. -/
  off : Vec α
  /-- Bounds of the inequality rows. -/
  bound : Sides (Vec α)

variable {α : Type}

namespace PackedStage

/-- The data of a stage, packed. -/
def ofStage [Zero α] [One α] (s : Stage α) : PackedStage α :=
  let nx := s.sizes.nx
  let nu := s.sizes.nu
  let nb := s.sizes.nb
  let positions := s.idxb.toArray
  { hess := Mat.ofFn (nu + nx) (nu + nx) fun i j =>
      if i < nu then if j < nu then s.R.get i j else s.S.get i (j - nu)
      else if j < nu then s.S.get j (i - nu) else s.Q.get (i - nu) (j - nu)
    grad := s.r.append s.q
    jac := Mat.ofFn (nb + s.sizes.ng) (nu + nx) fun i j =>
      if i < nb then if positions[i]? = some j then 1 else 0
      else if j < nu then s.D.get (i - nb) j else s.C.get (i - nb) (j - nu)
    dyn := Mat.ofFn s.nxNext (nu + nx) fun i j =>
      if j < nu then s.B.get i j else s.A.get i (j - nu)
    off := s.b
    bound := ⟨s.lb.append s.lg, s.ub.append s.ug⟩ }

end PackedStage

end StagedQP
