import StagedQP.Dense.Import

/-!
# Stages

One stage of a stage-structured quadratic program has states `x` and controls `u`, and with the
*stage vector* `v = [u; x]` reads

```text
cost         ½ xᵀ Q x + uᵀ S x + ½ uᵀ R u + qᵀ x + rᵀ u
dynamics     x⁺ = A x + B u + b
box rows     lb ≤ v at the positions idxb ≤ ub
general rows lg ≤ D u + C x ≤ ug
```

so an entry of `idxb` below the number of controls addresses a control. The sizes of a stage are
read off `Q`, `R`, `idxb` and `C`; the number of states of the stage after it is read off `A`.
`Stage.check` compares all other arrays with these sizes, in a fixed order, so that the first
disagreement is the one reported.
-/

namespace StagedQP

/-- The sizes of one stage. -/
structure StageSizes where
  /-- Number of states. -/
  nx : Nat
  /-- Number of controls. -/
  nu : Nat
  /-- Number of box rows. -/
  nb : Nat
  /-- Number of general rows. -/
  ng : Nat
  deriving DecidableEq

/-- Length of the stage vector. -/
def StageSizes.nv (d : StageSizes) : Nat := d.nu + d.nx

/-- Number of inequality rows, box rows first. -/
def StageSizes.nc (d : StageSizes) : Nat := d.nb + d.ng

/-- The data of one stage. -/
structure Stage (α : Type) where
  /-- State matrix of the dynamics. -/
  A : Mat α
  /-- Control matrix of the dynamics. -/
  B : Mat α
  /-- Offset of the dynamics. -/
  b : Vec α
  /-- State block of the Hessian. -/
  Q : Mat α
  /-- Cross term of the cost, `uᵀ S x`. -/
  S : Mat α
  /-- Control block of the Hessian. -/
  R : Mat α
  /-- State gradient. -/
  q : Vec α
  /-- Control gradient. -/
  r : Vec α
  /-- Positions in the stage vector that the box rows bound. -/
  idxb : List Nat
  /-- Lower bounds of the box rows. -/
  lb : Vec α
  /-- Upper bounds of the box rows. -/
  ub : Vec α
  /-- State matrix of the general rows. -/
  C : Mat α
  /-- Control matrix of the general rows. -/
  D : Mat α
  /-- Lower bounds of the general rows. -/
  lg : Vec α
  /-- Upper bounds of the general rows. -/
  ug : Vec α

namespace Stage

variable {α : Type}

/-- The sizes that the stage declares. -/
def sizes (s : Stage α) : StageSizes := ⟨s.Q.rows, s.R.rows, s.idxb.length, s.C.rows⟩

/-- Number of states of the stage after this one. -/
def nxNext (s : Stage α) : Nat := s.A.rows

/-- No cost, no inequality rows, zero dynamics. -/
def zeros [Zero α] (nx nu nxNext : Nat) : Stage α where
  A := Mat.zeros nxNext nx
  B := Mat.zeros nxNext nu
  b := Vec.zeros nxNext
  Q := Mat.zeros nx nx
  S := Mat.zeros nu nx
  R := Mat.zeros nu nu
  q := Vec.zeros nx
  r := Vec.zeros nu
  idxb := []
  lb := Vec.empty
  ub := Vec.empty
  C := Mat.zeros 0 nx
  D := Mat.zeros 0 nu
  lg := Vec.empty
  ug := Vec.empty

/-- The lower bounds of all inequality rows. -/
def lower (s : Stage α) : List α := s.lb.toList ++ s.lg.toList

/-- The upper bounds of all inequality rows. -/
def upper (s : Stage α) : List α := s.ub.toList ++ s.ug.toList

/-- The shapes of the arrays agree with the declared sizes. -/
def checkShapes (stage : Nat) (s : Stage α) : Except (SetupError α) Unit := do
  let d := s.sizes
  s.Q.checkShape stage "Q" d.nx d.nx
  s.R.checkShape stage "R" d.nu d.nu
  s.S.checkShape stage "S" d.nu d.nx
  s.q.checkLength stage "q" d.nx
  s.r.checkLength stage "r" d.nu
  s.A.checkShape stage "A" s.nxNext d.nx
  s.B.checkShape stage "B" s.nxNext d.nu
  s.b.checkLength stage "b" s.nxNext
  s.lb.checkLength stage "lb" d.nb
  s.ub.checkLength stage "ub" d.nb
  s.C.checkShape stage "C" d.ng d.nx
  s.D.checkShape stage "D" d.ng d.nu
  s.lg.checkLength stage "lg" d.ng
  s.ug.checkLength stage "ug" d.ng

/-- The positions of the remaining box rows are distinct from each other and from those `seen`, and
lie in a stage vector of length `nv`. The first remaining row has number `row`. -/
def checkPositions (stage nv : Nat) (row : Nat) (seen : List Nat) :
    List Nat → Except (SetupError α) Unit
  | [] => .ok ()
  | i :: rest =>
    if nv ≤ i then .error (.mismatch stage (.indexOutside row i nv))
    else if i ∈ seen then .error (.mismatch stage (.indexRepeated row i))
    else checkPositions stage nv (row + 1) (i :: seen) rest

/-- The bounds of one row are finite and in order. -/
def boundsInOrder [Scalar α] (lo up : α) : Bool :=
  Scalar.isFinite lo && Scalar.isFinite up && !Scalar.lt up lo

/-- All pairs of bounds are finite and in order. The first pair has number `row`. -/
def checkBounds [Scalar α] (stage row : Nat) : List (α × α) → Except (SetupError α) Unit
  | [] => .ok ()
  | (lo, up) :: rest =>
    if boundsInOrder lo up then checkBounds stage (row + 1) rest
    else .error (.bounds stage row lo up)

/-- The stage is consistent in itself; `stage` only labels the error. -/
def check [Scalar α] (stage : Nat) (s : Stage α) : Except (SetupError α) Unit := do
  s.checkShapes stage
  checkPositions stage s.sizes.nv 0 [] s.idxb
  checkBounds stage 0 (s.lower.zip s.upper)

end Stage

end StagedQP
