import StagedQP.Dense.Substitution

/-!
# Cholesky factors

The factorization `M = L Lᵀ` of a symmetric matrix with positive pivots. Only the lower triangle of
`M` is read, so an unsymmetric `M` is treated as the symmetric matrix with that lower triangle.

`Cholesky.eliminate` is one step: it turns column `j` into column `j` of the factor and takes the
outer product of that column off what lies below and to the right. It fails exactly when the pivot
is not greater than zero — zero, negative, or undefined. The empty matrix has an empty factor.
-/

namespace StagedQP

/-- A lower triangular factor. -/
structure Cholesky (α : Type) where
  /-- The factor `L`; entries above the diagonal are zero. -/
  lower : Mat α

namespace Cholesky

variable {α : Type} [Scalar α]

/-- Column `j` of the factor, from a matrix in which the steps before `j` are done. -/
def pivotColumn (m : Mat α) (j : Nat) : Vec α :=
  let root := Scalar.sqrt (m.get j j)
  Vec.ofFn m.rows fun i =>
    if i < j then 0 else if i = j then root else m.get i j / root

/-- Step `j` of the factorization; `none` when the pivot is not greater than zero. -/
def eliminate (m : Mat α) (j : Nat) : Option (Mat α) :=
  if Scalar.lt 0 (m.get j j) then
    let c := pivotColumn m j
    some <| Mat.ofFn m.rows m.cols fun i k =>
      if k < j then m.get i k
      else if k = j then c.get i
      else m.get i k - c.get k * c.get i
  else none

/-- The matrix after the first `j` steps. -/
def steps (m : Mat α) : Nat → Option (Mat α)
  | 0 => some m
  | j + 1 => (steps m j).bind fun a => eliminate a j

/-- The factor of a square matrix, if every pivot is greater than zero. -/
def factor (m : Mat α) : Option (Cholesky α) :=
  (steps m m.rows).map fun a =>
    ⟨Mat.ofFn m.rows m.rows fun i j => if j ≤ i then a.get i j else 0⟩

/-- The factor of the identity. -/
def ofIdentity (n : Nat) : Cholesky α := ⟨Mat.identity n n⟩

/-- Number of rows of the factored matrix. -/
def size (c : Cholesky α) : Nat := c.lower.rows

/-- The solution `x` of `L Lᵀ x = b`. -/
def solveVec (c : Cholesky α) (b : Vec α) : Vec α :=
  c.lower.solveLowerTr (c.lower.solveLower b c.size) c.size

/-- The solution `X` of `L Lᵀ X = B`, column by column. -/
def solve (c : Cholesky α) (b : Mat α) : Mat α := b.mapCols c.size c.solveVec

/-- Every diagonal entry is finite and its square exceeds `bound`. -/
def pivotsExceed (c : Cholesky α) (bound : α) : Bool :=
  (List.range c.size).all fun i =>
    let d := c.lower.get i i
    Scalar.isFinite d && Scalar.lt bound (d * d)

@[simp] theorem size_solveVec (c : Cholesky α) (b : Vec α) : (c.solveVec b).size = c.size :=
  Mat.size_solveLowerTr ..

end Cholesky

end StagedQP
