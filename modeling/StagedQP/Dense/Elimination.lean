import StagedQP.Dense.Substitution

/-!
# Linear systems

`Mat.solve? a b` solves `A X = B` by elimination with row pivoting. The row chosen at step `k` is
the first one, from `k` on, whose entry in column `k` is largest in absolute value; an undefined
entry never displaces another. A column without a nonzero candidate is passed over, which leaves a
zero on the diagonal. Every column of `B` is divided by every diagonal entry of the triangular
matrix, so the system is refused exactly when such an entry is zero and `B` has a column. Without a
column there is nothing to solve: the solution is the empty matrix, whatever `A` is.
-/

namespace StagedQP

namespace Elimination

variable {α : Type} [Scalar α]

/-- A system `A X = B` under elimination. -/
structure System (α : Type) where
  /-- The matrix, upper triangular in the columns already done. -/
  matrix : Mat α
  /-- The right-hand side, with the same row operations applied. -/
  rhs : Mat α

/-- The row of the largest absolute entry of column `k` among the rows `k, …, k + n`. -/
def pivotRow (m : Mat α) (k : Nat) : Nat → Nat
  | 0 => k
  | n + 1 =>
    let best := pivotRow m k n
    if Scalar.lt (Scalar.abs (m.get best k)) (Scalar.abs (m.get (k + n + 1) k)) then k + n + 1
    else best

/-- Rows `k` and `p` exchanged. -/
def swapRows (m : Mat α) (k p : Nat) : Mat α :=
  Mat.ofFn m.rows m.cols fun i j =>
    m.get (if i = k then p else if i = p then k else i) j

/-- Row `k` times `multiplier i` taken off every row `i` below `k`. -/
def reduce (m : Mat α) (k : Nat) (multiplier : Vec α) : Mat α :=
  Mat.ofFn m.rows m.cols fun i j =>
    if k < i then -m.get k j * multiplier.get i + m.get i j else m.get i j

/-- Step `k`: bring the pivot row up and clear column `k` below the diagonal. -/
def step (s : System α) (k : Nat) : System α :=
  let n := s.matrix.rows
  let p := pivotRow s.matrix k (n - 1 - k)
  if Scalar.isZero (s.matrix.get p k) then s
  else
    let a := swapRows s.matrix k p
    let b := swapRows s.rhs k p
    let inverse := 1 / a.get k k
    let multiplier := Vec.ofFn n fun i => a.get i k * inverse
    ⟨reduce a k multiplier, reduce b k multiplier⟩

/-- The system after the first `k` steps. -/
def steps (s : System α) : Nat → System α
  | 0 => s
  | k + 1 => step (steps s k) k

end Elimination

namespace Mat

variable {α : Type} [Scalar α]

/-- The solution `X` of `A X = B` for a square `A`; `none` when `B` has a column and a pivot is
exactly zero. -/
def solve? (a b : Mat α) : Option (Mat α) :=
  let s := Elimination.steps ⟨a, b⟩ a.rows
  if b.cols != 0 && (List.range a.rows).any fun i => Scalar.isZero (s.matrix.get i i) then none
  else some (s.rhs.mapCols a.rows fun y => s.matrix.solveUpper y a.rows)

end Mat

end StagedQP
