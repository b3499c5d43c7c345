import StagedQP.Dense.Import

/-!
# Plants in continuous time

A linear time-invariant plant `ẋ = A x + B u + b` with a constant forcing term `b`. The constructor
`ContinuousPlant.of?` checks the shapes, so a plant made by it has a square, nonempty state matrix
and an input matrix with as many rows.

`ContinuousPlant.chain?` is the standard example: a chain of unit masses joined by unit springs,
with a wall at each end, the first masses of the chain actuated. Its state lists all positions, then
all velocities:

```text
A = [ 0  I ]     B = [ 0 ]
    [ T  0 ]         [ I ]
                     [ 0 ]
```

where `T` is tridiagonal with `-2` on the diagonal and `1` beside it.
-/

namespace StagedQP

/-- The plant `ẋ = A x + B u + b`. -/
structure ContinuousPlant (α : Type) where
  /-- State matrix. -/
  A : Mat α
  /-- Input matrix. -/
  B : Mat α
  /-- Constant forcing term. -/
  b : Vec α

namespace ContinuousPlant

variable {α : Type}

/-- Number of states. -/
def nx (s : ContinuousPlant α) : Nat := s.A.rows

/-- Number of inputs. -/
def nu (s : ContinuousPlant α) : Nat := s.B.cols

/-- The plant with these matrices and no forcing. -/
def of? [Zero α] (A B : Mat α) : Except (SetupError α) (ContinuousPlant α) :=
  if A.rows = 0 ∨ A.cols ≠ A.rows then .error (.system (.notSquare A.rows A.cols))
  else if B.rows ≠ A.rows then .error (.system (.inputRows B.rows A.rows))
  else .ok ⟨A, B, Vec.zeros A.rows⟩

/-- The plant with another forcing term. -/
def withOffset? (s : ContinuousPlant α) (b : Vec α) : Except (SetupError α) (ContinuousPlant α) :=
  if b.size = s.nx then .ok { s with b := b }
  else .error (.system (.offsetLength b.size s.nx))

variable [Scalar α]

/-- Entry `(i, j)` of the stiffness matrix of a chain. -/
def stiffness (i j : Nat) : α :=
  if i = j then -Scalar.ofNat 2 else if i + 1 = j ∨ j + 1 = i then 1 else 0

/-- The state matrix of a chain of `masses` masses. -/
def chainState (masses : Nat) : Mat α :=
  Mat.ofFn (2 * masses) (2 * masses) fun i j =>
    if i < masses then if j = masses + i then 1 else 0
    else if j < masses then stiffness (i - masses) j
    else 0

/-- The input matrix of a chain of `masses` masses of which the first `nu` are actuated. -/
def chainInput (masses nu : Nat) : Mat α :=
  Mat.ofFn (2 * masses) nu fun i j => if i = masses + j then 1 else 0

/-- The chain with `nx` states, two for each mass, and `nu` actuated masses. -/
def chain? (nx nu : Nat) : Except (SetupError α) (ContinuousPlant α) :=
  if nx = 0 ∨ nx % 2 ≠ 0 then .error (.system (.chainStates nx))
  else if nu = 0 ∨ nx / 2 < nu then .error (.system (.chainInputs (nx / 2) nu))
  else of? (chainState (nx / 2)) (chainInput (nx / 2) nu)

end ContinuousPlant

end StagedQP
