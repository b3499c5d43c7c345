import StagedQP.Dense.Matrix
import StagedQP.Error
import StagedQP.Word

/-!
# Importing buffers and checking shapes

A flat buffer says nothing about its layout, so the caller names it. `Mat.ofBuffer?` compares the
length of the buffer with the number of entries *as a 64-bit word*: sizes are machine words, and the
product wraps. A buffer that passes is laid out. Row after row its entries are read one by one and
put in their places, which ends early if the buffer does; column after column it already is what a
matrix stores, and nothing is read.

`Mat.checkShape` and `Vec.checkLength` are the two checks of which all size checks of the library
are made.
-/

namespace StagedQP

/-- Why a buffer does not become a matrix. -/
inductive ImportFault (α : Type) where
  /-- The number of entries is not the one that the shape calls for. -/
  | refused (cause : SetupError α)
  /-- The buffer ended before all entries of the matrix were read. -/
  | exhausted

namespace Mat

variable {α : Type}

/-- The matrix whose entries are read off a buffer row after row, if the buffer lasts for all of
them. -/
def readRows? [Zero α] (rows cols : Nat) (data : Array α) : Option (Mat α) :=
  if rows * cols ≤ data.size then
    some (ofFn rows cols fun i j => data.getD (i * cols + j) 0)
  else none

/-- The matrix whose entries a buffer lists in the given order. -/
def ofBuffer? [Zero α] (order : StorageOrder) (stage rows cols : Nat) (data : Array α) :
    Except (ImportFault α) (Mat α) :=
  if data.size = rows * cols % wordModulus then
    match order with
    | .rowMajor => (readRows? rows cols data).elim (.error .exhausted) .ok
    | .colMajor => .ok ⟨rows, cols, data⟩
  else .error (.refused (.mismatch stage (.buffer order data.size rows cols)))

/-- Accepts a matrix of the given shape only. -/
def checkShape (stage : Nat) (name : String) (m : Mat α) (rows cols : Nat) :
    Except (SetupError α) Unit :=
  if m.rows = rows ∧ m.cols = cols then .ok ()
  else .error (.mismatch stage (.shape name m.rows m.cols rows cols))

end Mat

/-- Accepts a vector of the given size only. -/
def Vec.checkLength {α : Type} (stage : Nat) (name : String) (v : Vec α) (size : Nat) :
    Except (SetupError α) Unit :=
  if v.size = size then .ok () else .error (.mismatch stage (.length name v.size size))

end StagedQP
