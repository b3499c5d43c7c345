import StagedQP.Dense.Matrix

/-!
# Products

Products of matrices and vectors, plain (`mulVec`, `mul`) and added to a given value (`addMulVec`,
`addTrMulVec`, `addMul`, `addTrMul`). No product looks at its factors' entries to skip work: a zero
times an infinite or undefined entry contributes what the arithmetic says. A plain product with an
empty inner dimension is zero.

The accumulation orders are part of the definitions. A product with `m` itself starts from the
given value and adds one term after another; a product with the transpose of `m` forms the inner
product of a column first and adds it at the end.
-/

namespace StagedQP

namespace Mat

variable {α : Type} [Scalar α]

open Scalar (sumUpTo addUpTo)

/-- The product `m v`. -/
def mulVec (m : Mat α) (v : Vec α) : Vec α :=
  Vec.ofFn m.rows fun i => sumUpTo (fun j => m.get i j * v.get j) m.cols

/-- The value `y + m v`. -/
def addMulVec (y : Vec α) (m : Mat α) (v : Vec α) : Vec α :=
  Vec.ofFn y.size fun i => addUpTo (y.get i) (fun j => m.get i j * v.get j) m.cols

/-- The product `mᵀ v`. -/
def trMulVec (m : Mat α) (v : Vec α) : Vec α :=
  Vec.ofFn m.cols fun j => sumUpTo (fun i => m.get i j * v.get i) m.rows

/-- The value `y + mᵀ v`. -/
def addTrMulVec (y : Vec α) (m : Mat α) (v : Vec α) : Vec α :=
  Vec.ofFn y.size fun j => y.get j + sumUpTo (fun i => m.get i j * v.get i) m.rows

/-- The value `y - mᵀ v`. -/
def subTrMulVec (y : Vec α) (m : Mat α) (v : Vec α) : Vec α :=
  Vec.ofFn y.size fun j => y.get j - sumUpTo (fun i => m.get i j * v.get i) m.rows

/-- The product `m m'`. -/
def mul (m m' : Mat α) : Mat α :=
  ofFn m.rows m'.cols fun i j => sumUpTo (fun k => m.get i k * m'.get k j) m.cols

/-- The value `y + m m'`. -/
def addMul (y m m' : Mat α) : Mat α :=
  ofFn y.rows y.cols fun i j => addUpTo (y.get i j) (fun k => m.get i k * m'.get k j) m.cols

/-- The product `mᵀ m'`. -/
def trMul (m m' : Mat α) : Mat α :=
  ofFn m.cols m'.cols fun i j => sumUpTo (fun k => m.get k i * m'.get k j) m.rows

/-- The value `y + mᵀ m'`. -/
def addTrMul (y m m' : Mat α) : Mat α :=
  ofFn y.rows y.cols fun i j => y.get i j + sumUpTo (fun k => m.get k i * m'.get k j) m.rows

@[simp] theorem size_mulVec (m : Mat α) (v : Vec α) : (m.mulVec v).size = m.rows :=
  Vec.size_ofFn ..

@[simp] theorem size_addMulVec (y : Vec α) (m : Mat α) (v : Vec α) :
    (addMulVec y m v).size = y.size := Vec.size_ofFn ..

@[simp] theorem size_trMulVec (m : Mat α) (v : Vec α) : (m.trMulVec v).size = m.cols :=
  Vec.size_ofFn ..

@[simp] theorem size_addTrMulVec (y : Vec α) (m : Mat α) (v : Vec α) :
    (addTrMulVec y m v).size = y.size := Vec.size_ofFn ..

@[simp] theorem size_subTrMulVec (y : Vec α) (m : Mat α) (v : Vec α) :
    (subTrMulVec y m v).size = y.size := Vec.size_ofFn ..

theorem get_mulVec (m : Mat α) (v : Vec α) {i : Nat} (h : i < m.rows) :
    (m.mulVec v).get i = sumUpTo (fun j => m.get i j * v.get j) m.cols :=
  Vec.get_ofFn_of_lt _ h

theorem get_mul (m m' : Mat α) {i j : Nat} (hi : i < m.rows) (hj : j < m'.cols) :
    (m.mul m').get i j = sumUpTo (fun k => m.get i k * m'.get k j) m.cols :=
  get_ofFn_of_lt _ hi hj

end Mat

end StagedQP
