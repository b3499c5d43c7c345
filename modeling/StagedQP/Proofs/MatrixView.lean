import Mathlib.LinearAlgebra.Matrix.NonsingularInverse
import Mathlib.LinearAlgebra.Matrix.ToLinearEquiv
import StagedQP.Proofs.ExactArithmetic

/-!
# Matrices as algebra sees them

Determinants, inverses and exponentials are notions about square tables whose indices are bounded by
their type. `Mat.toMatrix r c` reads a stored matrix as such a table, and `Mat.ofMatrix` stores a
table. On matrices that hold as many entries as their shape calls for, which `Mat.HasShape` states
together with the shape, the two are inverse to each other, and the operations of the library are
those of the algebra of matrices:

```text
mul        product            scale      multiple
sub, add   difference, sum    identity   one
mulVec     action on a vector
```

A matrix is invertible when its table is.

## Main results

* `Mat.HasShape.ext` — a stored matrix is known by its table.
* `Mat.toMatrix_mul` and its companions — the operations.
* `Mat.isInvertible_iff` — invertibility in terms of the entries of products.
-/

namespace StagedQP

open Finset

namespace Mat

section Tables

variable {α : Type}

/-- A matrix of `r` rows and `c` columns that holds all its entries. -/
structure HasShape (r c : Nat) (m : Mat α) : Prop where
  rows : m.rows = r
  cols : m.cols = c
  wellFormed : m.WellFormed

theorem hasShape_ofFn (r c : Nat) (f : Nat → Nat → α) : (ofFn r c f).HasShape r c :=
  ⟨rfl, rfl, wellFormed_ofFn ..⟩

variable [Zero α]

/-- The entries of the first `r` rows and `c` columns. -/
def toMatrix (r c : Nat) (m : Mat α) : Matrix (Fin r) (Fin c) α := fun i j => m.get i j

/-- The stored matrix with the entries of a table. -/
def ofMatrix {r c : Nat} (t : Matrix (Fin r) (Fin c) α) : Mat α :=
  ofFn r c fun i j => if h : i < r ∧ j < c then t ⟨i, h.1⟩ ⟨j, h.2⟩ else 0

@[simp] theorem toMatrix_apply (r c : Nat) (m : Mat α) (i : Fin r) (j : Fin c) :
    m.toMatrix r c i j = m.get i j := rfl

theorem hasShape_ofMatrix {r c : Nat} (t : Matrix (Fin r) (Fin c) α) :
    (ofMatrix t).HasShape r c := hasShape_ofFn ..

@[simp] theorem toMatrix_ofMatrix {r c : Nat} (t : Matrix (Fin r) (Fin c) α) :
    (ofMatrix t).toMatrix r c = t := by
  ext i j
  simp [ofMatrix, get_ofFn]

/-- A stored matrix is known by its table. -/
theorem HasShape.ext {r c : Nat} {m m' : Mat α} (h : m.HasShape r c) (h' : m'.HasShape r c)
    (ht : m.toMatrix r c = m'.toMatrix r c) : m = m' := by
  refine ext_get h.wellFormed h'.wellFormed (h.rows.trans h'.rows.symm)
    (h.cols.trans h'.cols.symm) fun i hi j hj => ?_
  rw [h.rows] at hi
  rw [h.cols] at hj
  exact congrFun (congrFun ht ⟨i, hi⟩) ⟨j, hj⟩

end Tables

/-! ## The operations -/

section Operations

variable {K : Type} [Field K] [LinearOrder K] [SquareRoot K] {r c n : Nat} {m m' : Mat K}

theorem HasShape.mul (h : m.HasShape r n) (h' : m'.HasShape n c) : (m.mul m').HasShape r c :=
  ⟨h.rows, h'.cols, wellFormed_ofFn ..⟩

theorem HasShape.scale (h : m.HasShape r c) (a : K) : (m.scale a).HasShape r c :=
  ⟨h.rows, h.cols, wellFormed_ofFn ..⟩

theorem HasShape.add (h : m.HasShape r c) (m' : Mat K) : (m.add m').HasShape r c :=
  ⟨h.rows, h.cols, wellFormed_ofFn ..⟩

theorem HasShape.sub (h : m.HasShape r c) (m' : Mat K) : (m.sub m').HasShape r c :=
  ⟨h.rows, h.cols, wellFormed_ofFn ..⟩

theorem toMatrix_mul (h : m.HasShape r n) (h' : m'.HasShape n c) :
    (m.mul m').toMatrix r c = m.toMatrix r n * m'.toMatrix n c := by
  ext i j
  rw [toMatrix_apply, get_mul _ _ (h.rows.symm ▸ i.2) (h'.cols.symm ▸ j.2),
    Scalar.sumUpTo_eq_sum, h.cols, Matrix.mul_apply, sum_range]
  rfl

theorem toMatrix_scale (h : m.HasShape r c) (a : K) :
    (m.scale a).toMatrix r c = a • m.toMatrix r c := by
  ext i j
  rw [Matrix.smul_apply, smul_eq_mul, mul_comm]
  exact get_ofFn_of_lt _ (h.rows.symm ▸ i.2) (h.cols.symm ▸ j.2)

theorem toMatrix_add (h : m.HasShape r c) (m' : Mat K) :
    (m.add m').toMatrix r c = m.toMatrix r c + m'.toMatrix r c := by
  ext i j
  exact get_ofFn_of_lt _ (h.rows.symm ▸ i.2) (h.cols.symm ▸ j.2)

theorem toMatrix_sub (h : m.HasShape r c) (m' : Mat K) :
    (m.sub m').toMatrix r c = m.toMatrix r c - m'.toMatrix r c := by
  ext i j
  exact get_ofFn_of_lt _ (h.rows.symm ▸ i.2) (h.cols.symm ▸ j.2)

omit [LinearOrder K] [SquareRoot K] in
theorem toMatrix_identity (n : Nat) : (identity n n : Mat K).toMatrix n n = 1 := by
  ext i j
  rw [toMatrix_apply, identity, diagonal, get_ofFn_of_lt _ i.2 j.2, Matrix.one_apply]
  exact if_congr Fin.ext_iff.symm rfl rfl

end Operations

/-! ## Invertible matrices -/

section Invertible

variable {K : Type} [Field K]

/-- The table of a square matrix has an inverse. -/
def IsInvertible (m : Mat K) : Prop := IsUnit (m.toMatrix m.rows m.rows)

/-- A sum over a row is an entry of a product. -/
theorem rowSum_eq_mulVec (m : Mat K) {r c : Nat} (x : Nat → K) (i : Fin r) :
    rowSum m.get c x i = (m.toMatrix r c).mulVec (fun j => x j) i := by
  rw [rowSum, sum_range]
  rfl

/-- An entry of a product is a sum over a row. -/
theorem toMatrix_mul_apply (m m' : Mat K) {r n c : Nat} (i : Fin r) (j : Fin c) :
    (m.toMatrix r n * m'.toMatrix n c) i j = rowSum m.get n (fun k => m'.get k j) i := by
  rw [Matrix.mul_apply, rowSum, sum_range]
  rfl

/-- A square matrix is invertible exactly when it takes nothing else to zero. -/
theorem isInvertible_iff {n : Nat} {m : Mat K} (h : m.rows = n) : m.IsInvertible ↔
    ∀ x : Nat → K, (∀ i < n, rowSum m.get n x i = 0) → ∀ i < n, x i = 0 := by
  subst h
  have hkernel : m.IsInvertible ↔ ¬ ∃ v ≠ 0, (m.toMatrix m.rows m.rows).mulVec v = 0 := by
    rw [IsInvertible, Matrix.isUnit_iff_isUnit_det, isUnit_iff_ne_zero,
      Matrix.exists_mulVec_eq_zero_iff]
  rw [hkernel]
  constructor
  · intro hnone x hx i hi
    by_contra hne
    refine hnone ⟨fun j => x j, fun h0 => hne (congrFun h0 ⟨i, hi⟩), ?_⟩
    ext k
    rw [← rowSum_eq_mulVec]
    exact hx k k.2
  · rintro hzero ⟨v, hv, hmul⟩
    let x : Nat → K := fun j => if h : j < m.rows then v ⟨j, h⟩ else 0
    have hx : (fun j : Fin m.rows => x j) = v := by
      ext j
      simp [x]
    apply hv
    rw [← hx]
    ext j
    refine hzero x (fun i hi => ?_) j j.2
    have := congrFun hmul ⟨i, hi⟩
    rwa [← hx, ← rowSum_eq_mulVec] at this

/-- An invertible factor on the left can be dropped. -/
theorem mul_left_cancel {n c : Nat} {m : Mat K} (h : m.rows = n) (hm : m.IsInvertible)
    {x y : Matrix (Fin n) (Fin c) K} (heq : m.toMatrix n n * x = m.toMatrix n n * y) : x = y := by
  subst h
  have hdet := (Matrix.isUnit_iff_isUnit_det _).1 hm
  have := congrArg ((m.toMatrix m.rows m.rows)⁻¹ * ·) heq
  simpa only [← Matrix.mul_assoc, Matrix.nonsing_inv_mul _ hdet, Matrix.one_mul] using this

end Invertible

end Mat

end StagedQP
