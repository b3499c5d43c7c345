import Mathlib.Algebra.BigOperators.Ring.Finset
import Mathlib.Algebra.Order.BigOperators.Group.Finset
import Mathlib.Algebra.Order.Field.Basic
import Mathlib.Analysis.Real.Sqrt
import Mathlib.Data.Rat.Sqrt
import Mathlib.Tactic
import StagedQP.Dense.Product

/-!
# Exact arithmetic

The library is written over operations without laws. This module supplies the laws: every linearly
ordered field `K` with a square root operation is a `Scalar`, with the operations of the field, no
undefined values and no infinities. Nothing is assumed of the square root here; where it matters
that a factorization is exact, `[ExactRoots K]` asks for it.

## From accumulations to sums

The kernels accumulate in a fixed order. Over a field the order is irrelevant, and every kernel is
one of two sums over a table of coefficients, both taken over an initial range of indices:

* `rowSum a n x i = ∑ j < n, a i j * x j`, entry `i` of a product;
* `colSum a n y j = ∑ i < n, a i j * y i`, entry `j` of a product with the transpose.

Vectors and matrices enter through their total reading functions `Vec.get` and `Mat.get`, so no
index carries a bound and blocks of a matrix are shifts of its index.

## Main results

* `addUpTo_eq_sum`, `sumUpTo_eq_sum`, `maxUpTo_le_iff` — the accumulations of `Scalar`.
* `rowSum_comp`, `sum_mul_rowSum` — a product of tables acts by composition, and the two sums are
  adjoint to each other.
* `Mat.get_mulVec_eq` and its companions — every kernel by its entries.
-/

namespace StagedQP

open Finset

/-- A square root operation. -/
class SquareRoot (K : Type) where
  /-- The square root. -/
  sqrt : K → K

/-- The square root of a positive number is positive, and its square is the number. -/
class ExactRoots (K : Type) [Field K] [LinearOrder K] [SquareRoot K] : Prop where
  /-- Square roots of positive numbers are positive. -/
  sqrt_pos : ∀ {a : K}, 0 < a → 0 < SquareRoot.sqrt a
  /-- Square roots are exact. -/
  sqrt_mul_self : ∀ {a : K}, 0 < a → SquareRoot.sqrt a * SquareRoot.sqrt a = a

/-- The operations of an ordered field with square roots. -/
instance exactScalar {K : Type} [Field K] [LinearOrder K] [SquareRoot K] : Scalar K where
  lt a b := decide (a < b)
  le a b := decide (a ≤ b)
  max := max
  min := min
  abs a := |a|
  sqrt := SquareRoot.sqrt
  isFinite _ := true
  ofNat n := (n : K)
  decimal m e := (m : K) / 10 ^ e

-- The two ways to the operations of `K` agree; terms should name those of the field.
attribute [instance (mid)] Scalar.toZero Scalar.toOne Scalar.toAdd Scalar.toSub Scalar.toMul
  Scalar.toDiv Scalar.toNeg

section Tables

variable {K : Type} [Field K]

/-! ## Tables of coefficients -/

/-- Entry `i` of the product of a table with `x`, over the first `n` columns. -/
def rowSum (a : Nat → Nat → K) (n : Nat) (x : Nat → K) (i : Nat) : K :=
  ∑ j ∈ range n, a i j * x j

/-- Entry `j` of the product of the transposed table with `y`, over the first `n` rows. -/
def colSum (a : Nat → Nat → K) (n : Nat) (y : Nat → K) (j : Nat) : K :=
  ∑ i ∈ range n, a i j * y i

theorem rowSum_congr (a : Nat → Nat → K) {n : Nat} {x y : Nat → K} (i : Nat)
    (h : ∀ j < n, x j = y j) : rowSum a n x i = rowSum a n y i := by
  refine sum_congr rfl fun j hj => ?_
  rw [h j (mem_range.1 hj)]

theorem colSum_congr (a : Nat → Nat → K) {n : Nat} {x y : Nat → K} (j : Nat)
    (h : ∀ i < n, x i = y i) : colSum a n x j = colSum a n y j := by
  refine sum_congr rfl fun i hi => ?_
  rw [h i (mem_range.1 hi)]

/-- The entries of the table that are read decide the sum. -/
theorem rowSum_congr_table {a b : Nat → Nat → K} {n : Nat} (x : Nat → K) (i : Nat)
    (h : ∀ j < n, a i j = b i j) : rowSum a n x i = rowSum b n x i := by
  refine sum_congr rfl fun j hj => ?_
  rw [h j (mem_range.1 hj)]

theorem rowSum_advance (a : Nat → Nat → K) (n : Nat) (c : K) (x d : Nat → K) (i : Nat) :
    rowSum a n (fun j => c * d j + x j) i = c * rowSum a n d i + rowSum a n x i := by
  simp only [rowSum, mul_add, sum_add_distrib, mul_sum]
  congr 1
  refine sum_congr rfl fun j _ => ?_
  ring

theorem colSum_advance (a : Nat → Nat → K) (n : Nat) (c : K) (x d : Nat → K) (j : Nat) :
    colSum a n (fun i => c * d i + x i) j = c * colSum a n d j + colSum a n x j := by
  simp only [colSum, mul_add, sum_add_distrib, mul_sum]
  congr 1
  refine sum_congr rfl fun i _ => ?_
  ring

theorem rowSum_add (a : Nat → Nat → K) (n : Nat) (x y : Nat → K) (i : Nat) :
    rowSum a n (fun j => x j + y j) i = rowSum a n x i + rowSum a n y i := by
  simp only [rowSum, mul_add, sum_add_distrib]

theorem colSum_add (a : Nat → Nat → K) (n : Nat) (x y : Nat → K) (j : Nat) :
    colSum a n (fun i => x i + y i) j = colSum a n x j + colSum a n y j := by
  simp only [colSum, mul_add, sum_add_distrib]

theorem rowSum_sub (a : Nat → Nat → K) (n : Nat) (x y : Nat → K) (i : Nat) :
    rowSum a n (fun j => x j - y j) i = rowSum a n x i - rowSum a n y i := by
  simp only [rowSum, mul_sub, sum_sub_distrib]

theorem colSum_neg (a : Nat → Nat → K) (n : Nat) (x : Nat → K) (j : Nat) :
    colSum a n (fun i => -x i) j = -colSum a n x j := by
  simp only [colSum, mul_neg, sum_neg_distrib]

/-- The columns up to `m` and those past them. -/
theorem rowSum_split (a : Nat → Nat → K) (m n : Nat) (x : Nat → K) (i : Nat) :
    rowSum a (m + n) x i =
      rowSum a m x i + rowSum (fun i j => a i (m + j)) n (fun j => x (m + j)) i := by
  simp only [rowSum, sum_range_add]

/-- A product of tables acts by composition. -/
theorem rowSum_comp {a b c : Nat → Nat → K} {m n : Nat} (x : Nat → K) (i : Nat)
    (h : ∀ j < n, c i j = ∑ k ∈ range m, a i k * b k j) :
    rowSum c n x i = rowSum a m (rowSum b n x) i := by
  calc rowSum c n x i = ∑ j ∈ range n, ∑ k ∈ range m, a i k * b k j * x j := by
        refine sum_congr rfl fun j hj => ?_
        rw [h j (mem_range.1 hj), sum_mul]
    _ = ∑ k ∈ range m, ∑ j ∈ range n, a i k * b k j * x j := sum_comm
    _ = rowSum a m (rowSum b n x) i := by
        refine sum_congr rfl fun k _ => ?_
        rw [rowSum, mul_sum]
        exact sum_congr rfl fun j _ => mul_assoc ..

/-- The two sums of a table are adjoint. -/
theorem sum_mul_rowSum (a : Nat → Nat → K) (m n : Nat) (y x : Nat → K) :
    ∑ i ∈ range m, y i * rowSum a n x i = ∑ j ∈ range n, colSum a m y j * x j := by
  calc ∑ i ∈ range m, y i * rowSum a n x i
      = ∑ i ∈ range m, ∑ j ∈ range n, a i j * y i * x j := by
        refine sum_congr rfl fun i _ => ?_
        rw [rowSum, mul_sum]
        refine sum_congr rfl fun j _ => ?_
        ring
    _ = ∑ j ∈ range n, ∑ i ∈ range m, a i j * y i * x j := sum_comm
    _ = ∑ j ∈ range n, colSum a m y j * x j := by
        refine sum_congr rfl fun j _ => ?_
        rw [colSum, sum_mul]

/-! ### Symmetric tables -/

/-- The table is symmetric on its first `n` rows and columns. -/
def SymmetricUpTo (n : Nat) (a : Nat → Nat → K) : Prop := ∀ i < n, ∀ j < n, a i j = a j i

/-- Pulling a symmetric table back through another leaves it symmetric. -/
theorem SymmetricUpTo.pullBack {m n : Nat} {p : Nat → Nat → K} (h : SymmetricUpTo n p)
    (d : Nat → Nat → K) :
    SymmetricUpTo m fun i j => ∑ k ∈ range n, (∑ l ∈ range n, d l i * p l k) * d k j := by
  intro i _ j _
  calc ∑ k ∈ range n, (∑ l ∈ range n, d l i * p l k) * d k j
      = ∑ k ∈ range n, ∑ l ∈ range n, d l i * p l k * d k j :=
        sum_congr rfl fun k _ => sum_mul ..
    _ = ∑ l ∈ range n, ∑ k ∈ range n, d l i * p l k * d k j := sum_comm
    _ = ∑ l ∈ range n, (∑ k ∈ range n, d k j * p k l) * d l i := by
        refine sum_congr rfl fun l hl => ?_
        rw [sum_mul]
        refine sum_congr rfl fun k hk => ?_
        rw [h k (mem_range.1 hk) l (mem_range.1 hl)]
        ring

/-! ### Parts of vectors and matrices -/

namespace Vec

theorem get_append_left (v w : Vec K) {i : Nat} (h : i < v.size) :
    (v.append w).get i = v.get i := by
  rw [get_append, if_pos h]

theorem get_append_right (v w : Vec K) {n : Nat} (h : v.size = n) (i : Nat) :
    (v.append w).get (n + i) = w.get i := by
  subst h
  rw [get_append, if_neg (by omega), Nat.add_sub_cancel_left]

theorem get_slice_of_lt (v : Vec K) (start : Nat) {n i : Nat} (h : i < n) :
    (v.slice start n).get i = v.get (start + i) := by
  rw [get_slice, if_pos h]

@[simp] theorem get_empty (i : Nat) : (empty : Vec K).get i = 0 :=
  get_of_size_le (Nat.zero_le i)

end Vec

theorem Mat.get_block_of_lt (m : Mat K) (i j : Nat) {rows cols a b : Nat} (ha : a < rows)
    (hb : b < cols) : (m.block i j rows cols).get a b = m.get (i + a) (j + b) :=
  get_ofFn_of_lt _ ha hb

end Tables

variable {K : Type} [Field K] [LinearOrder K] [SquareRoot K]

namespace Scalar

theorem lt_iff (a b : K) : Scalar.lt a b = true ↔ a < b := decide_eq_true_iff

theorem lt_eq_false_iff (a b : K) : Scalar.lt a b = false ↔ ¬ a < b := decide_eq_false_iff_not

theorem le_iff (a b : K) : Scalar.le a b = true ↔ a ≤ b := decide_eq_true_iff

theorem isFinite_exact (a : K) : Scalar.isFinite a = true := rfl

theorem ofNat_exact (n : Nat) : (Scalar.ofNat n : K) = (n : K) := rfl

theorem decimal_exact (m e : Nat) : (Scalar.decimal m e : K) = (m : K) / 10 ^ e := rfl

theorem max_exact (a b : K) : Scalar.max a b = Max.max a b := rfl

theorem min_exact (a b : K) : Scalar.min a b = Min.min a b := rfl

theorem half_exact : (Scalar.half : K) = (5 : ℕ) / 10 ^ 1 := rfl

/-! ## Accumulations -/

theorem addUpTo_eq_sum (a : K) (f : Nat → K) (n : Nat) :
    addUpTo a f n = a + ∑ i ∈ range n, f i := by
  induction n with
  | zero => simp [addUpTo]
  | succ n ih =>
      rw [addUpTo, ih, sum_range_succ, add_assoc]

theorem sumUpTo_eq_sum (f : Nat → K) (n : Nat) : sumUpTo f n = ∑ i ∈ range n, f i := by
  cases n with
  | zero => simp [sumUpTo]
  | succ n =>
      rw [sumUpTo, addUpTo_eq_sum, sum_range_succ', add_comm]

/-- A maximum is bounded exactly when its start and all its terms are. -/
theorem maxUpTo_le_iff (a b : K) (f : Nat → K) (n : Nat) :
    maxUpTo a f n ≤ b ↔ a ≤ b ∧ ∀ i < n, f i ≤ b := by
  induction n with
  | zero => simp [maxUpTo]
  | succ n ih =>
      rw [maxUpTo, max_exact, max_le_iff, ih]
      constructor
      · rintro ⟨⟨ha, hf⟩, hn⟩
        refine ⟨ha, fun i hi => ?_⟩
        rcases Nat.lt_succ_iff_lt_or_eq.1 hi with hlt | rfl
        · exact hf i hlt
        · exact hn
      · rintro ⟨ha, hf⟩
        exact ⟨⟨ha, fun i hi => hf i (by omega)⟩, hf n (by omega)⟩

theorem le_maxUpTo (a : K) (f : Nat → K) (n : Nat) : a ≤ maxUpTo a f n :=
  ((maxUpTo_le_iff a _ f n).1 le_rfl).1

end Scalar

/-! ## The real numbers -/

noncomputable instance : SquareRoot ℝ := ⟨Real.sqrt⟩

instance : ExactRoots ℝ where
  sqrt_pos := Real.sqrt_pos.2
  sqrt_mul_self h := Real.mul_self_sqrt h.le

/-! ## The rational numbers -/

/-- Square roots of rational numbers, exact on squares. Over the rational numbers a solve can be
run. -/
instance : SquareRoot ℚ := ⟨Rat.sqrt⟩

/-! ## Kernels by their entries -/

namespace Vec

theorem dot_eq_sum (v w : Vec K) : v.dot w = ∑ i ∈ range v.size, v.get i * w.get i :=
  Scalar.sumUpTo_eq_sum ..

theorem get_add (v w : Vec K) {i : Nat} (h : i < v.size) :
    (v.add w).get i = v.get i + w.get i := get_zipWith _ _ _ h

theorem get_sub (v w : Vec K) {i : Nat} (h : i < v.size) :
    (v.sub w).get i = v.get i - w.get i := get_zipWith _ _ _ h

theorem get_neg (v : Vec K) {i : Nat} (h : i < v.size) : v.neg.get i = -v.get i :=
  get_map _ _ h

theorem get_advance (v : Vec K) (a : K) (w : Vec K) {i : Nat} (h : i < v.size) :
    (v.advance a w).get i = a * w.get i + v.get i := get_zipWith _ _ _ h

theorem infNorm_le_iff [IsStrictOrderedRing K] {v : Vec K} {b : K} (hb : 0 ≤ b) :
    v.infNorm ≤ b ↔ ∀ i < v.size, |v.get i| ≤ b := by
  rw [infNorm, Scalar.maxUpTo_le_iff]
  exact and_iff_right hb

theorem infNorm_nonneg (v : Vec K) : 0 ≤ v.infNorm := Scalar.le_maxUpTo ..

theorem abs_get_le_infNorm [IsStrictOrderedRing K] (v : Vec K) (i : Nat) :
    |v.get i| ≤ v.infNorm := by
  rcases Nat.lt_or_ge i v.size with hi | hi
  · exact (infNorm_le_iff v.infNorm_nonneg).1 le_rfl i hi
  · rw [get_of_size_le hi, abs_zero]
    exact v.infNorm_nonneg

end Vec

namespace Mat

theorem get_mulVec_eq (m : Mat K) (v : Vec K) {i : Nat} (h : i < m.rows) :
    (m.mulVec v).get i = rowSum m.get m.cols v.get i := by
  rw [get_mulVec _ _ h, Scalar.sumUpTo_eq_sum, rowSum]

theorem get_addMulVec (y : Vec K) (m : Mat K) (v : Vec K) {i : Nat} (h : i < y.size) :
    (addMulVec y m v).get i = y.get i + rowSum m.get m.cols v.get i := by
  rw [addMulVec, Vec.get_ofFn_of_lt _ h, Scalar.addUpTo_eq_sum, rowSum]

theorem get_trMulVec (m : Mat K) (v : Vec K) {j : Nat} (h : j < m.cols) :
    (m.trMulVec v).get j = colSum m.get m.rows v.get j := by
  rw [trMulVec, Vec.get_ofFn_of_lt _ h, Scalar.sumUpTo_eq_sum, colSum]

theorem get_addTrMulVec (y : Vec K) (m : Mat K) (v : Vec K) {j : Nat} (h : j < y.size) :
    (addTrMulVec y m v).get j = y.get j + colSum m.get m.rows v.get j := by
  rw [addTrMulVec, Vec.get_ofFn_of_lt _ h, Scalar.sumUpTo_eq_sum, colSum]

theorem get_subTrMulVec (y : Vec K) (m : Mat K) (v : Vec K) {j : Nat} (h : j < y.size) :
    (subTrMulVec y m v).get j = y.get j - colSum m.get m.rows v.get j := by
  rw [subTrMulVec, Vec.get_ofFn_of_lt _ h, Scalar.sumUpTo_eq_sum, colSum]

theorem get_addMul (y m m' : Mat K) {i j : Nat} (hi : i < y.rows) (hj : j < y.cols) :
    (addMul y m m').get i j =
      y.get i j + ∑ k ∈ range m.cols, m.get i k * m'.get k j := by
  rw [addMul, get_ofFn_of_lt _ hi hj, Scalar.addUpTo_eq_sum]

theorem get_trMul (m m' : Mat K) {i j : Nat} (hi : i < m.cols) (hj : j < m'.cols) :
    (m.trMul m').get i j = ∑ k ∈ range m.rows, m.get k i * m'.get k j := by
  rw [trMul, get_ofFn_of_lt _ hi hj, Scalar.sumUpTo_eq_sum]

theorem get_addTrMul (y m m' : Mat K) {i j : Nat} (hi : i < y.rows) (hj : j < y.cols) :
    (addTrMul y m m').get i j =
      y.get i j + ∑ k ∈ range m.rows, m.get k i * m'.get k j := by
  rw [addTrMul, get_ofFn_of_lt _ hi hj, Scalar.sumUpTo_eq_sum]

theorem get_scaleRows (w : Vec K) (m : Mat K) {i j : Nat} (hi : i < m.rows) (hj : j < m.cols) :
    (scaleRows w m).get i j = m.get i j * w.get i := get_ofFn_of_lt _ hi hj

theorem get_neg (m : Mat K) {i j : Nat} (hi : i < m.rows) (hj : j < m.cols) :
    m.neg.get i j = -m.get i j := get_ofFn_of_lt _ hi hj

/-- A symmetrized matrix is symmetric, whatever it was made from. -/
theorem get_symmetrize_comm (m : Mat K) {i j : Nat} (hi : i < m.rows) (hj : j < m.cols)
    (hsq : m.rows = m.cols) : m.symmetrize.get i j = m.symmetrize.get j i := by
  rw [symmetrize, get_ofFn_of_lt _ hi hj, get_ofFn_of_lt _ (hsq ▸ hj) (hsq ▸ hi)]
  rcases Nat.lt_trichotomy i j with hlt | rfl | hgt
  · simp [hlt, Nat.lt_asymm hlt]
  · rfl
  · simp [hgt, Nat.lt_asymm hgt]

/-- A matrix that is symmetric already is left as it is. -/
theorem get_symmetrize_of_comm [CharZero K] (m : Mat K) {i j : Nat} (hi : i < m.rows)
    (hj : j < m.cols) (h : m.get i j = m.get j i) : m.symmetrize.get i j = m.get i j := by
  have hhalf : ∀ a : K, Scalar.half * (a + a) = a := by
    intro a
    rw [Scalar.half_exact]
    push_cast
    ring
  rw [symmetrize, get_ofFn_of_lt _ hi hj]
  rcases Nat.lt_trichotomy i j with hlt | rfl | hgt
  · rw [if_pos hlt, ← h, hhalf]
  · rw [if_neg (Nat.lt_irrefl i), if_neg (Nat.lt_irrefl i)]
  · rw [if_neg (Nat.lt_asymm hgt), if_pos hgt, ← h, hhalf]

end Mat

end StagedQP
