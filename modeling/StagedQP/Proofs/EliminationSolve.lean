import Mathlib.LinearAlgebra.Matrix.Block
import StagedQP.Dense.Elimination
import StagedQP.Proofs.CholeskySolve
import StagedQP.Proofs.MatrixView

/-!
# Elimination in exact arithmetic

A step of the elimination exchanges two rows and takes multiples of one row off the rows below it,
in the matrix and in the right-hand side alike. Neither changes which combinations of columns agree
with which combinations of right-hand sides:

```text
System.Balanced s x z      (matrix) x = (right-hand side) z
```

With weights `z = 0` this is the kernel of the matrix, so the triangular matrix at the end is
invertible exactly when the matrix at the start is; with a single weight `1` it is a solution for
one right-hand side, so back substitution solves the system as it was given.

The choice of pivots matters in one place only. The candidate with the largest magnitude is zero
only when all candidates are, and a column that is passed over has no entry left below the diagonal.

## Main results

* `Elimination.Cleared.step`, `Elimination.cleared_steps` — one step, hence all of them.
* `Mat.solve?_eq_none_iff` — a system is refused exactly when its matrix is singular.
* `Mat.exactSolve_solve?` — the solution of a system that is not refused.
-/

namespace StagedQP

open Finset

variable {K : Type} [Field K] [LinearOrder K] [SquareRoot K]

/-! ## What a linear solve is for -/

/-- A linear solve in exact arithmetic: an answer is a solution; an invertible matrix has one. -/
structure ExactSolve (solve : Mat K → Mat K → Option (Mat K)) : Prop where
  /-- An answer has the right shape and solves the system. -/
  solves : ∀ {n c : Nat} {a b x : Mat K}, a.HasShape n n → b.HasShape n c → solve a b = some x →
    x.HasShape n c ∧ a.mul x = b
  /-- Only a singular matrix is refused. -/
  answers : ∀ {n c : Nat} {a b : Mat K}, a.HasShape n n → b.HasShape n c → a.IsInvertible →
    ∃ x, solve a b = some x

/-! ## Back substitution -/

/-- Back substitution solves an upper triangular system. -/
theorem Mat.rowSum_solveUpper (u : Mat K) (y : Vec K) {n : Nat}
    (hupper : ∀ i < n, ∀ j < i, u.get i j = 0) (hdiag : ∀ i < n, u.get i i ≠ 0) :
    ∀ i < n, rowSum u.get n (u.solveUpper y n).get i = y.get i := by
  intro i hi
  obtain ⟨r, rfl⟩ : ∃ r, n = i + (1 + r) := ⟨n - (i + 1), by omega⟩
  set x := u.solveUpper y (i + (1 + r)) with hx
  have hstep : x.get i =
      (y.get i + ∑ k ∈ range r, -(u.get i (i + 1 + k) * x.get (i + 1 + k))) / u.get i i := by
    have hlen : i + (1 + r) - 1 - i = r := by omega
    have hpos : i + (1 + r) - 1 - r = i := by omega
    rw [hx, solveUpper, Vec.get_ofFn_of_lt _ hi, Vec.get_unfold _ (by omega)]
    simp only [Scalar.addUpTo_eq_sum, hlen, hpos]
    congr 2
    -- the definition takes the columns off from the last one
    rw [← sum_range_reflect]
    refine sum_congr rfl fun k hk => ?_
    have hk' := mem_range.1 hk
    rw [Vec.get_ofFn_of_lt _ (by omega), mul_comm,
      Vec.get_unfold_prefix _ (j := r) (n := i + (1 + r)) (by omega) (by omega)]
    congr 3 <;> omega
  have hsplit : rowSum u.get (i + (1 + r)) x.get i =
      u.get i i * x.get i + ∑ k ∈ range r, u.get i (i + 1 + k) * x.get (i + 1 + k) := by
    have hzero : ∑ k ∈ range i, u.get i k * x.get k = 0 := by
      refine sum_eq_zero fun k hk => ?_
      rw [hupper i hi k (mem_range.1 hk), zero_mul]
    rw [rowSum, sum_range_add, hzero, zero_add, sum_range_add, sum_range_one]
    simp only [Nat.add_zero, Nat.add_assoc]
  rw [hsplit]
  have := hdiag i hi
  rw [sum_neg_distrib] at hstep
  field_simp at hstep
  linear_combination hstep

namespace Elimination

/-! ## Row operations -/

/-- The row that an exchange of rows `k` and `p` puts at `i`. -/
def exchanged (k p i : Nat) : Nat := if i = k then p else if i = p then k else i

theorem exchanged_lt {k p n i : Nat} (hk : k < n) (hp : p < n) (hi : i < n) :
    exchanged k p i < n := by
  unfold exchanged
  split
  · exact hp
  · split
    · exact hk
    · exact hi

theorem exchanged_exchanged (k p i : Nat) : exchanged k p (exchanged k p i) = i := by
  unfold exchanged
  by_cases hk : i = k <;> by_cases hp : i = p <;> by_cases hkp : p = k <;> simp_all

variable {n c k p : Nat} {x z : Nat → K}

theorem rowSum_swapRows {m : Mat K} (hr : m.rows = n) (hc : m.cols = c) (x : Nat → K) {i : Nat}
    (hi : i < n) : rowSum (swapRows m k p).get c x i = rowSum m.get c x (exchanged k p i) := by
  refine sum_congr rfl fun j hj => ?_
  rw [swapRows, Mat.get_ofFn_of_lt _ (hr.symm ▸ hi) (hc.symm ▸ mem_range.1 hj)]
  rfl

theorem rowSum_reduce {m : Mat K} (hr : m.rows = n) (hc : m.cols = c) (multiplier : Vec K)
    (x : Nat → K) {i : Nat} (hi : i < n) : rowSum (reduce m k multiplier).get c x i =
      if k < i then -rowSum m.get c x k * multiplier.get i + rowSum m.get c x i
      else rowSum m.get c x i := by
  have hget : ∀ j < c, (reduce m k multiplier).get i j =
      if k < i then -m.get k j * multiplier.get i + m.get i j else m.get i j :=
    fun j hj => Mat.get_ofFn_of_lt _ (hr.symm ▸ hi) (hc.symm ▸ hj)
  by_cases hki : k < i
  · simp only [if_pos hki] at hget ⊢
    rw [rowSum, rowSum, rowSum, ← sum_neg_distrib, sum_mul, ← sum_add_distrib]
    refine sum_congr rfl fun j hj => ?_
    rw [hget j (mem_range.1 hj)]
    ring
  · simp only [if_neg hki] at hget ⊢
    refine sum_congr rfl fun j hj => ?_
    rw [hget j (mem_range.1 hj)]

/-- The columns of the matrix with weights `x` make what the right-hand sides make with weights
`z`. -/
def System.Balanced (n c : Nat) (s : System K) (x z : Nat → K) : Prop :=
  ∀ i < n, rowSum s.matrix.get n x i = rowSum s.rhs.get c z i

theorem balanced_swapRows {a b : Mat K} (ha : a.HasShape n n) (hb : b.HasShape n c) (hk : k < n)
    (hp : p < n) : System.Balanced n c ⟨swapRows a k p, swapRows b k p⟩ x z ↔
      System.Balanced n c ⟨a, b⟩ x z := by
  have hrow : ∀ i < n, (rowSum (swapRows a k p).get n x i = rowSum (swapRows b k p).get c z i ↔
      rowSum a.get n x (exchanged k p i) = rowSum b.get c z (exchanged k p i)) := by
    intro i hi
    rw [rowSum_swapRows ha.rows ha.cols x hi, rowSum_swapRows hb.rows hb.cols z hi]
  constructor
  · intro h i hi
    have hi' := exchanged_lt hk hp hi
    have := (hrow _ hi').1 (h _ hi')
    rwa [exchanged_exchanged] at this
  · intro h i hi
    exact (hrow i hi).2 (h _ (exchanged_lt hk hp hi))

theorem balanced_reduce {a b : Mat K} (ha : a.HasShape n n) (hb : b.HasShape n c) (hk : k < n)
    (multiplier : Vec K) :
    System.Balanced n c ⟨reduce a k multiplier, reduce b k multiplier⟩ x z ↔
      System.Balanced n c ⟨a, b⟩ x z := by
  have hleft := fun {i : Nat} => rowSum_reduce (k := k) (i := i) ha.rows ha.cols multiplier x
  have hright := fun {i : Nat} => rowSum_reduce (k := k) (i := i) hb.rows hb.cols multiplier z
  constructor
  · intro h
    have hpivot : rowSum a.get n x k = rowSum b.get c z k := by
      have := h k hk
      rwa [hleft hk, hright hk, if_neg (lt_irrefl k), if_neg (lt_irrefl k)] at this
    intro i hi
    have hrow := h i hi
    rw [hleft hi, hright hi, hpivot] at hrow
    split at hrow
    · exact add_left_cancel hrow
    · exact hrow
  · intro h i hi
    rw [hleft hi, hright hi, h k hk, h i hi]

/-! ## The pivot -/

theorem isZero_iff (a : K) : Scalar.isZero a = true ↔ a = 0 := by
  rw [Scalar.isZero, Bool.and_eq_true, Scalar.le_iff, Scalar.le_iff, le_antisymm_iff]

omit [Field K] [LinearOrder K] [SquareRoot K] in
theorem pivotRow_bounds [Scalar K] (m : Mat K) (k d : Nat) :
    k ≤ pivotRow m k d ∧ pivotRow m k d ≤ k + d := by
  induction d with
  | zero => exact ⟨le_rfl, le_rfl⟩
  | succ d ih =>
      rw [pivotRow]
      split <;> omega

/-- No candidate is larger than the one chosen. -/
theorem abs_le_pivotRow (m : Mat K) (k d : Nat) :
    ∀ i, k ≤ i → i ≤ k + d → |m.get i k| ≤ |m.get (pivotRow m k d) k| := by
  induction d with
  | zero =>
      intro i hki hik
      obtain rfl : i = k := by omega
      exact le_rfl
  | succ d ih =>
      intro i hki hik
      rw [pivotRow]
      split
      · rename_i hlarger
        have hlarger := (Scalar.lt_iff _ _).1 hlarger
        by_cases hlast : i = k + d + 1
        · rw [hlast]
        · exact (ih i hki (by omega)).trans hlarger.le
      · rename_i hlarger
        have hlarger := not_lt.1 (mt (Scalar.lt_iff _ _).2 hlarger)
        by_cases hlast : i = k + d + 1
        · rw [hlast]
          exact hlarger
        · exact ih i hki (by omega)

/-! ## Steps -/

/-- The entries after a step whose pivot is in row `p`. -/
theorem get_reduce_swapRows {m : Mat K} (hm : m.HasShape n n) (hk : k < n) {i j : Nat} (hi : i < n)
    (hj : j < n) : (reduce (swapRows m k p) k (Vec.ofFn n fun i =>
        (swapRows m k p).get i k * (1 / (swapRows m k p).get k k))).get i j =
      if k < i then -m.get p j * (m.get (exchanged k p i) k * (1 / m.get p k))
        + m.get (exchanged k p i) j
      else m.get (exchanged k p i) j := by
  have hswapped : ∀ i < n, ∀ j < n,
      (swapRows m k p).get i j = m.get (exchanged k p i) j := fun i hi j hj =>
    Mat.get_ofFn_of_lt _ (hm.rows.symm ▸ hi) (hm.cols.symm ▸ hj)
  have hpivot : exchanged k p k = p := if_pos rfl
  rw [reduce, Mat.get_ofFn_of_lt _ (hm.rows.symm ▸ hi) (hm.cols.symm ▸ hj),
    Vec.get_ofFn_of_lt _ hi, hswapped k hk j hj, hswapped i hi j hj, hswapped i hi k hk,
    hswapped k hk k hk, hpivot]

/-- A step clears its column, and leaves those that are done. -/
theorem below_reduce {m : Mat K} (hm : m.HasShape n n) (hp : p < n) (hkp : k ≤ p)
    (hbelow : ∀ j < k, ∀ i < n, j < i → m.get i j = 0) (hpivot : m.get p k ≠ 0) :
    ∀ j < k + 1, ∀ i < n, j < i → (reduce (swapRows m k p) k (Vec.ofFn n fun i =>
      (swapRows m k p).get i k * (1 / (swapRows m k p).get k k))).get i j = 0 := by
  intro j hj i hi hji
  rw [get_reduce_swapRows hm (by omega) hi (by omega)]
  by_cases hjk : j < k
  -- the rows that take part have nothing in a column that is done
  · have hother : m.get (exchanged k p i) j = 0 := by
      refine hbelow j hjk _ (exchanged_lt (by omega) hp hi) ?_
      unfold exchanged
      split
      · omega
      · split <;> omega
    rw [hbelow j hjk p hp (by omega), hother]
    simp
  · obtain rfl : j = k := by omega
    rw [if_pos hji]
    field_simp
    ring

/-- What `k` steps make of the system `s₀`. -/
structure Cleared (n c k : Nat) (s₀ s : System K) : Prop where
  /-- The matrix keeps its shape. -/
  matrix : s.matrix.HasShape n n
  /-- The right-hand side keeps its shape. -/
  rhs : s.rhs.HasShape n c
  /-- The columns that are done vanish below the diagonal. -/
  below : ∀ j < k, ∀ i < n, j < i → s.matrix.get i j = 0
  /-- The same combinations agree. -/
  balanced : ∀ x z, s.Balanced n c x z ↔ s₀.Balanced n c x z

/-- One step. -/
theorem Cleared.step [IsStrictOrderedRing K] {s₀ s : System K} (h : Cleared n c k s₀ s)
    (hk : k < n) : Cleared n c (k + 1) s₀ (Elimination.step s k) := by
  obtain ⟨hle, hub⟩ := pivotRow_bounds s.matrix k (n - 1 - k)
  have hlargest := abs_le_pivotRow s.matrix k (n - 1 - k)
  rw [Elimination.step, h.matrix.rows]
  dsimp only
  set p := pivotRow s.matrix k (n - 1 - k) with hp
  have hpn : p < n := by omega
  by_cases hzero : Scalar.isZero (s.matrix.get p k) = true
  · rw [if_pos hzero]
    refine { h with below := fun j hj i hi hji => ?_ }
    by_cases hjk : j < k
    · exact h.below j hjk i hi hji
    -- the largest candidate is zero, so all are
    · obtain rfl : j = k := by omega
      have hentry := hlargest i (by omega) (by omega)
      rw [(isZero_iff _).1 hzero, abs_zero] at hentry
      exact abs_nonpos_iff.1 hentry
  · rw [if_neg hzero]
    have hpivot : s.matrix.get p k ≠ 0 := fun h0 => hzero ((isZero_iff _).2 h0)
    have ha : (swapRows s.matrix k p).HasShape n n :=
      ⟨h.matrix.rows, h.matrix.cols, Mat.wellFormed_ofFn ..⟩
    have hb : (swapRows s.rhs k p).HasShape n c :=
      ⟨h.rhs.rows, h.rhs.cols, Mat.wellFormed_ofFn ..⟩
    refine ⟨⟨ha.rows, ha.cols, Mat.wellFormed_ofFn ..⟩, ⟨hb.rows, hb.cols, Mat.wellFormed_ofFn ..⟩,
      below_reduce h.matrix hpn hle h.below hpivot, fun x z => ?_⟩
    rw [balanced_reduce ha hb hk, balanced_swapRows h.matrix h.rhs hk hpn]
    exact h.balanced x z

/-- All steps. -/
theorem cleared_steps [IsStrictOrderedRing K] {s : System K} (ha : s.matrix.HasShape n n)
    (hb : s.rhs.HasShape n c) : ∀ k ≤ n, Cleared n c k s (steps s k) := by
  intro k
  induction k with
  | zero => exact fun _ => ⟨ha, hb, by omega, fun _ _ => Iff.rfl⟩
  | succ k ih => exact fun hk => (ih (by omega)).step (by omega)

/-! ## The triangular system -/

omit [LinearOrder K] [SquareRoot K] in
/-- The triangular matrix is invertible exactly when the matrix at the start is. -/
theorem Cleared.isInvertible_iff {s₀ s : System K} (h : Cleared n c k s₀ s)
    (h₀ : s₀.matrix.rows = n) : s.matrix.IsInvertible ↔ s₀.matrix.IsInvertible := by
  have hkernel : ∀ (t : System K) (x : Nat → K), (∀ i < n, rowSum t.matrix.get n x i = 0) ↔
      t.Balanced n c x fun _ => 0 := by
    intro t x
    simp [System.Balanced, rowSum]
  rw [Mat.isInvertible_iff h.matrix.rows, Mat.isInvertible_iff h₀]
  refine forall_congr' fun x => imp_congr_left ?_
  rw [hkernel s x, hkernel s₀ x]
  exact h.balanced x _

omit [LinearOrder K] [SquareRoot K] in
/-- An upper triangular matrix is invertible exactly when its diagonal has no zero. -/
theorem Cleared.isInvertible_iff_diag {s₀ s : System K} (h : Cleared n c n s₀ s) :
    s.matrix.IsInvertible ↔ ∀ i < n, s.matrix.get i i ≠ 0 := by
  have htriangular : (s.matrix.toMatrix n n).BlockTriangular id :=
    fun i j hji => h.below j j.2 i i.2 hji
  rw [Mat.IsInvertible, h.matrix.rows, Matrix.isUnit_iff_isUnit_det, isUnit_iff_ne_zero,
    Matrix.det_of_isUpperTriangular htriangular, prod_ne_zero_iff]
  exact ⟨fun hprod i hi => hprod ⟨i, hi⟩ (mem_univ _), fun hdiag i _ => hdiag i i.2⟩

omit [LinearOrder K] [SquareRoot K] in
/-- A solution of the triangular system for right-hand side `j` solves the system at the start. -/
theorem Cleared.solves {s₀ s : System K} (h : Cleared n c k s₀ s) {j : Nat} (hj : j < c)
    (hx : ∀ i < n, rowSum s.matrix.get n x i = s.rhs.get i j) :
    ∀ i < n, rowSum s₀.matrix.get n x i = s₀.rhs.get i j := by
  have hsingle : ∀ (t : System K) (i : Nat),
      rowSum t.rhs.get c (fun l => if l = j then 1 else 0) i = t.rhs.get i j := by
    intro t i
    simp [rowSum, hj]
  intro i hi
  rw [← hsingle s₀ i]
  refine (h.balanced x _).1 (fun i hi => ?_) i hi
  rw [hsingle s i]
  exact hx i hi

end Elimination

/-! ## The solver -/

namespace Mat

open Elimination

variable [IsStrictOrderedRing K] {n c : Nat} {a b : Mat K}

/-- A system is refused exactly when there is something to solve and its matrix is singular. -/
theorem solve?_eq_none_iff (ha : a.HasShape n n) (hb : b.HasShape n c) :
    a.solve? b = none ↔ c ≠ 0 ∧ ¬ a.IsInvertible := by
  have hcleared := cleared_steps (s := ⟨a, b⟩) ha hb n le_rfl
  have hzero : ((List.range n).any fun i =>
      Scalar.isZero ((steps ⟨a, b⟩ n).matrix.get i i)) = true ↔ ¬ a.IsInvertible := by
    rw [← hcleared.isInvertible_iff ha.rows, hcleared.isInvertible_iff_diag, List.any_eq_true]
    simp [isZero_iff]
  rw [solve?, ha.rows, hb.cols]
  rw [← hzero]
  split <;> simp_all

/-- Whatever is not refused is solved. -/
theorem mul_of_solve?_eq_some (ha : a.HasShape n n) (hb : b.HasShape n c) {x : Mat K}
    (h : a.solve? b = some x) : x.HasShape n c ∧ a.mul x = b := by
  have hcleared := cleared_steps (s := ⟨a, b⟩) ha hb n le_rfl
  have hinvertible : c ≠ 0 → a.IsInvertible := by
    intro hc
    by_contra hsingular
    rw [(solve?_eq_none_iff ha hb).2 ⟨hc, hsingular⟩] at h
    cases h
  rw [solve?, ha.rows] at h
  split at h
  · cases h
  · obtain rfl := Option.some.inj h
    set s := steps ⟨a, b⟩ n with hs
    set x := s.rhs.mapCols n fun y => s.matrix.solveUpper y n with hxdef
    have hx : x.HasShape n c := ⟨rfl, hcleared.rhs.cols, wellFormed_ofFn ..⟩
    refine ⟨hx, ext_get (wellFormed_ofFn ..) hb.wellFormed (ha.rows.trans hb.rows.symm)
      (hx.cols.trans hb.cols.symm) fun i hi j hj => ?_⟩
    have hj' : j < c := hx.cols ▸ hj
    have hdiag := hcleared.isInvertible_iff_diag.1
      ((hcleared.isInvertible_iff ha.rows).2 (hinvertible (by omega)))
    have hcolumn : ∀ l < n, rowSum s.matrix.get n (fun l => x.get l j) l = s.rhs.get l j := by
      intro l hl
      have hback := rowSum_solveUpper s.matrix (s.rhs.col j)
        (fun i hi k hki => hcleared.below k (by omega) i hi hki) hdiag l hl
      rw [col, Vec.get_ofFn_of_lt _ (hcleared.rhs.rows.symm ▸ hl)] at hback
      rw [← hback]
      exact rowSum_congr _ l fun q hq =>
        get_mapCols _ _ _ hq (hcleared.rhs.cols.symm ▸ hj')
    rw [get_mul a x hi hj, Scalar.sumUpTo_eq_sum, ha.cols]
    exact hcleared.solves hj' hcolumn i (ha.rows ▸ hi)

/-- Elimination is a linear solve in exact arithmetic. -/
theorem exactSolve_solve? : ExactSolve (solve? : Mat K → Mat K → Option (Mat K)) where
  solves ha hb h := mul_of_solve?_eq_some ha hb h
  answers ha hb hinvertible := by
    rw [← Option.ne_none_iff_exists']
    intro hnone
    exact ((solve?_eq_none_iff ha hb).1 hnone).2 hinvertible

end Mat

end StagedQP
