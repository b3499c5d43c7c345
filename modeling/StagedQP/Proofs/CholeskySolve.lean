import StagedQP.Dense.Cholesky
import StagedQP.Proofs.ExactArithmetic

/-!
# Factors and triangular solves in exact arithmetic

With exact square roots a Cholesky factor is what its name says. `Cholesky.Factors c m n` states it
by entries: the stored matrix is lower triangular with a positive diagonal, and its product with its
own transpose is the table `m` on the first `n` rows and columns.

The factorization is a loop over columns. `Eliminated m n j a` is its invariant: after `j` steps the
first `j` columns of `a` are columns of the factor, and what is left below and to the right is the
remainder of `m`. Only the lower triangle of `m` takes part, so the invariant speaks of `k ≤ i`.

## Main results

* `Eliminated.step`, `eliminated_steps` — the invariant is kept by one step, hence by all.
* `Cholesky.factor_factors` — a symmetric matrix that has a factor is factored by it.
* `Cholesky.Factors.solveVec` — the two substitutions solve the factored system.
-/

namespace StagedQP

open Finset

variable {K : Type} [Field K] [LinearOrder K] [SquareRoot K]

/-! ## Substitution -/

namespace Vec

variable {α : Type} [Zero α]

/-- The entries before position `j` do not depend on how many follow. -/
theorem get_unfold_prefix (step : Vec α → Nat → α) {i j n : Nat} (hij : i < j) (hjn : j ≤ n) :
    (unfold step j).get i = (unfold step n).get i := by
  rw [get_unfold step hij, get_unfold step (Nat.lt_of_lt_of_le hij hjn)]

end Vec

namespace Mat

/-- Forward substitution solves a lower triangular system. -/
theorem rowSum_solveLower (l : Mat K) (b : Vec K) {n : Nat}
    (hlow : ∀ i k, i < k → l.get i k = 0) (hdiag : ∀ i < n, l.get i i ≠ 0) :
    ∀ i < n, rowSum l.get n (l.solveLower b n).get i = b.get i := by
  intro i hi
  have hstep : (l.solveLower b n).get i =
      (b.get i + ∑ k ∈ range i, -(l.get i k * (l.solveLower b n).get k)) / l.get i i := by
    rw [solveLower, Vec.get_unfold _ hi, Scalar.addUpTo_eq_sum]
    congr 2
    refine sum_congr rfl fun k hk => ?_
    rw [Vec.get_unfold_prefix _ (mem_range.1 hk) hi.le]
  have hsplit : rowSum l.get n (l.solveLower b n).get i =
      rowSum l.get i (l.solveLower b n).get i + l.get i i * (l.solveLower b n).get i := by
    obtain ⟨r, rfl⟩ : ∃ r, n = (i + 1) + r := ⟨n - (i + 1), by omega⟩
    rw [rowSum_split]
    have hzero : rowSum (fun p q => l.get p (i + 1 + q)) r
        (fun q => (l.solveLower b (i + 1 + r)).get (i + 1 + q)) i = 0 := by
      refine sum_eq_zero fun q _ => ?_
      show l.get i (i + 1 + q) * _ = 0
      rw [hlow i (i + 1 + q) (by omega), zero_mul]
    rw [hzero, add_zero, rowSum, sum_range_succ, rowSum]
  rw [sum_neg_distrib] at hstep
  rw [hsplit, rowSum]
  have := hdiag i hi
  field_simp at hstep
  linear_combination hstep

/-- Backward substitution solves the transposed system. -/
theorem colSum_solveLowerTr (l : Mat K) (y : Vec K) {n : Nat}
    (hlow : ∀ i k, i < k → l.get i k = 0) (hdiag : ∀ i < n, l.get i i ≠ 0) :
    ∀ i < n, colSum l.get n (l.solveLowerTr y n).get i = y.get i := by
  intro i hi
  obtain ⟨r, rfl⟩ : ∃ r, n = i + (1 + r) := ⟨n - (i + 1), by omega⟩
  set x := l.solveLowerTr y (i + (1 + r)) with hx
  have hstep : x.get i =
      (y.get i - ∑ k ∈ range r, l.get (i + 1 + k) i * x.get (i + 1 + k)) / l.get i i := by
    have hlen : i + (1 + r) - 1 - i = r := by omega
    have hpos : i + (1 + r) - 1 - r = i := by omega
    rw [hx, solveLowerTr, Vec.get_ofFn_of_lt _ hi, Vec.get_unfold _ (by omega)]
    simp only [Scalar.sumUpTo_eq_sum, hlen, hpos]
    congr 2
    refine sum_congr rfl fun k hk => ?_
    have hk' := mem_range.1 hk
    rw [Vec.get_ofFn_of_lt _ (by omega), Vec.get_unfold_prefix _ (j := r)
      (n := i + (1 + r)) (by omega) (by omega)]
    congr 2
    omega
  have hsplit : colSum l.get (i + (1 + r)) x.get i =
      l.get i i * x.get i + ∑ k ∈ range r, l.get (i + 1 + k) i * x.get (i + 1 + k) := by
    have hzero : ∑ k ∈ range i, l.get k i * x.get k = 0 := by
      refine sum_eq_zero fun k hk => ?_
      rw [hlow k i (mem_range.1 hk), zero_mul]
    rw [colSum, sum_range_add, hzero, zero_add, sum_range_add, sum_range_one]
    simp only [Nat.add_zero, Nat.add_assoc]
  rw [hsplit]
  have := hdiag i hi
  field_simp at hstep
  linear_combination hstep

end Mat

/-! ## Factorization -/

/-- After `j` steps on the table `m` of size `n`, the matrix `a` holds `j` columns of the factor and
the remainder of `m`. -/
structure Eliminated (m : Nat → Nat → K) (n j : Nat) (a : Mat K) : Prop where
  /-- The shape does not change. -/
  rows : a.rows = n
  /-- The shape does not change. -/
  cols : a.cols = n
  /-- Finished columns vanish above the diagonal. -/
  above : ∀ l < j, ∀ i < l, a.get i l = 0
  /-- Finished columns have a positive diagonal. -/
  diag : ∀ l < j, l < n → 0 < a.get l l
  /-- The lower triangle of `m` is the product of the finished columns plus the remainder. -/
  prod : ∀ i < n, ∀ k ≤ i,
    m i k = ∑ l ∈ range j, a.get i l * a.get k l + if j ≤ k then a.get i k else 0

namespace Cholesky

/-- Entry `(i, k)` after one step, for a pivot greater than zero. -/
theorem get_of_eliminate {m a : Mat K} {j : Nat} (h : eliminate m j = some a) {i k : Nat}
    (hi : i < m.rows) (hk : k < m.cols) :
    a.get i k = if k < j then m.get i k
      else if k = j then (pivotColumn m j).get i
      else m.get i k - (pivotColumn m j).get k * (pivotColumn m j).get i := by
  rw [eliminate] at h
  split at h
  · cases h
    exact Mat.get_ofFn_of_lt _ hi hk
  · cases h

theorem pivot_pos_of_eliminate {m a : Mat K} {j : Nat} (h : eliminate m j = some a) :
    0 < m.get j j := by
  rw [eliminate] at h
  split at h
  · exact (Scalar.lt_iff _ _).1 ‹_›
  · cases h

theorem shape_of_eliminate {m a : Mat K} {j : Nat} (h : eliminate m j = some a) :
    a.rows = m.rows ∧ a.cols = m.cols := by
  rw [eliminate] at h
  split at h
  · cases h
    exact ⟨rfl, rfl⟩
  · cases h

end Cholesky

open Cholesky in
/-- One step of the factorization keeps the invariant. -/
theorem Eliminated.step [ExactRoots K] {m : Nat → Nat → K} {n j : Nat} {a a' : Mat K}
    (hj : j < n) (h : Eliminated m n j a) (hstep : eliminate a j = some a') :
    Eliminated m n (j + 1) a' := by
  have hpivot := pivot_pos_of_eliminate hstep
  have hroot : 0 < SquareRoot.sqrt (a.get j j) := ExactRoots.sqrt_pos hpivot
  have hsquare := ExactRoots.sqrt_mul_self hpivot
  obtain ⟨hrows, hcols⟩ := shape_of_eliminate hstep
  have hget : ∀ i < n, ∀ k < n, a'.get i k = if k < j then a.get i k
      else if k = j then (pivotColumn a j).get i
      else a.get i k - (pivotColumn a j).get k * (pivotColumn a j).get i :=
    fun i hi k hk => get_of_eliminate hstep (h.rows ▸ hi) (h.cols ▸ hk)
  have hcol : ∀ i < n, (pivotColumn a j).get i =
      if i < j then 0 else if i = j then SquareRoot.sqrt (a.get j j)
      else a.get i j / SquareRoot.sqrt (a.get j j) :=
    fun i hi => Vec.get_ofFn_of_lt _ (h.rows ▸ hi)
  have hold : ∀ i < n, ∀ l < j, a'.get i l = a.get i l := by
    intro i hi l hl
    rw [hget i hi l (by omega), if_pos hl]
  have hnew : ∀ i < n, a'.get i j = (pivotColumn a j).get i := by
    intro i hi
    rw [hget i hi j hj, if_neg (Nat.lt_irrefl j), if_pos rfl]
  refine ⟨hrows.trans h.rows, hcols.trans h.cols, ?_, ?_, ?_⟩
  · intro l hl i hil
    rcases Nat.lt_succ_iff_lt_or_eq.1 hl with hlt | rfl
    · rw [hold i (by omega) l hlt]
      exact h.above l hlt i hil
    · rw [hnew i (by omega), hcol i (by omega), if_pos hil]
  · intro l hl hln
    rcases Nat.lt_succ_iff_lt_or_eq.1 hl with hlt | rfl
    · rw [hold l hln l hlt]
      exact h.diag l hlt hln
    · rw [hnew l hln, hcol l hln, if_neg (Nat.lt_irrefl l), if_pos rfl]
      exact hroot
  · intro i hi k hk
    have hsum : ∑ l ∈ range (j + 1), a'.get i l * a'.get k l =
        ∑ l ∈ range j, a.get i l * a.get k l
          + (pivotColumn a j).get i * (pivotColumn a j).get k := by
      rw [sum_range_succ, hnew i hi, hnew k (by omega)]
      congr 1
      refine sum_congr rfl fun l hl => ?_
      rw [hold i hi l (mem_range.1 hl), hold k (by omega) l (mem_range.1 hl)]
    rw [h.prod i hi k hk, hsum]
    rcases Nat.lt_trichotomy k j with hkj | rfl | hkj
    -- a finished row: the new column does not reach it
    · rw [hcol k (by omega), if_pos hkj, if_neg (by omega), if_neg (by omega)]
      ring
    -- the pivot row: the new column completes it
    · rw [hcol k (by omega), if_neg (Nat.lt_irrefl k), if_pos rfl, if_pos le_rfl,
        if_neg (by omega), hcol i hi, if_neg (by omega)]
      rcases Nat.eq_or_lt_of_le hk with rfl | hlt
      · rw [if_pos rfl, hsquare]
        ring
      · rw [if_neg (by omega), div_mul_cancel₀ _ hroot.ne']
        ring
    -- a row below: the new column moves from the remainder to the product
    · rw [if_pos (by omega), if_pos (by omega), hget i hi k (by omega), if_neg (by omega),
        if_neg (by omega)]
      ring

open Cholesky in
/-- All steps keep the invariant. -/
theorem eliminated_steps [ExactRoots K] (m : Mat K) (hsq : m.cols = m.rows) :
    ∀ j ≤ m.rows, ∀ a, steps m j = some a → Eliminated m.get m.rows j a := by
  intro j
  induction j with
  | zero =>
      intro _ a ha
      obtain rfl : m = a := Option.some.inj ha
      refine ⟨rfl, hsq, by omega, by omega, ?_⟩
      intro i _ k _
      simp
  | succ j ih =>
      intro hj a ha
      rw [steps] at ha
      obtain ⟨b, hb, hstep⟩ := Option.bind_eq_some_iff.1 ha
      exact (ih (by omega) b hb).step (by omega) hstep

namespace Cholesky

/-- The factor `c` factors the table `m` of size `n`. -/
structure Factors (c : Cholesky K) (m : Nat → Nat → K) (n : Nat) : Prop where
  /-- The size of the factor. -/
  size : c.size = n
  /-- The factor is lower triangular. -/
  above : ∀ i l, i < l → c.lower.get i l = 0
  /-- The diagonal is positive. -/
  diag : ∀ i < n, 0 < c.lower.get i i
  /-- The product of the factor with its transpose. -/
  prod : ∀ i < n, ∀ k < n, m i k = ∑ l ∈ range n, c.lower.get i l * c.lower.get k l

/-- A symmetric matrix that has a factor is factored by it. -/
theorem factor_factors [ExactRoots K] {m : Mat K} {c : Cholesky K} (hsq : m.cols = m.rows)
    (hsymm : ∀ i < m.rows, ∀ k < m.rows, m.get i k = m.get k i) (h : factor m = some c) :
    c.Factors m.get m.rows := by
  obtain ⟨a, ha, rfl⟩ := Option.map_eq_some_iff.1 h
  have he := eliminated_steps m hsq m.rows le_rfl a ha
  have hget : ∀ i < m.rows, ∀ l < m.rows,
      (Mat.ofFn m.rows m.rows fun i j => if j ≤ i then a.get i j else 0).get i l = a.get i l := by
    intro i hi l hl
    rw [Mat.get_ofFn_of_lt _ hi hl]
    split
    · rfl
    · exact (he.above l hl i (by omega)).symm
  have hprod : ∀ i < m.rows, ∀ k ≤ i,
      m.get i k = ∑ l ∈ range m.rows, a.get i l * a.get k l := by
    intro i hi k hk
    rw [he.prod i hi k hk, if_neg (by omega), add_zero]
  refine ⟨rfl, ?_, ?_, ?_⟩
  · intro i l hil
    rw [Mat.get_ofFn, if_neg (by omega : ¬ l ≤ i), ite_self]
  · intro i hi
    show 0 < (Mat.ofFn _ _ _).get i i
    rw [hget i hi i hi]
    exact he.diag i hi hi
  · intro i hi k hk
    have hsum : ∀ p < m.rows, ∀ q < m.rows,
        ∑ l ∈ range m.rows, (Mat.ofFn m.rows m.rows fun i j =>
          if j ≤ i then a.get i j else 0).get p l * (Mat.ofFn m.rows m.rows fun i j =>
          if j ≤ i then a.get i j else 0).get q l =
        ∑ l ∈ range m.rows, a.get p l * a.get q l := by
      intro p hp q hq
      refine sum_congr rfl fun l hl => ?_
      rw [hget p hp l (mem_range.1 hl), hget q hq l (mem_range.1 hl)]
    show m.get i k = ∑ l ∈ range m.rows, _
    rw [hsum i hi k hk]
    rcases Nat.le_total k i with hki | hik
    · exact hprod i hi k hki
    · rw [hsymm i hi k hk, hprod k hk i hik]
      exact sum_congr rfl fun l _ => mul_comm ..

/-- The two substitutions solve the factored system. -/
theorem Factors.solveVec {c : Cholesky K} {m : Nat → Nat → K} {n : Nat} (h : c.Factors m n)
    (b : Vec K) : ∀ i < n, rowSum m n (c.solveVec b).get i = b.get i := by
  intro i hi
  have hdiag : ∀ i < n, c.lower.get i i ≠ 0 := fun i hi => (h.diag i hi).ne'
  have hback : ∀ l < n, rowSum (fun l j => c.lower.get j l) n (c.solveVec b).get l =
      (c.lower.solveLower b n).get l := by
    intro l hl
    rw [Cholesky.solveVec, h.size]
    exact Mat.colSum_solveLowerTr c.lower _ h.above hdiag l hl
  calc rowSum m n (c.solveVec b).get i
      = rowSum c.lower.get n
          (rowSum (fun l j => c.lower.get j l) n (c.solveVec b).get) i :=
        rowSum_comp _ i fun j hj => h.prod i hi j hj
    _ = rowSum c.lower.get n (c.lower.solveLower b n).get i := rowSum_congr _ i hback
    _ = b.get i := Mat.rowSum_solveLower c.lower b h.above hdiag i hi

/-- Column by column, the substitutions solve the factored system with a matrix on the right. -/
theorem Factors.solve {c : Cholesky K} {m : Nat → Nat → K} {n : Nat} (h : c.Factors m n)
    (b : Mat K) {j : Nat} (hj : j < b.cols) (hb : n ≤ b.rows) :
    ∀ i < n, rowSum m n (fun l => (c.solve b).get l j) i = b.get i j := by
  intro i hi
  have hcol : ∀ l < n, (c.solve b).get l j = (c.solveVec (b.col j)).get l := by
    intro l hl
    exact Mat.get_mapCols _ _ _ (h.size ▸ hl) hj
  rw [rowSum_congr _ i hcol, h.solveVec _ i hi]
  exact Vec.get_ofFn_of_lt _ (by omega)

end Cholesky

end StagedQP
