import StagedQP.Proofs.CostToGo

/-!
# Factors of positive semidefinite blocks

A Cholesky factorization breaks down at a pivot that is not positive. Each pivot is a value of the
quadratic form: for the pivot of column `j` there is a vector that ends with a one at position `j`
and is orthogonal to the columns of the factor before it, and the form at that vector is the pivot
(`exists_form_eq_pivot`). Conversely no vector that ends so takes the form below that pivot. So
lower bounds for the form on vectors that end with a one at `j`, one bound for each `j`, are lower
bounds for the pivots, and with them for the squared diagonal entries of the finished factor.

This settles what happens to a control block that is only semidefinite: if it cannot be factored as
it is, the first admissible shift, `10⁻¹²` of its scale, lifts every pivot above the least one
accepted, `10⁻¹⁴` of its scale.

## Main results

* `exists_form_eq_pivot` — a pivot is a value of the form.
* `Cholesky.exists_factor` — a form with positive bounds has a factor whose pivots keep them.
* `Cholesky.Factors.endBounded` — the pivots of a factor are bounds of the form.
* `ControlFactor.exists_of?` — a semidefinite control block is factored as it is or with the first
  shift.
-/

namespace StagedQP

open Finset

variable {K : Type} [Field K]

/-! ## Quadratic forms of tables -/

/-- The quadratic form of the first `n` rows and columns of a table. -/
def quadForm (a : Nat → Nat → K) (n : Nat) (x : Nat → K) : K := ∑ i ∈ range n, x i * rowSum a n x i

/-- The sum of the squares of the first `n` entries. -/
def sumSquares (n : Nat) (x : Nat → K) : K := ∑ i ∈ range n, x i * x i

theorem quadForm_congr (a : Nat → Nat → K) {n : Nat} {x y : Nat → K} (h : ∀ i < n, x i = y i) :
    quadForm a n x = quadForm a n y := by
  refine sum_congr rfl fun i hi => ?_
  rw [h i (mem_range.1 hi), rowSum_congr _ i h]

theorem quadForm_congr_table {a b : Nat → Nat → K} {n : Nat} (x : Nat → K)
    (h : ∀ i < n, ∀ j < n, a i j = b i j) : quadForm a n x = quadForm b n x := by
  refine sum_congr rfl fun i hi => ?_
  rw [rowSum_congr_table x i (h i (mem_range.1 hi))]

theorem quadForm_add (a b : Nat → Nat → K) (n : Nat) (x : Nat → K) :
    quadForm (fun i j => a i j + b i j) n x = quadForm a n x + quadForm b n x := by
  simp only [quadForm, rowSum, add_mul, sum_add_distrib, mul_add]

theorem colSum_of_symm {a : Nat → Nat → K} {n : Nat} (h : SymmetricUpTo n a) (x : Nat → K)
    {j : Nat} (hj : j < n) : colSum a n x j = rowSum a n x j := by
  refine sum_congr rfl fun i hi => ?_
  rw [h i (mem_range.1 hi) j hj]

/-- The form of a symmetric table about a point. -/
theorem quadForm_expansion {a : Nat → Nat → K} {n : Nat} (hsymm : SymmetricUpTo n a)
    (v z : Nat → K) : quadForm a n z = quadForm a n v +
      2 * ∑ i ∈ range n, rowSum a n v i * (z i - v i) + quadForm a n fun i => z i - v i := by
  have hcross : ∑ i ∈ range n, v i * rowSum a n (fun j => z j - v j) i =
      ∑ i ∈ range n, rowSum a n v i * (z i - v i) := by
    rw [sum_mul_rowSum]
    refine sum_congr rfl fun j hj => ?_
    rw [colSum_of_symm hsymm v (mem_range.1 hj)]
  have hterm : ∀ i ∈ range n, z i * rowSum a n z i =
      v i * rowSum a n v i + v i * rowSum a n (fun j => z j - v j) i +
        rowSum a n v i * (z i - v i) + (z i - v i) * rowSum a n (fun j => z j - v j) i := by
    intro i _
    rw [rowSum_sub]
    ring
  rw [quadForm, sum_congr rfl hterm, sum_add_distrib, sum_add_distrib, sum_add_distrib, hcross,
    quadForm, quadForm]
  ring

/-- The form of a product of a table with its transpose is a sum of squares. -/
theorem quadForm_gram (l : Nat → Nat → K) (p n : Nat) (x : Nat → K) :
    quadForm (fun i k => ∑ q ∈ range p, l i q * l k q) n x = sumSquares p (colSum l n x) := by
  have hrow : ∀ i, rowSum (fun i k => ∑ q ∈ range p, l i q * l k q) n x i =
      rowSum l p (colSum l n x) i := fun i =>
    rowSum_comp (a := l) (b := fun q k => l k q) x i fun _ _ => rfl
  rw [quadForm, sum_congr rfl fun i _ => by rw [hrow i], sum_mul_rowSum]
  rfl

/-- A vector that ends early sees only the table up to there. -/
theorem quadForm_leading (a : Nat → Nat → K) {m n : Nat} (hmn : m ≤ n) {x : Nat → K}
    (hx : ∀ i, m ≤ i → x i = 0) : quadForm a n x = quadForm a m x := by
  have hzero : ∀ f : Nat → K, (∀ i, m ≤ i → f i = 0) → ∑ i ∈ range n, f i = ∑ i ∈ range m, f i := by
    intro f hf
    refine (sum_subset (range_mono hmn) fun i _ hi => ?_).symm
    exact hf i (Nat.not_lt.1 fun h => hi (mem_range.2 h))
  have hrow : ∀ i, rowSum a n x i = rowSum a m x i := fun i =>
    hzero _ fun j hj => by rw [hx j hj, mul_zero]
  rw [quadForm, hzero _ fun i hi => by rw [hx i hi, zero_mul]]
  exact sum_congr rfl fun i _ => by rw [hrow]

theorem quadForm_shiftDiagonal (shift : K) (a : Nat → Nat → K) (n : Nat) (x : Nat → K) :
    quadForm (shiftDiagonal shift a) n x = quadForm a n x + shift * sumSquares n x := by
  rw [quadForm, quadForm, sumSquares, mul_sum, ← sum_add_distrib]
  refine sum_congr rfl fun i hi => ?_
  rw [rowSum_shiftDiagonal shift a x (mem_range.1 hi)]
  ring

variable [LinearOrder K]

/-- The table is positive semidefinite on its first `n` rows and columns. -/
def SemidefiniteUpTo (n : Nat) (a : Nat → Nat → K) : Prop := ∀ x, 0 ≤ quadForm a n x

/-- The form on the first `n` entries is at least `bound j` at vectors that end with a one at
position `j`. -/
def EndBounded (bound : Nat → K) (n : Nat) (a : Nat → Nat → K) : Prop :=
  ∀ j < n, ∀ x : Nat → K, x j = 1 → (∀ i, j < i → x i = 0) → bound j ≤ quadForm a n x

theorem sumSquares_nonneg [IsStrictOrderedRing K] (n : Nat) (x : Nat → K) : 0 ≤ sumSquares n x :=
  sum_nonneg fun i _ => mul_self_nonneg (x i)

variable [SquareRoot K]

/-! ## Pivots as values of the form -/

/-- There is a vector that ends with a one at position `j` and is orthogonal to the `j` columns of a
lower triangular table. -/
theorem exists_orthogonal {l : Nat → Nat → K} {j : Nat} (hlow : ∀ i k, i < k → k < j → l i k = 0)
    (hdiag : ∀ i < j, l i i ≠ 0) : ∃ x : Nat → K, x j = 1 ∧ (∀ i, j < i → x i = 0) ∧
      ∀ k < j, colSum l (j + 1) x k = 0 := by
  set m : Mat K := Mat.ofFn j j l with hm
  set y : Vec K := m.solveLowerTr (Vec.ofFn j fun k => -l j k) j with hy
  have hget : ∀ i < j, ∀ k < j, m.get i k = l i k := fun i hi k hk => Mat.get_ofFn_of_lt _ hi hk
  have hmlow : ∀ i k, i < k → m.get i k = 0 := by
    intro i k hik
    rw [hm, Mat.get_ofFn]
    split
    · exact hlow i k hik (And.right ‹_›)
    · rfl
  have hmdiag : ∀ i < j, m.get i i ≠ 0 := fun i hi => hget i hi i hi ▸ hdiag i hi
  obtain ⟨x, hx⟩ : ∃ x : Nat → K, ∀ i, x i = if i < j then y.get i else if i = j then 1 else 0 :=
    ⟨_, fun _ => rfl⟩
  have hone : x j = 1 := by rw [hx, if_neg (Nat.lt_irrefl j), if_pos rfl]
  refine ⟨x, hone, fun i hi => ?_, fun k hk => ?_⟩
  · rw [hx, if_neg (by omega), if_neg (by omega)]
  · have hsolve := Mat.colSum_solveLowerTr m (Vec.ofFn j fun k => -l j k) hmlow hmdiag k hk
    rw [Vec.get_ofFn_of_lt _ hk, ← hy] at hsolve
    have hbefore : ∑ i ∈ range j, l i k * x i = colSum m.get j y.get k := by
      refine sum_congr rfl fun i hi => ?_
      rw [hx, if_pos (mem_range.1 hi), hget i (mem_range.1 hi) k hk]
    rw [colSum, sum_range_succ, hbefore, hsolve, hone, mul_one]
    exact neg_add_cancel _

/-- A table that is a product of triangular columns up to one more entry takes that entry as a value
of its form, at a vector with a one at its end. -/
theorem exists_form_eq_pivot {m l : Nat → Nat → K} {j : Nat} {d : K}
    (hlow : ∀ i k, i < k → k < j → l i k = 0) (hdiag : ∀ i < j, l i i ≠ 0)
    (hprod : ∀ i ≤ j, ∀ k ≤ j, m i k =
      ∑ q ∈ range j, l i q * l k q + if i = j ∧ k = j then d else 0) :
    ∃ x : Nat → K, x j = 1 ∧ (∀ i, j < i → x i = 0) ∧ ∀ n, j < n → quadForm m n x = d := by
  obtain ⟨x, hone, hend, horth⟩ := exists_orthogonal hlow hdiag
  refine ⟨x, hone, hend, fun n hn => ?_⟩
  have hcolumns : sumSquares j (colSum l (j + 1) x) = 0 := by
    refine sum_eq_zero fun q hq => ?_
    rw [horth q (mem_range.1 hq), mul_zero]
  have hrow : ∀ i ≤ j, rowSum (fun i k => if i = j ∧ k = j then d else 0) (j + 1) x i =
      if i = j then d else 0 := by
    intro i hi
    by_cases hij : i = j
    · simp [rowSum, hij, hone]
    · simp [rowSum, hij]
  have hentry : quadForm (fun i k => if i = j ∧ k = j then d else 0) (j + 1) x = d := by
    rw [quadForm, sum_congr rfl fun i hi => by
      rw [hrow i (Nat.lt_succ_iff.1 (mem_range.1 hi))]]
    simp [hone]
  rw [quadForm_leading m hn fun i hi => hend i (by omega),
    quadForm_congr_table x fun i hi k hk =>
      hprod i (Nat.lt_succ_iff.1 hi) k (Nat.lt_succ_iff.1 hk),
    quadForm_add, quadForm_gram, hcolumns, hentry, zero_add]

omit [SquareRoot K] in
/-- A form that stays above `s |x|²` is bounded by `s` at every end. -/
theorem endBounded_of_sumSquares [IsStrictOrderedRing K] {m : Nat → Nat → K} {n : Nat} {s : K}
    (hs : 0 ≤ s) (hform : ∀ x, s * sumSquares n x ≤ quadForm m n x) :
    EndBounded (fun _ => s) n m := by
  intro j hj x hone _
  have hsquare : 1 ≤ sumSquares n x := by
    have hterm : x j * x j ≤ sumSquares n x :=
      single_le_sum (f := fun i => x i * x i) (fun i _ => mul_self_nonneg (x i)) (mem_range.2 hj)
    rwa [hone, mul_one] at hterm
  calc s = s * 1 := (mul_one s).symm
    _ ≤ s * sumSquares n x := mul_le_mul_of_nonneg_left hsquare hs
    _ ≤ quadForm m n x := hform x

/-! ## Factors -/

namespace Cholesky

theorem pivotsExceed_iff (c : Cholesky K) (bound : K) : c.pivotsExceed bound = true ↔
    ∀ i < c.size, bound < c.lower.get i i * c.lower.get i i := by
  rw [pivotsExceed, List.all_eq_true]
  simp only [List.mem_range, Scalar.isFinite_exact, Bool.true_and, Scalar.lt_iff]

variable [ExactRoots K]

section Definite

variable {m : Mat K} (hsq : m.cols = m.rows) (hsymm : SymmetricUpTo m.rows m.get) {bound : Nat → K}
  (hform : EndBounded bound m.rows m.get)

include hsq hsymm hform

/-- Every pivot keeps its bound. -/
theorem le_pivot {j : Nat} {a : Mat K} (hj : j < m.rows) (ha : steps m j = some a) :
    bound j ≤ a.get j j := by
  have he := eliminated_steps m hsq j hj.le a ha
  have hlower : ∀ i ≤ j, ∀ k ≤ i, m.get i k =
      ∑ q ∈ range j, a.get i q * a.get k q + if i = j ∧ k = j then a.get j j else 0 := by
    intro i hi k hk
    rw [he.prod i (by omega) k hk]
    congr 1
    by_cases hjk : j ≤ k
    · obtain rfl : k = j := by omega
      obtain rfl : i = k := by omega
      rw [if_pos le_rfl, if_pos ⟨rfl, rfl⟩]
    · rw [if_neg hjk, if_neg (by omega)]
  obtain ⟨x, hone, hend, hx⟩ := exists_form_eq_pivot (m := m.get) (l := a.get) (d := a.get j j)
    (fun i k hik hk => he.above k hk i hik) (fun i hi => (he.diag i hi (by omega)).ne')
    fun i hi k hk => by
      rcases Nat.le_total k i with hki | hik
      · exact hlower i hi k hki
      · rw [hsymm i (by omega) k (by omega), hlower k hk i hik]
        simp only [mul_comm, and_comm]
  exact (hform j hj x hone hend).trans_eq (hx m.rows hj)

/-- With positive bounds no elimination breaks down. -/
theorem exists_steps (hpos : ∀ j < m.rows, 0 < bound j) :
    ∀ j ≤ m.rows, ∃ a, steps m j = some a := by
  intro j
  induction j with
  | zero => exact fun _ => ⟨m, rfl⟩
  | succ j ih =>
      intro hj
      obtain ⟨a, ha⟩ := ih (by omega)
      have hpivot : 0 < a.get j j := (hpos j hj).trans_le (le_pivot hsq hsymm hform hj ha)
      rw [steps, ha, Option.bind_some, eliminate, if_pos ((Scalar.lt_iff _ _).2 hpivot)]
      exact ⟨_, rfl⟩

omit hsq hsymm [ExactRoots K] in
/-- The squared diagonal entries of a factor keep the bounds. -/
theorem Factors.le_diag {c : Cholesky K} (hc : c.Factors m.get m.rows) {j : Nat}
    (hj : j < m.rows) : bound j ≤ c.lower.get j j * c.lower.get j j := by
  have hprod : ∀ i ≤ j, ∀ k ≤ j, m.get i k = ∑ q ∈ range j, c.lower.get i q * c.lower.get k q +
      if i = j ∧ k = j then c.lower.get j j * c.lower.get j j else 0 := by
    intro i hi k hk
    obtain ⟨r, hr⟩ : ∃ r, m.rows = j + 1 + r := ⟨m.rows - (j + 1), by omega⟩
    have hrest : ∑ q ∈ range r, c.lower.get i (j + 1 + q) * c.lower.get k (j + 1 + q) = 0 := by
      refine sum_eq_zero fun q _ => ?_
      rw [hc.above i (j + 1 + q) (by omega), zero_mul]
    rw [hc.prod i (by omega) k (by omega), hr, sum_range_add, sum_range_succ, hrest, add_zero]
    congr 1
    by_cases hij : i = j
    · by_cases hkj : k = j
      · rw [if_pos ⟨hij, hkj⟩, hij, hkj]
      · rw [if_neg fun h => hkj h.2, hc.above k j (by omega), mul_zero]
    · rw [if_neg fun h => hij h.1, hc.above i j (by omega), zero_mul]
  obtain ⟨x, hone, hend, hx⟩ := exists_form_eq_pivot (m := m.get) (l := c.lower.get)
    (fun i k hik _ => hc.above i k hik) (fun i hi => (hc.diag i (by omega)).ne') hprod
  exact (hform j hj x hone hend).trans_eq (hx m.rows hj)

/-- A form with positive bounds has a factor, whose squared diagonal entries keep them. -/
theorem exists_factor (hpos : ∀ j < m.rows, 0 < bound j) :
    ∃ c, factor m = some c ∧ c.size = m.rows ∧
      ∀ j < m.rows, bound j ≤ c.lower.get j j * c.lower.get j j := by
  obtain ⟨a, ha⟩ := exists_steps hsq hsymm hform hpos m.rows le_rfl
  have hfactor : factor m =
      some ⟨Mat.ofFn m.rows m.rows fun i j => if j ≤ i then a.get i j else 0⟩ := by
    rw [factor, ha, Option.map_some]
  have hfactors := factor_factors hsq hsymm hfactor
  exact ⟨_, hfactor, hfactors.size, fun j hj => Factors.le_diag hform hfactors hj⟩

end Definite

omit [SquareRoot K] [ExactRoots K] in
/-- No vector that ends with a one takes the form of a factored table below the pivot there. -/
theorem Factors.endBounded [IsStrictOrderedRing K] {c : Cholesky K} {m : Nat → Nat → K} {n : Nat}
    (hc : c.Factors m n) : EndBounded (fun j => c.lower.get j j * c.lower.get j j) n m := by
  intro j hj x hone hend
  have hsum : quadForm m n x = sumSquares n (colSum c.lower.get n x) := by
    rw [quadForm_congr_table x hc.prod, quadForm_gram]
  -- of column `j` the vector only sees the diagonal
  have hcolumn : colSum c.lower.get n x j = c.lower.get j j := by
    rw [colSum, sum_eq_single j]
    · rw [hone, mul_one]
    · intro i _ hij
      rcases Nat.lt_or_gt_of_ne hij with hlt | hgt
      · rw [hc.above i j hlt, zero_mul]
      · rw [hend i hgt, mul_zero]
    · exact fun hnot => absurd (mem_range.2 hj) hnot
  calc c.lower.get j j * c.lower.get j j
      = colSum c.lower.get n x j * colSum c.lower.get n x j := by rw [hcolumn]
    _ ≤ sumSquares n (colSum c.lower.get n x) :=
      single_le_sum (f := fun i => colSum c.lower.get n x i * colSum c.lower.get n x i)
        (fun i _ => mul_self_nonneg _) (mem_range.2 hj)
    _ = quadForm m n x := hsum.symm

end Cholesky

/-! ## Control blocks -/

namespace ControlFactor

theorem one_le_scale (m : Mat K) : 1 ≤ scale m := Scalar.le_maxUpTo ..

variable [IsStrictOrderedRing K]

/-- The first shift is larger than the least pivot. -/
theorem leastPivot_lt (m : Mat K) :
    (leastPivot : K) * scale m < Scalar.decimal 1 12 * scale m := by
  have hscale : 0 < scale m := zero_lt_one.trans_le (one_le_scale m)
  have hlt : (leastPivot : K) < Scalar.decimal 1 12 := by
    rw [leastPivot, Scalar.decimal_exact, Scalar.decimal_exact, Nat.cast_one]
    exact one_div_lt_one_div_of_lt (by positivity) (pow_lt_pow_right₀ (by norm_num) (by norm_num))
  exact mul_lt_mul_of_pos_right hlt hscale

theorem decimal_mul_scale_pos (m : Mat K) : 0 < (Scalar.decimal 1 12 : K) * scale m := by
  have hscale : 0 < scale m := zero_lt_one.trans_le (one_le_scale m)
  have hdecimal : (0 : K) < Scalar.decimal 1 12 := by
    rw [Scalar.decimal_exact]
    positivity
  exact mul_pos hdecimal hscale

/-- A semidefinite control block is factored as it is or with the first shift. -/
theorem exists_of? [ExactRoots K] {m : Mat K} (hsq : m.cols = m.rows)
    (hsymm : SymmetricUpTo m.rows m.get) (hm : SemidefiniteUpTo m.rows m.get) :
    ∃ c, of? m = some c ∧ (c.shift = none ∨ c.shift = some (Scalar.decimal 1 12 * scale m)) := by
  cases htry : tryFactor (scale m) m with
  | some c =>
      rw [of?, htry]
      exact ⟨_, rfl, .inl rfl⟩
  | none =>
      set shift : K := Scalar.decimal 1 12 * scale m with hshift
      have hget : ∀ i < m.rows, ∀ k < m.rows,
          (shifted m shift).get i k = shiftDiagonal shift m.get i k :=
        fun i hi k hk => Mat.get_ofFn_of_lt _ hi (hsq ▸ hk)
      have hsymm' : SymmetricUpTo m.rows (shifted m shift).get := by
        intro i hi k hk
        rw [hget i hi k hk, hget k hk i hi]
        exact hsymm.shiftDiagonal shift i hi k hk
      have hform : ∀ x, shift * sumSquares m.rows x ≤ quadForm (shifted m shift).get m.rows x := by
        intro x
        rw [quadForm_congr_table x hget, quadForm_shiftDiagonal]
        exact le_add_of_nonneg_left (hm x)
      have hpositive := decimal_mul_scale_pos m
      obtain ⟨c, hc, hsize, hdiag⟩ := Cholesky.exists_factor (m := shifted m shift) hsq hsymm'
        (endBounded_of_sumSquares hpositive.le hform) fun _ _ => hpositive
      have hpivots : c.pivotsExceed (leastPivot * scale m) = true :=
        (c.pivotsExceed_iff _).2 fun i hi => (leastPivot_lt m).trans_le (hdiag i (hsize ▸ hi))
      have hshifted : tryFactor (scale m) (shifted m shift) = some c := by
        rw [tryFactor, hc, Option.filter_some, if_pos hpivots]
      rw [of?, htry, shifts, firstShifted, ← hshift, hshifted]
      exact ⟨_, rfl, .inr rfl⟩

end ControlFactor

end StagedQP
