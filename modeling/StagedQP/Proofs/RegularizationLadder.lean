import StagedQP.Proofs.CheckedSweep
import StagedQP.Proofs.SemidefiniteFactor

/-!
# The ladder of shifts

A control block that cannot be factored as it is, or only with pivots that are too small, is tried
again with larger and larger shifts of its diagonal:

```text
shift / scale    0    10⁻¹²   10⁻¹⁰   10⁻⁸   10⁻⁶
```

A larger shift takes no pivot down: it lifts the quadratic form, the pivots of the old factor are
bounds of the form (`Cholesky.Factors.endBounded`), and so bounds of the new pivots. So the rungs
that are accepted are the upper part of the ladder, whatever the block, and the last rung alone
decides whether there is one. Which rung is accepted is a property of the block, stated here without
the algorithm as the existence of a factor (`ControlFactor.Admits`).

In place the factor is computed in the storage of the one before, which is taken out of the stage
first. What the stage holds afterwards is the new factor or none, and nothing else is written.

## Main results

* `ControlFactor.Admits.mono` — a larger shift is admitted where a smaller one is.
* `factorControlBlock_ladder` — what the factorization of a control block does.
-/

namespace StagedQP

open Finset

variable {K : Type} [Field K] [LinearOrder K] [SquareRoot K]

/-! ## Admissible factors -/

namespace ControlFactor

/-- The factor of a block with `shift` on its diagonal, with pivots that are large enough. -/
structure Admissible (m : Mat K) (shift : K) (c : Cholesky K) : Prop where
  /-- It is the Cholesky factor of the shifted block. -/
  factors : c.Factors (shiftDiagonal shift m.get) m.rows
  /-- Its squared diagonal entries exceed `10⁻¹⁴` of the scale of the block. -/
  pivots : ∀ i < m.rows, 1 / 10 ^ 14 * scale m < c.lower.get i i * c.lower.get i i

/-- The block with `shift` on its diagonal has such a factor. -/
def Admits (m : Mat K) (shift : K) : Prop := ∃ c, Admissible m shift c

/-- The rungs of the ladder, relative to the scale of the block. -/
def ladder : List K :=
  [0, Scalar.decimal 1 12, Scalar.decimal 1 10, Scalar.decimal 1 8, Scalar.decimal 1 6]

/-- The scale is the largest of one and the absolute diagonal entries. -/
theorem scale_le_iff (m : Mat K) (b : K) :
    scale m ≤ b ↔ 1 ≤ b ∧ ∀ i < m.rows, |m.get i i| ≤ b := Scalar.maxUpTo_le_iff ..

theorem scale_pos [IsStrictOrderedRing K] (m : Mat K) : 0 < scale m :=
  zero_lt_one.trans_le (one_le_scale m)

theorem leastPivot_eq : (leastPivot : K) = 1 / 10 ^ 14 := by
  rw [leastPivot, Scalar.decimal_exact, Nat.cast_one]

theorem ladder_eq : (ladder : List K) = [0, 1 / 10 ^ 12, 1 / 10 ^ 10, 1 / 10 ^ 8, 1 / 10 ^ 6] := by
  simp only [ladder, Scalar.decimal_exact, Nat.cast_one]

theorem ladder_cons : (ladder : List K) = 0 :: shifts := rfl

/-- The matrix is the block with `shift` on its diagonal. -/
structure IsShifted (m : Mat K) (shift : K) (m' : Mat K) : Prop where
  rows : m'.rows = m.rows
  cols : m'.cols = m.rows
  get : ∀ i < m.rows, ∀ k < m.rows, m'.get i k = shiftDiagonal shift m.get i k

section Attempts

variable {m m' : Mat K} {shift : K} (hsymm : SymmetricUpTo m.rows m.get)

omit [LinearOrder K] [SquareRoot K] in
theorem isShifted_zero (hsq : m.cols = m.rows) : IsShifted m 0 m :=
  ⟨rfl, hsq, fun i _ k _ => by rw [shiftDiagonal, add_zero, ite_self]⟩

theorem isShifted_shifted (hsq : m.cols = m.rows) (shift : K) :
    IsShifted m shift (shifted m shift) :=
  ⟨rfl, hsq, fun _ hi _ hk => Mat.get_ofFn_of_lt _ hi (hsq ▸ hk)⟩

include hsymm

omit [LinearOrder K] [SquareRoot K] in
theorem IsShifted.symm (h : IsShifted m shift m') : SymmetricUpTo m'.rows m'.get := by
  intro i hi k hk
  rw [h.rows] at hi hk
  rw [h.get i hi k hk, h.get k hk i hi]
  exact hsymm.shiftDiagonal shift i hi k hk

variable [ExactRoots K]

/-- What an attempt accepts is an admissible factor. -/
theorem IsShifted.admissible (h : IsShifted m shift m') {c : Cholesky K}
    (htry : tryFactor (scale m) m' = some c) : Admissible m shift c := by
  rw [tryFactor, Option.filter_eq_some_iff] at htry
  obtain ⟨hfactor, hpivots⟩ := htry
  have hfactors := Cholesky.factor_factors (h.cols.trans h.rows.symm) (h.symm hsymm) hfactor
  rw [h.rows] at hfactors
  refine ⟨⟨hfactors.size, hfactors.above, hfactors.diag, fun i hi k hk => ?_⟩, fun i hi => ?_⟩
  · rw [← h.get i hi k hk]
    exact hfactors.prod i hi k hk
  · rw [← leastPivot_eq]
    exact (c.pivotsExceed_iff _).1 hpivots i (hfactors.size.symm ▸ hi)

variable [IsStrictOrderedRing K]

/-- A shift that is admitted is accepted, and so is every larger one. -/
theorem IsShifted.exists_factor {least : K} (h : IsShifted m shift m')
    (hadmits : Admits m least) (hle : least ≤ shift) :
    ∃ c, tryFactor (scale m) m' = some c := by
  obtain ⟨c, hc⟩ := hadmits
  -- the old pivots stay bounds of the form when the diagonal is lifted
  have hbounded : EndBounded (fun j => c.lower.get j j * c.lower.get j j) m'.rows m'.get := by
    rw [h.rows]
    intro j hj x hone hend
    calc c.lower.get j j * c.lower.get j j
        ≤ quadForm (shiftDiagonal least m.get) m.rows x :=
          hc.factors.endBounded j hj x hone hend
      _ = quadForm m.get m.rows x + least * sumSquares m.rows x := quadForm_shiftDiagonal ..
      _ ≤ quadForm m.get m.rows x + shift * sumSquares m.rows x :=
          add_le_add_right (mul_le_mul_of_nonneg_right hle (sumSquares_nonneg _ _)) _
      _ = quadForm (shiftDiagonal shift m.get) m.rows x := (quadForm_shiftDiagonal ..).symm
      _ = quadForm m'.get m.rows x := (quadForm_congr_table x h.get).symm
  obtain ⟨c', hc', hsize, hdiag⟩ := Cholesky.exists_factor (h.cols.trans h.rows.symm)
    (h.symm hsymm) hbounded fun j hj => by
      have hpos := hc.factors.diag j (h.rows ▸ hj)
      exact mul_pos hpos hpos
  have hpivots : c'.pivotsExceed (leastPivot * scale m) = true := by
    refine (c'.pivotsExceed_iff _).2 fun i hi => ?_
    rw [hsize] at hi
    rw [leastPivot_eq]
    exact (hc.pivots i (h.rows ▸ hi)).trans_le (hdiag i hi)
  refine ⟨c', ?_⟩
  rw [tryFactor, hc', Option.filter_some, if_pos hpivots]

/-- Where an attempt fails, the shift is not admitted. -/
theorem IsShifted.not_admits (h : IsShifted m shift m')
    (htry : tryFactor (scale m) m' = none) : ¬ Admits m shift := by
  intro hadmits
  obtain ⟨c, hc⟩ := h.exists_factor hsymm hadmits le_rfl
  rw [htry] at hc
  cases hc

/-- A larger shift is admitted where a smaller one is. -/
theorem Admits.mono {least : K} (hsq : m.cols = m.rows) (hadmits : Admits m least)
    (hle : least ≤ shift) : Admits m shift := by
  obtain ⟨c, hc⟩ := (isShifted_shifted hsq shift).exists_factor hsymm hadmits hle
  exact ⟨c, (isShifted_shifted hsq shift).admissible hsymm hc⟩

end Attempts

/-! ## The first rung -/

/-- Rung `e` is the least of those listed that is admitted, and `c` is a factor for it. -/
structure FirstRung (m : Mat K) (l : List K) (e : K) (c : Cholesky K) : Prop where
  mem : e ∈ l
  admissible : Admissible m (e * scale m) c
  least : ∀ e' ∈ l, e' < e → ¬ Admits m (e' * scale m)

section Rungs

variable {m : Mat K} {e : K} {l : List K} {c : Cholesky K}

theorem FirstRung.head (hsorted : (e :: l).Pairwise (· < ·))
    (hc : Admissible m (e * scale m) c) : FirstRung m (e :: l) e c := by
  refine ⟨List.mem_cons_self .., hc, fun e' he' hlt => ?_⟩
  rcases List.mem_cons.1 he' with rfl | hmem
  · exact absurd hlt (lt_irrefl _)
  · exact absurd hlt ((List.rel_of_pairwise_cons hsorted hmem).not_gt)

theorem FirstRung.tail {e₀ : K} (hnot : ¬ Admits m (e₀ * scale m)) (h : FirstRung m l e c) :
    FirstRung m (e₀ :: l) e c := by
  refine ⟨List.mem_cons_of_mem _ h.mem, h.admissible, fun e' he' hlt => ?_⟩
  rcases List.mem_cons.1 he' with rfl | hmem
  · exact hnot
  · exact h.least e' hmem hlt

variable [ExactRoots K] [IsStrictOrderedRing K] (hsq : m.cols = m.rows)
  (hsymm : SymmetricUpTo m.rows m.get)

include hsq hsymm

/-- The retries stop at the first rung that is admitted. -/
theorem firstRung_of_firstShifted (hsorted : l.Pairwise (· < ·)) {c : ControlFactor K}
    (h : firstShifted (scale m) m l = some c) :
    ∃ e, FirstRung m l e c.factor ∧ c.shift = some (e * scale m) := by
  induction l with
  | nil => cases h
  | cons e₀ rest ih =>
      have hshifted := isShifted_shifted hsq (e₀ * scale m)
      rw [firstShifted] at h
      cases htry : tryFactor (scale m) (shifted m (e₀ * scale m)) with
      | some c₀ =>
          rw [htry] at h
          cases h
          exact ⟨e₀, .head hsorted (hshifted.admissible hsymm htry), rfl⟩
      | none =>
          rw [htry] at h
          obtain ⟨e, hrung, hshift⟩ := ih hsorted.of_cons h
          exact ⟨e, hrung.tail (hshifted.not_admits hsymm htry), hshift⟩

/-- They run out only if no rung is admitted. -/
theorem not_admits_of_firstShifted (h : firstShifted (scale m) m l = none) :
    ∀ e ∈ l, ¬ Admits m (e * scale m) := by
  induction l with
  | nil => exact fun e he => nomatch he
  | cons e₀ rest ih =>
      rw [firstShifted] at h
      cases htry : tryFactor (scale m) (shifted m (e₀ * scale m)) with
      | some c₀ =>
          rw [htry] at h
          cases h
      | none =>
          rw [htry] at h
          intro e he
          rcases List.mem_cons.1 he with rfl | hmem
          · exact (isShifted_shifted hsq _).not_admits hsymm htry
          · exact ih h e hmem

omit [ExactRoots K] hsq hsymm in
theorem sorted_ladder : (ladder : List K).Pairwise (· < ·) := by
  simp only [ladder_eq, List.pairwise_cons, List.mem_cons, List.not_mem_nil, or_false,
    forall_eq_or_imp, forall_eq, IsEmpty.forall_iff, implies_true, and_true, List.Pairwise.nil]
  norm_num

/-- The factorization stops at the first rung of the ladder that is admitted; a shift is reported
unless it is the lowest rung. -/
theorem firstRung_of_of? {c : ControlFactor K} (h : of? m = some c) :
    ∃ e, FirstRung m ladder e c.factor ∧
      c.shift = if e = 0 then none else some (e * scale m) := by
  have hsorted := sorted_ladder (K := K)
  have hshifted := isShifted_zero hsq
  rw [ladder_cons] at hsorted ⊢
  rw [of?] at h
  cases htry : tryFactor (scale m) m with
  | some c₀ =>
      rw [htry] at h
      cases h
      have hadmissible := hshifted.admissible hsymm htry
      rw [← zero_mul (scale m)] at hadmissible
      exact ⟨0, .head hsorted hadmissible, (if_pos rfl).symm⟩
  | none =>
      rw [htry] at h
      have hnot := hshifted.not_admits hsymm htry
      rw [← zero_mul (scale m)] at hnot
      obtain ⟨e, hrung, hshift⟩ := firstRung_of_firstShifted hsq hsymm hsorted.of_cons h
      have hpos : 0 < e := List.rel_of_pairwise_cons hsorted hrung.mem
      exact ⟨e, hrung.tail hnot, by rw [if_neg hpos.ne', hshift]⟩

/-- It fails only if no rung is admitted. -/
theorem not_admits_of_of? (h : of? m = none) : ∀ e ∈ ladder, ¬ Admits m (e * scale m) := by
  rw [ladder_cons]
  rw [of?] at h
  cases htry : tryFactor (scale m) m with
  | some c₀ =>
      rw [htry] at h
      cases h
  | none =>
      rw [htry] at h
      intro e he
      rcases List.mem_cons.1 he with rfl | hmem
      · rw [zero_mul]
        exact (isShifted_zero hsq).not_admits hsymm htry
      · exact not_admits_of_firstShifted hsq hsymm h e hmem

/-- The last rung is admitted if any rung is. -/
theorem Admits.last {e : K} (he : e ∈ ladder) (hadmits : Admits m (e * scale m)) :
    Admits m (1 / 10 ^ 6 * scale m) := by
  refine hadmits.mono hsymm hsq (mul_le_mul_of_nonneg_right ?_ (scale_pos m).le)
  simp only [ladder_eq, List.mem_cons, List.not_mem_nil, or_false] at he
  rcases he with rfl | rfl | rfl | rfl | rfl <;> norm_num

end Rungs

end ControlFactor

/-! ## A block that is a number -/

/-- A stage with one control, whose control block is the number `a`. -/
noncomputable def StageState.ofBlock (a : ℝ) : StageState ℝ :=
  { StageState.zeros ⟨0, 1, 0, 0⟩ 0 with riccati.total := Mat.ofFn 1 1 fun _ _ => a }

namespace StageState

theorem get_ofBlock (a : ℝ) : (ofBlock a).controlBlock.get 0 0 = a := by
  have hnu : 0 < (ofBlock a).nu := Nat.one_pos
  rw [controlBlock, Mat.get_block_of_lt _ _ _ hnu hnu]
  exact Mat.get_ofFn_of_lt _ Nat.one_pos Nat.one_pos

theorem scale_ofBlock {a : ℝ} (ha : |a| ≤ 1) :
    ControlFactor.scale (ofBlock a).controlBlock = 1 := by
  refine le_antisymm ((ControlFactor.scale_le_iff _ _).2 ⟨le_rfl, fun i hi => ?_⟩)
    (ControlFactor.one_le_scale _)
  obtain rfl : i = 0 := Nat.lt_one_iff.1 hi
  rwa [get_ofBlock]

theorem sized_ofBlock (a : ℝ) : (ofBlock a).Sized ⟨0, 1, 0, 0⟩ 0 := by
  have hzeros := StageState.sized_zeros (α := ℝ) ⟨0, 1, 0, 0⟩ 0
  exact { hzeros with riccati := { hzeros.riccati with total := ⟨rfl, rfl⟩ } }

/-- The pivot of a number is the number with its shift. -/
theorem admits_ofBlock {a shift : ℝ} (ha : |a| ≤ 1) :
    ControlFactor.Admits (ofBlock a).controlBlock shift ↔ 1 / 10 ^ 14 < a + shift := by
  have hentry : shiftDiagonal shift (ofBlock a).controlBlock.get 0 0 = a + shift := by
    rw [shiftDiagonal, if_pos rfl, get_ofBlock]
  constructor
  · rintro ⟨c, hfactors, hpivots⟩
    have hprod := hfactors.prod 0 Nat.one_pos 0 Nat.one_pos
    have hpivot := hpivots 0 Nat.one_pos
    rw [scale_ofBlock ha, mul_one] at hpivot
    have hone : (ofBlock a).controlBlock.rows = 1 := rfl
    rw [hentry, hone, sum_range_one] at hprod
    rwa [hprod]
  · intro hlt
    have hpos : 0 < a + shift := lt_trans (by norm_num) hlt
    have hroot : (Mat.ofFn 1 1 fun _ _ => √(a + shift)).get 0 0 = √(a + shift) :=
      Mat.get_ofFn_of_lt _ Nat.one_pos Nat.one_pos
    refine ⟨⟨Mat.ofFn 1 1 fun _ _ => √(a + shift)⟩, ⟨rfl, fun i l hil => ?_, fun i hi => ?_,
      fun i hi l hl => ?_⟩, fun i hi => ?_⟩
    · rw [Mat.get_ofFn, if_neg (by omega)]
    · obtain rfl : i = 0 := Nat.lt_one_iff.1 hi
      rw [hroot]
      exact Real.sqrt_pos.2 hpos
    · obtain rfl : i = 0 := Nat.lt_one_iff.1 hi
      obtain rfl : l = 0 := Nat.lt_one_iff.1 hl
      have hone : (ofBlock a).controlBlock.rows = 1 := rfl
      rw [hentry, hone, sum_range_one, hroot, Real.mul_self_sqrt hpos.le]
    · obtain rfl : i = 0 := Nat.lt_one_iff.1 hi
      rw [hroot, Real.mul_self_sqrt hpos.le, scale_ofBlock ha, mul_one]
      exact hlt

end StageState

/-! ## In the buffers of a stage -/

/-- The control block of stage `k` factored in place. The factor before it is taken out, so that
the slot is empty unless one is found. Returned are the warnings, or the number of the stage. -/
def Checked.factorControlBlock {α : Type} [Scalar α] (k : Nat) (s : StageState α) :
    Except SizeFault (StageState α × Except Nat (List (Warning α))) := do
  match ← controlFactor s with
  | none => return (Riccati.setFactor none s, .error k)
  | some c =>
    return (Riccati.setFactor (some c.factor) s, .ok (c.shift.toList.map (Warning.regularized k)))

/-- This is what the sweep does at a stage with controls, before it closes the loop. -/
theorem Checked.factorStage_eq_block {α : Type} [Scalar α] (k : Nat) {s : StageState α}
    (hnu : s.nu ≠ 0) : factorStage k s = (do
      let (s, result) ← factorControlBlock k s
      match result with
      | .error stage => return ⟨[s], [], some stage⟩
      | .ok warnings =>
        let s ← closeLoop s
        return ⟨[s], warnings, none⟩) := by
  rw [factorStage, if_neg hnu, factorControlBlock]
  cases controlFactor s with
  | error e => rfl
  | ok c? =>
      cases c? with
      | none => rfl
      | some c => rfl

open ControlFactor in
/-- **The ladder accepts what its last rung accepts.** Take a stage with buffers of any sizes, with
anything in them, and a symmetric control block. Factoring the block in place succeeds exactly if
the block with `10⁻⁶` of its scale on the diagonal has a Cholesky factor whose squared diagonal
entries all exceed `10⁻¹⁴` of the scale. Then the factor kept is that of the least rung for which
this holds, and the shift is reported unless there is none; otherwise no factor is kept. No other
buffer is touched. -/
theorem factorControlBlock_ladder [ExactRoots K] [IsStrictOrderedRing K] {d : StageSizes} {n : Nat}
    {s : StageState K} (h : s.Sized d n) (hsymm : SymmetricUpTo s.nu s.riccati.total.get)
    (k : Nat) :
    ∃ factor result,
      Checked.factorControlBlock k s = .ok ({ s with riccati.factor := factor }, result) ∧
      ((∃ warnings, result = .ok warnings) ↔
        Admits s.controlBlock (1 / 10 ^ 6 * scale s.controlBlock)) ∧
      (∀ warnings, result = .ok warnings → ∃ e c, factor = some c ∧
        FirstRung s.controlBlock ladder e c ∧
        warnings = if e = 0 then [] else [.regularized k (e * scale s.controlBlock)]) ∧
      ∀ stage, result = .error stage → stage = k ∧ factor = none := by
  have hblock : SymmetricUpTo s.nu s.controlBlock.get := by
    intro i hi j hj
    rw [StageState.controlBlock, Mat.get_block_of_lt _ _ _ hi hj, Mat.get_block_of_lt _ _ _ hj hi,
      Nat.zero_add, Nat.zero_add]
    exact hsymm i hi j hj
  rw [Checked.factorControlBlock, Checked.controlFactor_eq h]
  cases hof : of? s.controlBlock with
  | none =>
      have hnot := not_admits_of_of? rfl hblock hof
      refine ⟨none, .error k, rfl, iff_of_false ?_ (hnot _ ?_), fun _ hok => ?_, fun _ herror => ?_⟩
      · rintro ⟨_, hok⟩
        cases hok
      · simp [ladder_eq]
      · cases hok
      · cases herror
        exact ⟨rfl, rfl⟩
  | some c =>
      obtain ⟨e, hrung, hshift⟩ := firstRung_of_of? rfl hblock hof
      refine ⟨some c.factor, .ok (c.shift.toList.map (Warning.regularized k)), rfl,
        iff_of_true ⟨_, rfl⟩ (Admits.last rfl hblock hrung.mem ⟨_, hrung.admissible⟩),
        fun warnings hok => ⟨e, c.factor, rfl, hrung, ?_⟩, fun _ herror => ?_⟩
      · cases hok
        rw [hshift]
        split
        · rfl
        · rfl
      · cases herror

/-- For instance with the block `0` at stage 3, which is factored with the first shift; and with the
block `-1`, which no rung lifts. -/
theorem factorControlBlock_ladder_ofBlock :
    (∃ c, Checked.factorControlBlock 3 (.ofBlock 0) =
        .ok ({ StageState.ofBlock 0 with riccati.factor := some c },
          .ok [.regularized 3 (1 / 10 ^ 12 * 1)]) ∧
      c.lower.get 0 0 * c.lower.get 0 0 = 1 / 10 ^ 12) ∧
    Checked.factorControlBlock 3 (.ofBlock (-1)) =
      .ok ({ StageState.ofBlock (-1) with riccati.factor := none }, .error 3) := by
  have hsymm : ∀ a, SymmetricUpTo 1 (StageState.ofBlock a).riccati.total.get := by
    intro a i hi j hj
    rw [Nat.lt_one_iff.1 hi, Nat.lt_one_iff.1 hj]
  have hzero : |(0 : ℝ)| ≤ 1 := by norm_num
  have hminus : |(-1 : ℝ)| ≤ 1 := by norm_num
  constructor
  · obtain ⟨factor, result, hrun, hiff, hok, _⟩ :=
      factorControlBlock_ladder (StageState.sized_ofBlock 0) (hsymm 0) 3
    rw [StageState.scale_ofBlock hzero, StageState.admits_ofBlock hzero] at hiff
    obtain ⟨warnings, rfl⟩ := hiff.2 (by norm_num)
    obtain ⟨e, c, rfl, hrung, rfl⟩ := hok warnings rfl
    have hadmits : 1 / 10 ^ 14 < 0 + e * 1 := by
      rw [← StageState.admits_ofBlock hzero, ← StageState.scale_ofBlock hzero]
      exact ⟨c, hrung.admissible⟩
    have hleast : e ≤ 1 / 10 ^ 12 := by
      refine not_lt.1 fun hlt => hrung.least _ (by simp [ControlFactor.ladder_eq]) hlt ?_
      rw [StageState.scale_ofBlock hzero, StageState.admits_ofBlock hzero]
      norm_num
    obtain rfl : e = 1 / 10 ^ 12 := by
      have hmem := hrung.mem
      simp only [ControlFactor.ladder_eq, List.mem_cons, List.not_mem_nil, or_false] at hmem
      rcases hmem with rfl | rfl | rfl | rfl | rfl
      · norm_num at hadmits
      · rfl
      all_goals norm_num at hleast
    rw [StageState.scale_ofBlock hzero, if_neg (by norm_num)] at hrun
    refine ⟨c, hrun, ?_⟩
    have hprod := hrung.admissible.factors.prod 0 Nat.one_pos 0 Nat.one_pos
    have hone : (StageState.ofBlock 0).controlBlock.rows = 1 := rfl
    rw [shiftDiagonal, if_pos rfl, StageState.get_ofBlock, StageState.scale_ofBlock hzero, hone,
      sum_range_one, zero_add, mul_one] at hprod
    exact hprod.symm
  · obtain ⟨factor, result, hrun, hiff, _, herror⟩ :=
      factorControlBlock_ladder (StageState.sized_ofBlock (-1)) (hsymm (-1)) 3
    rw [StageState.scale_ofBlock hminus, StageState.admits_ofBlock hminus] at hiff
    cases result with
    | ok warnings => exact absurd (hiff.1 ⟨warnings, rfl⟩) (by norm_num)
    | error stage =>
        obtain ⟨rfl, rfl⟩ := herror stage rfl
        exact hrun

end StagedQP
