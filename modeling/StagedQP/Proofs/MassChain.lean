import Mathlib.Algebra.Order.Chebyshev
import StagedQP.Plant.Continuous
import StagedQP.Proofs.MatrixView

/-!
# The chain of masses

The stiffness matrix `T` of a chain says what the springs pull each mass with. The springs are
stretched by the differences of neighbouring positions, and by the positions of the masses next to a
wall, so with `p + 1` masses at positions `q`

```text
-qᵀ T q = q₀² + (q₁ - q₀)² + … + (q_p - q_{p-1})² + q_p².
```

No chain at rest has a mass away from its place, whatever its length, and no mass is further away
than the springs between it and the wall are stretched together. This settles that the state matrix

```text
A = [ 0  I ]
    [ T  0 ]
```

is invertible for every number of masses.

## Main results

* `neg_form_stiffness` — the form of the stiffness matrix.
* `sq_position_le` — a position, bounded by the form.
* `isInvertible_chainState` — the state matrix of a chain is invertible.
* `chain?_eq_ok_iff` — the numbers of states and inputs that make a chain.
-/

namespace StagedQP

open Finset

namespace ContinuousPlant

/-! ## Plants that fit together -/

/-- The matrices of a plant fit together. -/
structure Fitted {α : Type} (p : ContinuousPlant α) : Prop where
  /-- The state matrix is square. -/
  A : p.A.HasShape p.nx p.nx
  /-- The input matrix has as many rows. -/
  B : p.B.HasShape p.nx p.nu
  /-- So has the forcing term. -/
  b : p.b.size = p.nx

/-! ## Springs -/

section Springs

variable {K : Type} [Field K]

/-- How far spring `k` is stretched when the masses are at `x`; the first one ends in the wall. -/
def elongation (x : Nat → K) : Nat → K
  | 0 => x 0
  | k + 1 => x (k + 1) - x k

theorem elongation_succ (x : Nat → K) (k : Nat) : elongation x (k + 1) = x (k + 1) - x k := rfl

theorem sum_elongation (x : Nat → K) (i : Nat) : ∑ k ∈ range (i + 1), elongation x k = x i := by
  induction i with
  | zero => simp [elongation]
  | succ i ih =>
      rw [sum_range_succ, ih, elongation_succ]
      ring

/-- The squared elongations of all springs of `p + 1` masses. -/
def squaredElongations (x : Nat → K) (p : Nat) : K :=
  ∑ k ∈ range (p + 1), elongation x k ^ 2 + x p ^ 2

variable [LinearOrder K] [IsStrictOrderedRing K]

theorem squaredElongations_nonneg (x : Nat → K) (p : Nat) : 0 ≤ squaredElongations x p :=
  add_nonneg (sum_nonneg fun _ _ => sq_nonneg _) (sq_nonneg _)

/-- A position is the sum of the elongations before it. -/
theorem sq_position_le (x : Nat → K) {i p : Nat} (hi : i < p + 1) :
    x i ^ 2 ≤ (p + 1 : Nat) * squaredElongations x p := by
  have hpart : ∑ k ∈ range (i + 1), elongation x k ^ 2 ≤ squaredElongations x p := by
    have hle : ∑ k ∈ range (i + 1), elongation x k ^ 2 ≤
        ∑ k ∈ range (p + 1), elongation x k ^ 2 :=
      sum_le_sum_of_subset_of_nonneg (range_subset_range.2 (by omega)) fun _ _ _ => sq_nonneg _
    have := sq_nonneg (x p)
    unfold squaredElongations
    linarith
  have hcount : ((i + 1 : Nat) : K) ≤ (p + 1 : Nat) := Nat.cast_le.2 hi
  calc x i ^ 2 = (∑ k ∈ range (i + 1), elongation x k) ^ 2 := by rw [sum_elongation]
    _ ≤ (i + 1 : Nat) * ∑ k ∈ range (i + 1), elongation x k ^ 2 := by
        have := sq_sum_le_card_mul_sum_sq (s := range (i + 1)) (f := elongation x)
        rwa [card_range] at this
    _ ≤ (i + 1 : Nat) * squaredElongations x p :=
        mul_le_mul_of_nonneg_left hpart (Nat.cast_nonneg _)
    _ ≤ (p + 1 : Nat) * squaredElongations x p :=
        mul_le_mul_of_nonneg_right hcount (squaredElongations_nonneg x p)

end Springs

variable {K : Type} [Field K] [LinearOrder K] [SquareRoot K]

/-! ## Stiffness -/

theorem stiffness_comm (i j : Nat) : (stiffness i j : K) = stiffness j i := by
  unfold stiffness
  by_cases hij : i = j
  · subst hij
    rfl
  · rw [if_neg hij, if_neg (Ne.symm hij)]
    exact if_congr or_comm rfl rfl

theorem stiffness_self (i : Nat) : (stiffness i i : K) = -2 := by
  simp [stiffness, Scalar.ofNat_exact]

theorem stiffness_succ (i : Nat) : (stiffness i (i + 1) : K) = 1 := by
  simp [stiffness]

theorem stiffness_of_far {i j : Nat} (h : i + 1 < j) : (stiffness i j : K) = 0 := by
  unfold stiffness
  rw [if_neg (by omega), if_neg (by omega)]

/-- What the springs pull the mass after the first `n + 1` with, those masses apart. -/
theorem rowSum_stiffness_last (x : Nat → K) (n : Nat) :
    rowSum stiffness (n + 1) x (n + 1) = x n := by
  have hfar : ∑ j ∈ range n, (stiffness (n + 1) j : K) * x j = 0 := by
    refine sum_eq_zero fun j hj => ?_
    have := mem_range.1 hj
    rw [stiffness_comm, stiffness_of_far (by omega), zero_mul]
  rw [rowSum, sum_range_succ, hfar, zero_add, stiffness_comm, stiffness_succ, one_mul]

/-- The form of the stiffness matrix. -/
theorem neg_form_stiffness (x : Nat → K) (p : Nat) :
    -∑ i ∈ range (p + 1), x i * rowSum stiffness (p + 1) x i = squaredElongations x p := by
  induction p with
  | zero =>
      simp only [squaredElongations, rowSum, zero_add, sum_range_one, elongation, stiffness_self]
      ring
  | succ p ih =>
      -- one more mass adds its row, and a term to each of the rows before
      have hcolumn : ∑ i ∈ range (p + 1), x i * ((stiffness i (p + 1) : K) * x (p + 1)) =
          x p * x (p + 1) := by
        rw [← rowSum_stiffness_last x p, rowSum, sum_mul]
        refine sum_congr rfl fun i _ => ?_
        rw [stiffness_comm (p + 1) i]
        ring
      have hrows : ∀ i, rowSum (stiffness : Nat → Nat → K) (p + 1 + 1) x i =
          rowSum stiffness (p + 1) x i + stiffness i (p + 1) * x (p + 1) :=
        fun i => sum_range_succ ..
      rw [sum_range_succ, hrows (p + 1), rowSum_stiffness_last, stiffness_self]
      simp only [hrows, mul_add, sum_add_distrib]
      rw [hcolumn]
      simp only [squaredElongations] at ih ⊢
      rw [sum_range_succ (fun k => elongation x k ^ 2), elongation_succ]
      linear_combination ih

/-- A chain whose springs pull no mass is at rest. -/
theorem position_eq_zero [IsStrictOrderedRing K] {masses : Nat} {x : Nat → K}
    (h : ∀ i < masses, rowSum stiffness masses x i = 0) : ∀ i < masses, x i = 0 := by
  intro i hi
  obtain ⟨p, rfl⟩ : ∃ p, masses = p + 1 := ⟨masses - 1, by omega⟩
  have hform : squaredElongations x p = 0 := by
    rw [← neg_form_stiffness, neg_eq_zero]
    refine sum_eq_zero fun j hj => ?_
    rw [h j (mem_range.1 hj), mul_zero]
  have hle := sq_position_le x hi
  rw [hform, mul_zero] at hle
  exact pow_eq_zero_iff two_ne_zero |>.1 (le_antisymm hle (sq_nonneg _))

/-! ## The state matrix -/

theorem get_chainState {masses i j : Nat} (hi : i < 2 * masses) (hj : j < 2 * masses) :
    (chainState masses : Mat K).get i j =
      if i < masses then if j = masses + i then 1 else 0
      else if j < masses then stiffness (i - masses) j else 0 := Mat.get_ofFn_of_lt _ hi hj

/-- Positions move with the velocities. -/
theorem rowSum_chainState_position {masses i : Nat} (hi : i < masses) (z : Nat → K) :
    rowSum (chainState masses).get (2 * masses) z i = z (masses + i) := by
  rw [rowSum, sum_eq_single (masses + i)]
  · rw [get_chainState (by omega) (by omega), if_pos hi, if_pos rfl, one_mul]
  · intro j hj hne
    rw [get_chainState (by omega) (mem_range.1 hj), if_pos hi, if_neg hne, zero_mul]
  · intro hout
    exact absurd (mem_range.2 (by omega)) hout

/-- Velocities change with the pull of the springs. -/
theorem rowSum_chainState_velocity {masses i : Nat} (hi : i < masses) (z : Nat → K) :
    rowSum (chainState masses).get (2 * masses) z (masses + i) = rowSum stiffness masses z i := by
  have hposition : ∀ j < masses,
      (chainState masses : Mat K).get (masses + i) j = stiffness i j := by
    intro j hj
    rw [get_chainState (by omega) (by omega), if_neg (by omega), if_pos hj,
      Nat.add_sub_cancel_left]
  have hvelocity : ∀ j < masses, (chainState masses : Mat K).get (masses + i) (masses + j) = 0 := by
    intro j hj
    rw [get_chainState (by omega) (by omega), if_neg (by omega), if_neg (by omega)]
  have hzero : rowSum (fun i j => (chainState masses : Mat K).get i (masses + j)) masses
      (fun j => z (masses + j)) (masses + i) = 0 := by
    refine sum_eq_zero fun j hj => ?_
    show (chainState masses : Mat K).get (masses + i) (masses + j) * _ = 0
    rw [hvelocity j (mem_range.1 hj), zero_mul]
  rw [two_mul, rowSum_split, hzero, add_zero]
  refine sum_congr rfl fun j hj => ?_
  rw [hposition j (mem_range.1 hj)]

theorem hasShape_chainState (masses : Nat) :
    (chainState masses : Mat K).HasShape (2 * masses) (2 * masses) := Mat.hasShape_ofFn ..

/-- The state matrix of a chain of any length is invertible. -/
theorem isInvertible_chainState [IsStrictOrderedRing K] (masses : Nat) :
    (chainState masses : Mat K).IsInvertible := by
  rw [Mat.isInvertible_iff (hasShape_chainState masses).rows]
  intro z hz
  have hvelocity : ∀ i < masses, z (masses + i) = 0 := by
    intro i hi
    rw [← rowSum_chainState_position hi z]
    exact hz i (by omega)
  have hposition : ∀ i < masses, z i = 0 := by
    refine fun i hi => position_eq_zero (fun j hj => ?_) i hi
    rw [← rowSum_chainState_velocity hj z]
    exact hz (masses + j) (by omega)
  intro i hi
  by_cases hlt : i < masses
  · exact hposition i hlt
  · obtain ⟨j, rfl⟩ := Nat.exists_eq_add_of_le (not_lt.1 hlt)
    exact hvelocity j (by omega)

/-! ## The plant -/

/-- An even number of states, and at least one input but no more than there are masses. -/
structure IsChainSize (nx nu : Nat) : Prop where
  states : 0 < nx
  even : nx % 2 = 0
  inputs : 1 ≤ nu
  masses : nu ≤ nx / 2

/-- The chain with `nx` states and `nu` inputs, forced by `b`. -/
def forcedChain (nx nu : Nat) (b : Vec K) : ContinuousPlant K :=
  ⟨chainState (nx / 2), chainInput (nx / 2) nu, b⟩

theorem nx_forcedChain {nx nu : Nat} (heven : nx % 2 = 0) (b : Vec K) :
    (forcedChain nx nu b).nx = nx := by
  show 2 * (nx / 2) = nx
  omega

/-- The numbers of states and inputs that make a chain, and the chain they make. -/
theorem chain?_eq_ok_iff {nx nu : Nat} {p : ContinuousPlant K} : chain? nx nu = .ok p ↔
    IsChainSize nx nu ∧ p = forcedChain nx nu (Vec.zeros nx) := by
  unfold chain?
  by_cases hnx : nx = 0 ∨ nx % 2 ≠ 0
  · rw [if_pos hnx]
    simp only [reduceCtorEq, false_iff]
    rintro ⟨⟨hstates, heven, _, _⟩, _⟩
    omega
  · rw [if_neg hnx]
    by_cases hnu : nu = 0 ∨ nx / 2 < nu
    · rw [if_pos hnu]
      simp only [reduceCtorEq, false_iff]
      rintro ⟨⟨_, _, hinputs, hmasses⟩, _⟩
      omega
    · have htwice : 2 * (nx / 2) = nx := by omega
      have hrows : (chainState (nx / 2) : Mat K).rows = nx := htwice
      have hcols : (chainState (nx / 2) : Mat K).cols = nx := htwice
      have hinput : (chainInput (nx / 2) nu : Mat K).rows = nx := htwice
      rw [if_neg hnu, of?, hrows, hcols, hinput, if_neg (by omega), if_neg (by omega),
        Except.ok.injEq, eq_comm]
      exact (and_iff_right ⟨by omega, by omega, by omega, by omega⟩).symm

/-- A chain takes a forcing term with one entry for each state. -/
theorem withOffset?_forcedChain {nx : Nat} (heven : nx % 2 = 0) (nu : Nat) (b₀ : Vec K) {b : Vec K}
    (hb : b.size = nx) : (forcedChain nx nu b₀).withOffset? b = .ok (forcedChain nx nu b) :=
  if_pos (hb.trans (nx_forcedChain heven b₀).symm)

/-- A chain fits together, whatever it is forced with. -/
theorem fitted_forcedChain {nx : Nat} (heven : nx % 2 = 0) (nu : Nat) {b : Vec K}
    (hb : b.size = nx) : (forcedChain nx nu b).Fitted :=
  ⟨hasShape_chainState (nx / 2), ⟨rfl, rfl, Mat.wellFormed_ofFn ..⟩,
    hb.trans (nx_forcedChain heven b).symm⟩

theorem isInvertible_forcedChain [IsStrictOrderedRing K] (nx nu : Nat) (b : Vec K) :
    (forcedChain nx nu b).A.IsInvertible := isInvertible_chainState (nx / 2)

end ContinuousPlant

end StagedQP
