import Mathlib.Data.Matrix.PEquiv
import StagedQP.Proofs.PackedProblem
import StagedQP.Proofs.ZeroOrderHold

/-!
# The physics of a sampled chain

A chain of masses in motion loses no energy, and does not know its left end from its right. Both are
properties of the state matrix `M` of the chain in continuous time,

```text
H M + Mᵀ H = 0     with  H = [ -T  0 ]     and     M = R M R
                             [  0  I ]
```

where `½ zᵀ H z` is the energy of the state `z` and `R` turns the chain around. What is linear in
the generator passes to the exponential `A = exp (ts M)`: it preserves the form `H`, and is the same
turned around. So sampling keeps the physics of the chain at every period, and since no entry of a
state exceeds what its energy allows, the powers of `A` stay bounded.

The two facts about `M` are about its blocks. With the blocks exchanged they fail, though all shapes
agree.

## Main results

* `ExponentialForm.transpose_exp_mul`, `ExponentialForm.exp_apply_perm` — what an exponential
  preserves.
* `ContinuousPlant.energyMatrix_mul_chainState` — the product `H M`.
* `ContinuousPlant.sq_le_energy` — an entry, bounded by the energy.
* `sampled_chain_conserves` — the sampled chain.
-/

namespace StagedQP

open Finset

/-! ## What an exponential preserves -/

namespace ExponentialForm

variable {ι : Type} [Fintype ι] [DecidableEq ι] {H M S : Matrix ι ι ℝ}

/-- A symmetric form that the generator is skew for is preserved by the exponential. -/
theorem transpose_exp_mul (hH : IsUnit H) (hsymm : H.transpose = H)
    (hskew : (H * M).transpose = -(H * M)) :
    (NormedSpace.exp M).transpose * H * NormedSpace.exp M = H := by
  have hdet : IsUnit H.det := (Matrix.isUnit_iff_isUnit_det _).1 hH
  have hconj : H * M * H⁻¹ = -M.transpose := by
    rw [Matrix.transpose_mul, hsymm] at hskew
    rw [← neg_eq_iff_eq_neg.2 hskew, Matrix.neg_mul, Matrix.mul_assoc,
      Matrix.mul_nonsing_inv _ hdet, Matrix.mul_one]
  have hexp : H * NormedSpace.exp M * H⁻¹ = (NormedSpace.exp M).transpose⁻¹ := by
    rw [← Matrix.exp_conj _ _ hH, hconj, Matrix.exp_neg, Matrix.exp_transpose]
  have hunit : IsUnit (NormedSpace.exp M).transpose.det := by
    rw [Matrix.det_transpose]
    exact (Matrix.isUnit_iff_isUnit_det _).1 (Matrix.isUnit_exp M)
  calc (NormedSpace.exp M).transpose * H * NormedSpace.exp M
      = (NormedSpace.exp M).transpose * (H * NormedSpace.exp M * H⁻¹) * H := by
        simp only [Matrix.mul_assoc, Matrix.nonsing_inv_mul _ hdet, Matrix.mul_one]
    _ = H := by rw [hexp, Matrix.mul_nonsing_inv _ hunit, Matrix.one_mul]

/-- What preserves a nonsingular form preserves volume. -/
theorem abs_det_eq_one (hH : IsUnit H) (hS : S.transpose * H * S = H) : |S.det| = 1 := by
  have hdet : H.det ≠ 0 := ((Matrix.isUnit_iff_isUnit_det _).1 hH).ne_zero
  have hsquare : S.det * S.det = 1 := by
    have := congrArg Matrix.det hS
    rw [Matrix.det_mul, Matrix.det_mul, Matrix.det_transpose] at this
    exact mul_left_cancel₀ hdet (by linear_combination this)
  have habs : |S.det| * |S.det| = 1 := by rw [← abs_mul, hsquare, abs_one]
  nlinarith [abs_nonneg S.det]

/-- What preserves a form preserves it over and over. -/
theorem transpose_pow_mul (hS : S.transpose * H * S = H) (k : Nat) :
    (S ^ k).transpose * H * S ^ k = H := by
  induction k with
  | zero => simp
  | succ k ih =>
      calc (S ^ (k + 1)).transpose * H * S ^ (k + 1)
          = S.transpose * ((S ^ k).transpose * H * S ^ k) * S := by
            simp only [pow_succ, Matrix.transpose_mul, Matrix.mul_assoc]
        _ = H := by rw [ih, hS]

omit [DecidableEq ι] in
/-- A form of a vector and of its image. -/
theorem form_mulVec (hS : S.transpose * H * S = H) (v : ι → ℝ) :
    S.mulVec v ⬝ᵥ H.mulVec (S.mulVec v) = v ⬝ᵥ H.mulVec v := by
  conv_rhs => rw [← hS]
  rw [← Matrix.mulVec_mulVec, ← Matrix.mulVec_mulVec, Matrix.dotProduct_mulVec v,
    Matrix.vecMul_transpose]

/-- What leaves the generator as it is leaves the exponential as it is. -/
theorem exp_apply_perm {σ : Equiv.Perm ι} (h : ∀ i j, M (σ i) (σ j) = M i j) (i j : ι) :
    NormedSpace.exp M (σ i) (σ j) = NormedSpace.exp M i j := by
  have hcomm : Commute (σ.toPEquiv.toMatrix : Matrix ι ι ℝ) M := by
    ext i j
    rw [PEquiv.toMatrix_toPEquiv_mul, PEquiv.mul_toMatrix_toPEquiv]
    show M (σ i) j = M i (σ.symm j)
    rw [← h i (σ.symm j), σ.apply_symm_apply]
  have hexp := hcomm.exp_right
  rw [commute_iff_eq, PEquiv.toMatrix_toPEquiv_mul, PEquiv.mul_toMatrix_toPEquiv] at hexp
  have := congrFun (congrFun hexp i) (σ j)
  rwa [Matrix.submatrix_apply, Matrix.submatrix_apply, σ.symm_apply_apply] at this

end ExponentialForm

namespace ContinuousPlant

/-! ## Energy -/

section Energy

variable {K : Type} [Field K] [LinearOrder K] [SquareRoot K] {masses : Nat}

/-- Half the squared velocities, and half the squared elongations of the springs. -/
def energy (masses : Nat) (z : Nat → K) : K :=
  halfSquares masses (fun i => z (masses + i)) - halfForm stiffness masses z

/-- The form of which the energy is one half. -/
def energyMatrix (masses : Nat) : Mat K :=
  Mat.ofFn (2 * masses) (2 * masses) fun i j =>
    if i < masses then if j < masses then -stiffness i j else 0
    else if j = i then 1 else 0

theorem get_energyMatrix {i j : Nat} (hi : i < 2 * masses) (hj : j < 2 * masses) :
    (energyMatrix masses : Mat K).get i j =
      if i < masses then if j < masses then -stiffness i j else 0
      else if j = i then 1 else 0 := Mat.get_ofFn_of_lt _ hi hj

theorem rowSum_energyMatrix_position {i : Nat} (hi : i < masses) (z : Nat → K) :
    rowSum (energyMatrix masses).get (2 * masses) z i = -rowSum stiffness masses z i := by
  have hvelocity : rowSum (fun i j => (energyMatrix masses : Mat K).get i (masses + j)) masses
      (fun j => z (masses + j)) i = 0 := by
    refine sum_eq_zero fun j hj => ?_
    have hlt := mem_range.1 hj
    show (energyMatrix masses : Mat K).get i (masses + j) * _ = 0
    rw [get_energyMatrix (by omega) (by omega), if_pos hi, if_neg (by omega), zero_mul]
  rw [two_mul, rowSum_split, hvelocity, add_zero, rowSum, rowSum, ← sum_neg_distrib]
  refine sum_congr rfl fun j hj => ?_
  have hlt := mem_range.1 hj
  rw [get_energyMatrix (by omega) (by omega), if_pos hi, if_pos hlt, neg_mul]

theorem rowSum_energyMatrix_velocity {i : Nat} (hi : i < masses) (z : Nat → K) :
    rowSum (energyMatrix masses).get (2 * masses) z (masses + i) = z (masses + i) := by
  rw [rowSum, sum_eq_single (masses + i)]
  · rw [get_energyMatrix (by omega) (by omega), if_neg (by omega), if_pos rfl, one_mul]
  · intro j hj hne
    rw [get_energyMatrix (by omega) (mem_range.1 hj), if_neg (by omega), if_neg hne, zero_mul]
  · intro hout
    exact absurd (mem_range.2 (by omega)) hout

theorem energy_eq_form (z : Nat → K) :
    energy masses z = halfForm (energyMatrix masses).get (2 * masses) z := by
  rw [halfForm, two_mul masses, sum_range_add, ← two_mul]
  have hposition : ∑ i ∈ range masses, z i * rowSum (energyMatrix masses).get (2 * masses) z i =
      -∑ i ∈ range masses, z i * rowSum stiffness masses z i := by
    rw [← sum_neg_distrib]
    refine sum_congr rfl fun i hi => ?_
    rw [rowSum_energyMatrix_position (mem_range.1 hi), mul_neg]
  have hvelocity : ∑ i ∈ range masses,
      z (masses + i) * rowSum (energyMatrix masses).get (2 * masses) z (masses + i) =
      ∑ i ∈ range masses, z (masses + i) * z (masses + i) := by
    refine sum_congr rfl fun i hi => ?_
    rw [rowSum_energyMatrix_velocity (mem_range.1 hi)]
  rw [hposition, hvelocity, energy, halfSquares, halfForm]
  ring

variable [IsStrictOrderedRing K]

/-- Neither velocities nor elongations can be larger than the energy allows. -/
theorem sq_le_energy {i : Nat} (hi : i < 2 * masses) (z : Nat → K) :
    z i ^ 2 ≤ (2 * masses : Nat) * energy masses z := by
  obtain ⟨p, rfl⟩ : ∃ p, masses = p + 1 := ⟨masses - 1, by omega⟩
  have henergy : 2 * energy (p + 1) z =
      ∑ i ∈ range (p + 1), z (p + 1 + i) ^ 2 + squaredElongations z p := by
    rw [energy, halfSquares, halfForm, ← neg_form_stiffness]
    simp only [sq]
    ring
  have hkinetic : 0 ≤ ∑ i ∈ range (p + 1), z (p + 1 + i) ^ 2 :=
    sum_nonneg fun _ _ => sq_nonneg _
  have helastic := squaredElongations_nonneg z p
  have hcount : (1 : K) ≤ (p + 1 : Nat) := Nat.one_le_cast.2 p.succ_pos
  have hgoal : ((2 * (p + 1) : Nat) : K) * energy (p + 1) z =
      (p + 1 : Nat) * (∑ i ∈ range (p + 1), z (p + 1 + i) ^ 2 + squaredElongations z p) := by
    rw [← henergy]
    push_cast
    ring
  rw [hgoal]
  by_cases hposition : i < p + 1
  · calc z i ^ 2 ≤ (p + 1 : Nat) * squaredElongations z p := sq_position_le z hposition
      _ ≤ _ := mul_le_mul_of_nonneg_left (le_add_of_nonneg_left hkinetic) (Nat.cast_nonneg _)
  · obtain ⟨j, rfl⟩ := Nat.exists_eq_add_of_le (not_lt.1 hposition)
    calc z (p + 1 + j) ^ 2 ≤ ∑ i ∈ range (p + 1), z (p + 1 + i) ^ 2 :=
          single_le_sum (f := fun i => z (p + 1 + i) ^ 2) (fun _ _ => sq_nonneg _)
            (mem_range.2 (by omega))
      _ ≤ ∑ i ∈ range (p + 1), z (p + 1 + i) ^ 2 + squaredElongations z p :=
          le_add_of_nonneg_right helastic
      _ ≤ _ := le_mul_of_one_le_left (add_nonneg hkinetic helastic) hcount

theorem isInvertible_energyMatrix (masses : Nat) : (energyMatrix masses : Mat K).IsInvertible := by
  rw [Mat.isInvertible_iff (n := 2 * masses) rfl]
  intro z hz i hi
  by_cases hposition : i < masses
  · refine position_eq_zero (fun j hj => ?_) i hposition
    rw [← neg_eq_zero, ← rowSum_energyMatrix_position hj]
    exact hz j (by omega)
  · obtain ⟨j, rfl⟩ := Nat.exists_eq_add_of_le (not_lt.1 hposition)
    rw [← rowSum_energyMatrix_velocity (by omega) z]
    exact hz _ hi

end Energy

/-! ## The generator -/

section Generator

variable {K : Type} [Field K] [LinearOrder K] [SquareRoot K] {masses : Nat}

theorem energyMatrix_comm {i j : Nat} (hi : i < 2 * masses) (hj : j < 2 * masses) :
    (energyMatrix masses : Mat K).get i j = (energyMatrix masses).get j i := by
  rw [get_energyMatrix hi hj, get_energyMatrix hj hi, stiffness_comm i j]
  grind

/-- The product of the form and the generator: what a velocity does to a spring, a spring does
against the velocity. -/
theorem energyMatrix_mul_chainState {i j : Nat} (hi : i < 2 * masses) (hj : j < 2 * masses) :
    rowSum (energyMatrix masses).get (2 * masses) (fun k => (chainState masses : Mat K).get k j) i =
      if i < masses then if j < masses then 0 else -stiffness i (j - masses)
      else if j < masses then stiffness (i - masses) j else 0 := by
  by_cases hposition : i < masses
  · rw [if_pos hposition, rowSum_energyMatrix_position hposition]
    have hentry : ∀ k < masses, (chainState masses : Mat K).get k j =
        if j = masses + k then 1 else 0 := by
      intro k hk
      rw [get_chainState (by omega) hj, if_pos hk]
    split
    · rw [neg_eq_zero, rowSum]
      refine sum_eq_zero fun k hk => ?_
      rw [hentry k (mem_range.1 hk), if_neg (by omega), mul_zero]
    · rw [rowSum, sum_eq_single (j - masses)]
      · rw [hentry _ (by omega), if_pos (by omega), mul_one]
      · intro k hk hne
        rw [hentry k (mem_range.1 hk), if_neg (by omega), mul_zero]
      · intro hout
        exact absurd (mem_range.2 (by omega)) hout
  · obtain ⟨n, rfl⟩ := Nat.exists_eq_add_of_le (not_lt.1 hposition)
    rw [if_neg hposition, rowSum_energyMatrix_velocity (by omega), get_chainState hi hj,
      if_neg hposition]

/-- The generator is skew for the form. -/
theorem energyMatrix_mul_chainState_comm {i j : Nat} (hi : i < 2 * masses) (hj : j < 2 * masses) :
    rowSum (energyMatrix masses).get (2 * masses) (fun k => (chainState masses : Mat K).get k j) i =
      -rowSum (energyMatrix masses).get (2 * masses)
        (fun k => (chainState masses : Mat K).get k i) j := by
  rw [energyMatrix_mul_chainState hi hj, energyMatrix_mul_chainState hj hi]
  by_cases hposition : i < masses <;> by_cases hposition' : j < masses <;>
    simp [hposition, hposition', stiffness_comm]

/-- The number of the same position, or of the same velocity, seen from the other end. -/
def mirror (masses i : Nat) : Nat := if i < masses then masses - 1 - i else 3 * masses - 1 - i

theorem mirror_lt {i : Nat} (hi : i < 2 * masses) : mirror masses i < 2 * masses := by
  unfold mirror
  split <;> omega

theorem mirror_mirror {i : Nat} (hi : i < 2 * masses) : mirror masses (mirror masses i) = i := by
  unfold mirror
  grind

/-- The generator is the same from either end. -/
theorem get_chainState_mirror {i j : Nat} (hi : i < 2 * masses) (hj : j < 2 * masses) :
    (chainState masses : Mat K).get (mirror masses i) (mirror masses j) =
      (chainState masses).get i j := by
  rw [get_chainState (mirror_lt hi) (mirror_lt hj), get_chainState hi hj]
  unfold mirror stiffness
  grind

end Generator

/-! ## The sampled chain -/

section Sampled

variable {masses : Nat}

theorem halfForm_eq_dotProduct {n : Nat} (m : Mat ℝ) (z : Nat → ℝ) : halfForm m.get n z =
    ((fun i : Fin n => z i) ⬝ᵥ (m.toMatrix n n).mulVec fun i => z i) / 2 := by
  rw [halfForm, sum_range]
  congr 1
  refine Finset.sum_congr rfl fun i _ => ?_
  rw [Mat.rowSum_eq_mulVec]

/-- The sampled state matrix preserves the form. -/
theorem transpose_mul_energyMatrix {expm : Mat ℝ → Mat ℝ} (hexp : IsExponential expm)
    (masses : Nat) (ts : ℝ) :
    ((expm ((chainState masses).scale ts)).toMatrix (2 * masses) (2 * masses)).transpose *
        (energyMatrix masses).toMatrix (2 * masses) (2 * masses) *
        (expm ((chainState masses).scale ts)).toMatrix (2 * masses) (2 * masses) =
      (energyMatrix masses).toMatrix (2 * masses) (2 * masses) := by
  have hshape := hasShape_chainState (K := ℝ) masses
  rw [hexp.toMatrix (hshape.scale ts), Mat.toMatrix_scale hshape]
  refine ExponentialForm.transpose_exp_mul (isInvertible_energyMatrix masses) ?_ ?_
  · ext i j
    exact energyMatrix_comm j.2 i.2
  · rw [Matrix.mul_smul, Matrix.transpose_smul, ← smul_neg]
    congr 1
    ext i j
    rw [Matrix.transpose_apply, Matrix.neg_apply, Mat.toMatrix_mul_apply, Mat.toMatrix_mul_apply]
    exact energyMatrix_mul_chainState_comm j.2 i.2

/-- The sampled state matrix is the same from either end. -/
theorem get_exp_mirror {expm : Mat ℝ → Mat ℝ} (hexp : IsExponential expm) (ts : ℝ) {i j : Nat}
    (hi : i < 2 * masses) (hj : j < 2 * masses) :
    (expm ((chainState masses).scale ts)).get (mirror masses i) (mirror masses j) =
      (expm ((chainState masses).scale ts)).get i j := by
  have hshape := hasShape_chainState (K := ℝ) masses
  have htable := hexp.toMatrix (hshape.scale ts)
  rw [Mat.toMatrix_scale hshape] at htable
  let turn : Fin (2 * masses) → Fin (2 * masses) := fun k => ⟨mirror masses k, mirror_lt k.2⟩
  have hturn : Function.Involutive turn := fun k => Fin.ext (mirror_mirror k.2)
  have hfixed : ∀ k l, (ts • (chainState masses : Mat ℝ).toMatrix (2 * masses) (2 * masses))
      (hturn.toPerm turn k) (hturn.toPerm turn l) =
      (ts • (chainState masses : Mat ℝ).toMatrix (2 * masses) (2 * masses)) k l := by
    intro k l
    rw [Matrix.smul_apply, Matrix.smul_apply]
    exact congrArg (ts • ·) (get_chainState_mirror k.2 l.2)
  have := ExponentialForm.exp_apply_perm hfixed ⟨i, hi⟩ ⟨j, hj⟩
  rwa [← htable] at this

/-- What a state matrix of a chain of `masses` masses keeps of its physics. -/
structure Conserves (masses : Nat) (A : Mat ℝ) : Prop where
  /-- It has two states for each mass. -/
  shape : A.HasShape (2 * masses) (2 * masses)
  /-- Its entries are the same from either end of the chain. -/
  mirrored : ∀ i < 2 * masses, ∀ j < 2 * masses,
    A.get i j = A.get (mirror masses i) (mirror masses j)
  /-- A chain that is turned around moves as before, turned around. -/
  turned : ∀ (z : Nat → ℝ), ∀ i < 2 * masses,
    rowSum A.get (2 * masses) (fun j => z (mirror masses j)) i =
      rowSum A.get (2 * masses) z (mirror masses i)
  /-- No state gains or loses energy. -/
  energy : ∀ x : Vec ℝ, energy masses (A.mulVec x).get = energy masses x.get
  /-- Volume is kept. -/
  volume : |(A.toMatrix (2 * masses) (2 * masses)).det| = 1
  /-- Over any number of steps no entry outgrows the number of states. -/
  bounded : ∀ (k : Nat) (i j : Fin (2 * masses)),
    (A.toMatrix (2 * masses) (2 * masses) ^ k) i j ^ 2 ≤ (2 * masses : Nat)

/-- No entry of a vector is larger than its energy allows. -/
theorem sq_le_form (v : Fin (2 * masses) → ℝ) (i : Fin (2 * masses)) :
    v i ^ 2 ≤ (2 * masses : Nat) *
      (v ⬝ᵥ ((energyMatrix masses).toMatrix (2 * masses) (2 * masses)).mulVec v / 2) := by
  obtain ⟨z, rfl⟩ : ∃ z : Nat → ℝ, v = fun i : Fin (2 * masses) => z i :=
    ⟨fun i => if h : i < 2 * masses then v ⟨i, h⟩ else 0, by ext i; simp⟩
  have := sq_le_energy i.2 z
  rwa [energy_eq_form, halfForm_eq_dotProduct] at this

/-- A displacement by one, and a velocity of one, have at most the energy one. -/
theorem energyMatrix_self_le (i : Fin (2 * masses)) :
    (energyMatrix masses : Mat ℝ).get i i ≤ 2 := by
  rw [get_energyMatrix i.2 i.2, stiffness_self]
  split
  · norm_num
  · norm_num

/-- The exponential of a chain keeps the physics of the chain. -/
theorem conserves_exp {expm : Mat ℝ → Mat ℝ} (hexp : IsExponential expm) (masses : Nat) (ts : ℝ) :
    Conserves masses (expm ((chainState masses).scale ts)) := by
  have hshape := hexp.shape ((hasShape_chainState (K := ℝ) masses).scale ts)
  have hform := transpose_mul_energyMatrix hexp masses ts
  generalize hA : expm ((chainState masses).scale ts) = A at hshape hform
  have hmirror : ∀ i < 2 * masses, ∀ j < 2 * masses,
      A.get i j = A.get (mirror masses i) (mirror masses j) := by
    intro i hi j hj
    rw [← hA, get_exp_mirror hexp ts hi hj]
  refine ⟨hshape, hmirror, fun z i hi => ?turned, fun x => ?energy,
    ExponentialForm.abs_det_eq_one (isInvertible_energyMatrix masses) hform,
    fun k i j => ?bounded⟩
  case turned =>
    -- the sum over all masses is the sum over the masses seen from the other end
    refine sum_nbij' (mirror masses) (mirror masses) ?_ ?_ ?_ ?_ ?_
    · exact fun j hj => mem_range.2 (mirror_lt (mem_range.1 hj))
    · exact fun j hj => mem_range.2 (mirror_lt (mem_range.1 hj))
    · exact fun j hj => mirror_mirror (mem_range.1 hj)
    · exact fun j hj => mirror_mirror (mem_range.1 hj)
    · intro j hj
      rw [hmirror i hi j (mem_range.1 hj)]
  case energy =>
    have himage : (fun i : Fin (2 * masses) => (A.mulVec x).get i) =
        (A.toMatrix (2 * masses) (2 * masses)).mulVec fun i => x.get i := by
      ext i
      rw [Mat.get_mulVec_eq _ _ (hshape.rows.symm ▸ i.2), hshape.cols, Mat.rowSum_eq_mulVec]
    rw [energy_eq_form, energy_eq_form, halfForm_eq_dotProduct, halfForm_eq_dotProduct, himage,
      ExponentialForm.form_mulVec hform]
  case bounded =>
    have hcolumn : (A.toMatrix (2 * masses) (2 * masses) ^ k).mulVec (Pi.single j 1) i =
        (A.toMatrix (2 * masses) (2 * masses) ^ k) i j := by
      rw [Matrix.mulVec_single_one, Matrix.col_apply]
    have hle := sq_le_form ((A.toMatrix (2 * masses) (2 * masses) ^ k).mulVec (Pi.single j 1)) i
    rw [ExponentialForm.form_mulVec (ExponentialForm.transpose_pow_mul hform k), hcolumn,
      Matrix.mulVec_single_one, single_one_dotProduct, Matrix.col_apply, Mat.toMatrix_apply] at hle
    have hself := energyMatrix_self_le j
    calc _ ≤ _ := hle
      _ ≤ ((2 * masses : Nat) : ℝ) * 1 :=
          mul_le_mul_of_nonneg_left (by linarith) (Nat.cast_nonneg _)
      _ = _ := mul_one _

end Sampled

end ContinuousPlant

open ContinuousPlant in
/-- **A sampled chain keeps the physics of the chain.** With the exponential series, whatever the
linear solve, a chain that is sampled has a state matrix that is the same from either end of the
chain and that no state loses energy by; it keeps volume, and its powers stay bounded. With an exact
linear solve every chain is sampled, with every positive period. -/
theorem sampled_chain_conserves {expm : Mat ℝ → Mat ℝ} (hexp : IsExponential expm) :
    (∀ (solve : Mat ℝ → Mat ℝ → Option (Mat ℝ)) (nx nu : Nat) (ts : ℝ) (c : ContinuousPlant ℝ)
        (d : SampledPlant ℝ), chain? nx nu = .ok c → c.sampleWith expm solve ts = .ok d →
      d.A.HasShape nx nx ∧ Conserves (nx / 2) d.A) ∧
    ∀ solve : Mat ℝ → Mat ℝ → Option (Mat ℝ), ExactSolve solve → ∀ (nx nu : Nat) (ts : ℝ),
      2 ≤ nx → nx % 2 = 0 → 1 ≤ nu → nu ≤ nx / 2 → 0 < ts →
        ∃ c d, chain? nx nu = .ok c ∧ c.sampleWith expm solve ts = .ok d := by
  constructor
  · intro solve nx nu ts c d hc hd
    obtain ⟨hsizes, rfl⟩ := chain?_eq_ok_iff.1 hc
    obtain ⟨_, b, _, rfl⟩ := sampleWith_eq_ok_iff.1 hd
    have heven := hsizes.even
    have htwice : 2 * (nx / 2) = nx := by omega
    have hkeeps := conserves_exp hexp (nx / 2) ts
    refine ⟨?_, hkeeps⟩
    have hshape := hkeeps.shape
    rwa [htwice] at hshape
  · intro solve hsolve nx nu ts hnx heven hnu hle hts
    obtain ⟨d, hd⟩ := exists_sampleWith hexp.exact hsolve
      (fitted_forcedChain heven nu (Vec.size_zeros nx)) (isInvertible_forcedChain ..) hts
    exact ⟨_, d, chain?_eq_ok_iff.2 ⟨⟨by omega, heven, hnu, hle⟩, rfl⟩, hd⟩

open ContinuousPlant in
/-- For instance three masses of which two are pushed, sampled four times a second: after a
thousand steps a displacement by one is still at most the square root of six. -/
theorem sampled_chain_conserves_threeMasses : IsExponential Mat.realExp ∧
    ∃ c d, chain? 6 2 = .ok c ∧ c.sampleWith Mat.realExp Mat.solve? (1 / 4) = .ok d ∧
      d.A.get 0 4 = d.A.get 2 4 ∧ (∀ x : Vec ℝ, energy 3 (d.A.mulVec x).get = energy 3 x.get) ∧
      |(d.A.toMatrix 6 6).det| = 1 ∧ ((d.A.toMatrix 6 6) ^ 1000) 0 0 ^ 2 ≤ (6 : Nat) := by
  obtain ⟨hkeeps, hsampled⟩ := sampled_chain_conserves isExponential_realExp
  obtain ⟨c, d, hc, hd⟩ := hsampled _ Mat.exactSolve_solve? 6 2 (1 / 4) (by decide) rfl
    (by decide) (by decide) (by norm_num)
  obtain ⟨_, h⟩ := hkeeps _ 6 2 (1 / 4) c d hc hd
  exact ⟨isExponential_realExp, c, d, hc, hd, h.mirrored 0 (by decide) 4 (by decide), h.energy,
    h.volume, h.bounded 1000 (0 : Fin 6) (0 : Fin 6)⟩

end StagedQP
