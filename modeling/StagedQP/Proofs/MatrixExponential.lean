import Mathlib.Analysis.Normed.Algebra.MatrixExponential
import StagedQP.Proofs.MatrixView

/-!
# Exact exponentials of matrices

The exponential that samples a plant is a parameter of the sampling. What a statement in exact
arithmetic needs to know of it comes in two strengths:

* `ExactExponential expm`, over any ordered field: the laws of a one-parameter group,
  `exp ((s + t) M) = exp (s M) exp (t M)`, and that `exp (t M)` commutes with `M`;
* `IsExponential expm`, over the real numbers: `expm` is the exponential series.

The second gives the first, and `Mat.realExp` is an exponential of the second kind.

## Main results

* `IsExponential.exact` — the exponential series is a one-parameter group.
* `isExponential_realExp` — the exponential series of a stored matrix.
-/

namespace StagedQP

/-- An exponential in exact arithmetic: along the multiples of one matrix it turns sums into
products, and it commutes with the matrix. -/
structure ExactExponential {K : Type} [Field K] [LinearOrder K] [SquareRoot K]
    (expm : Mat K → Mat K) : Prop where
  /-- The exponential of a square matrix is one of the same size. -/
  shape : ∀ {n : Nat} {m : Mat K}, m.HasShape n n → (expm m).HasShape n n
  /-- Sums become products. -/
  add : ∀ {n : Nat} {m : Mat K}, m.HasShape n n → ∀ s t : K,
    expm (m.scale (s + t)) = (expm (m.scale s)).mul (expm (m.scale t))
  /-- The exponential commutes with what it is the exponential of. -/
  comm : ∀ {n : Nat} {m : Mat K}, m.HasShape n n → ∀ t : K,
    (expm (m.scale t)).mul m = m.mul (expm (m.scale t))

/-- The exponential series, on square matrices. -/
structure IsExponential (expm : Mat ℝ → Mat ℝ) : Prop where
  /-- The exponential of a square matrix is one of the same size. -/
  shape : ∀ {n : Nat} {m : Mat ℝ}, m.HasShape n n → (expm m).HasShape n n
  /-- Its entries are those of the series. -/
  toMatrix : ∀ {n : Nat} {m : Mat ℝ}, m.HasShape n n →
    (expm m).toMatrix n n = NormedSpace.exp (m.toMatrix n n)

/-- The exponential series is a one-parameter group. -/
theorem IsExponential.exact {expm : Mat ℝ → Mat ℝ} (h : IsExponential expm) :
    ExactExponential expm where
  shape := h.shape
  add {n m} hm s t := by
    have hshape : ∀ r : ℝ, (expm (m.scale r)).HasShape n n := fun r => h.shape (hm.scale r)
    refine (hshape _).ext ((hshape s).mul (hshape t)) ?_
    rw [Mat.toMatrix_mul (hshape s) (hshape t), h.toMatrix (hm.scale _), h.toMatrix (hm.scale s),
      h.toMatrix (hm.scale t), Mat.toMatrix_scale hm, Mat.toMatrix_scale hm, Mat.toMatrix_scale hm,
      add_smul]
    exact Matrix.exp_add_of_commute _ _ (((Commute.refl _).smul_left s).smul_right t)
  comm {n m} hm t := by
    have hshape : (expm (m.scale t)).HasShape n n := h.shape (hm.scale t)
    refine (hshape.mul hm).ext (hm.mul hshape) ?_
    rw [Mat.toMatrix_mul hshape hm, Mat.toMatrix_mul hm hshape, h.toMatrix (hm.scale t),
      Mat.toMatrix_scale hm]
    exact ((Commute.refl _).smul_left t).exp_left

/-- The exponential series of a stored matrix. -/
noncomputable def Mat.realExp (m : Mat ℝ) : Mat ℝ :=
  Mat.ofMatrix (NormedSpace.exp (m.toMatrix m.rows m.rows))

theorem isExponential_realExp : IsExponential Mat.realExp where
  shape {n m} hm := by
    obtain rfl := hm.rows
    exact Mat.hasShape_ofMatrix _
  toMatrix {n m} hm := by
    obtain rfl := hm.rows
    exact Mat.toMatrix_ofMatrix _

end StagedQP
