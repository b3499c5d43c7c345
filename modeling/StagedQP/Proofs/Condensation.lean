import StagedQP.Proofs.ExactArithmetic
import StagedQP.Proofs.StageChain

/-!
# Elimination of slacks and inequality multipliers

The condensed Hessian and gradient carry the inequality rows of a stage as barrier terms. For a
direction whose slack and multiplier parts were filled in by `StageState.expand`, barrier weight and
complementarity term of a row add up to the force that the row's multipliers exert, so that the
condensed system is the full one with four families of unknowns eliminated.

## Main results

* `StageState.get_dt_lo`, `StageState.get_dlam_lo` and their upper companions — the directions that
  were eliminated.
* `StageState.condensed_balance` — condensed gradient and Hessian against the full ones.
-/

namespace StagedQP

open Finset

variable {K : Type} [Field K] [LinearOrder K] [SquareRoot K]

namespace StageState

variable {s : StageState K} {n : Nat}

/-- The rows applied to the direction of the stage vector. -/
def rowDirection (s : StageState K) (i : Nat) : K :=
  rowSum s.data.jac.get (s.nu + s.nx) s.direction.dv.get i

/-- The force that the directions of the inequality multipliers exert on a row. -/
def forceDirection (s : StageState K) (i : Nat) : K :=
  s.direction.dlam.lo.get i - s.direction.dlam.up.get i

section Condensation

variable (hs : s.Shaped n)

include hs

theorem get_weight {i : Nat} (hi : i < s.nc) : s.condenseHessian.condensed.weight.get i =
    s.point.lam.lo.get i / s.point.t.lo.get i + s.point.lam.up.get i / s.point.t.up.get i := by
  have hlo : i < s.point.lam.lo.size := hs.lam_lo.symm ▸ hi
  show ((s.point.lam.lo.zipWith (· / ·) s.point.t.lo).add _).get i = _
  rw [Vec.get_add _ _ (by rw [Vec.size_zipWith]; exact hlo), Vec.get_zipWith _ _ _ hlo,
    Vec.get_zipWith _ _ _ (hs.lam_up.symm ▸ hi)]

theorem get_condensed_hess (hc : s.condensed.hess = s.condenseHessian.condensed.hess) {i j : Nat}
    (hi : i < s.nu + s.nx) (hj : j < s.nu + s.nx) : s.condensed.hess.get i j =
      s.data.hess.get i j + ∑ k ∈ range s.nc, s.data.jac.get k i *
        (s.condenseHessian.condensed.weight.get k * s.data.jac.get k j) := by
  rw [hc]
  show (Mat.addTrMul s.data.hess s.data.jac
    (Mat.scaleRows s.condenseHessian.condensed.weight s.data.jac)).get i j = _
  rw [Mat.get_addTrMul _ _ _ (hs.hess_rows ▸ hi) (hs.hess_cols ▸ hj), hs.jac_rows]
  congr 1
  refine sum_congr rfl fun k hk => ?_
  rw [Mat.get_scaleRows _ _ (hs.jac_rows.symm ▸ mem_range.1 hk) (hs.jac_cols.symm ▸ hj)]
  ring

theorem condensed_hess_rows (hc : s.condensed.hess = s.condenseHessian.condensed.hess) :
    s.condensed.hess.rows = s.nu + s.nx := by
  rw [hc]
  exact hs.hess_rows

theorem condensed_hess_cols (hc : s.condensed.hess = s.condenseHessian.condensed.hess) :
    s.condensed.hess.cols = s.nu + s.nx := by
  rw [hc]
  exact hs.hess_cols

/-- The barrier terms are symmetric, so the condensed Hessian is if the Hessian is. -/
theorem condensed_hess_symm (hc : s.condensed.hess = s.condenseHessian.condensed.hess)
    (h : SymmetricUpTo (s.nu + s.nx) s.data.hess.get) :
    SymmetricUpTo (s.nu + s.nx) s.condensed.hess.get := by
  intro i hi j hj
  rw [get_condensed_hess hs hc hi hj, get_condensed_hess hs hc hj hi, h i hi j hj]
  congr 1
  refine sum_congr rfl fun k _ => ?_
  ring

theorem rowSum_condensed_hess (hc : s.condensed.hess = s.condenseHessian.condensed.hess)
    (x : Nat → K) {i : Nat} (hi : i < s.nu + s.nx) :
    rowSum s.condensed.hess.get (s.nu + s.nx) x i = rowSum s.data.hess.get (s.nu + s.nx) x i +
      colSum s.data.jac.get s.nc (fun k => s.condenseHessian.condensed.weight.get k *
        rowSum s.data.jac.get (s.nu + s.nx) x k) i := by
  have hbarrier : colSum s.data.jac.get s.nc (fun k => s.condenseHessian.condensed.weight.get k *
      rowSum s.data.jac.get (s.nu + s.nx) x k) i =
      rowSum (fun i j => ∑ k ∈ range s.nc, s.data.jac.get k i *
        (s.condenseHessian.condensed.weight.get k * s.data.jac.get k j)) (s.nu + s.nx) x i := by
    rw [rowSum_comp (a := fun i k => s.data.jac.get k i) (m := s.nc)
      (b := fun k j => s.condenseHessian.condensed.weight.get k * s.data.jac.get k j) x i
      fun j _ => rfl]
    refine sum_congr rfl fun k _ => ?_
    simp only [rowSum, mul_sum, mul_assoc]
  rw [hbarrier, rowSum, rowSum, rowSum, ← sum_add_distrib]
  refine sum_congr rfl fun j hj => ?_
  rw [get_condensed_hess hs hc hi (mem_range.1 hj), add_mul]

variable (hcomp : s.CompShaped)

/-- The slack directions satisfy the equation of the lower rows. -/
theorem get_dt_lo (hslack : s.direction.dt = s.expand.direction.dt) {i : Nat} (hi : i < s.nc) :
    s.direction.dt.lo.get i = s.rowDirection i + s.residual.ineq.lo.get i := by
  have hrow : i < s.data.jac.rows := hs.jac_rows.symm ▸ hi
  rw [hslack]
  show ((s.data.jac.mulVec s.direction.dv).add _).get i = _
  rw [Vec.get_add _ _ (by rw [Mat.size_mulVec]; exact hrow), Mat.get_mulVec_eq _ _ hrow,
    hs.jac_cols, rowDirection]

/-- They satisfy the equation of the upper rows. -/
theorem get_dt_up (hslack : s.direction.dt = s.expand.direction.dt) {i : Nat} (hi : i < s.nc) :
    s.direction.dt.up.get i = -s.rowDirection i + s.residual.ineq.up.get i := by
  have hrow : i < s.data.jac.rows := hs.jac_rows.symm ▸ hi
  rw [hslack]
  show ((s.data.jac.mulVec s.direction.dv).neg.add _).get i = _
  rw [Vec.get_add _ _ (by rw [Vec.size_neg, Mat.size_mulVec]; exact hrow),
    Vec.get_neg _ (by rw [Mat.size_mulVec]; exact hrow), Mat.get_mulVec_eq _ _ hrow,
    hs.jac_cols, rowDirection]

omit hs in
theorem get_sideTerm {comp lam ineq t : Vec K} {i : Nat} (hi : i < comp.size) :
    (sideTerm comp lam ineq t).get i =
      (comp.get i + (lam.zipWith (· * ·) ineq).get i) / t.get i := by
  rw [sideTerm, Vec.get_zipWith _ _ _ (by rw [Vec.size_add]; exact hi), Vec.get_add _ _ hi]

omit hs in
theorem get_sideMultiplier {comp lam dt t : Vec K} {i : Nat} (hi : i < comp.size)
    (hl : i < lam.size) : (sideMultiplier comp lam dt t).get i =
      -(comp.get i + lam.get i * dt.get i) / t.get i := by
  rw [sideMultiplier, Vec.get_zipWith _ _ _ (by rw [Vec.size_neg, Vec.size_add]; exact hi),
    Vec.get_neg _ (by rw [Vec.size_add]; exact hi), Vec.get_add _ _ hi, Vec.get_zipWith _ _ _ hl]

include hcomp

theorem get_dlam_lo (hslack : s.direction.dt = s.expand.direction.dt)
    (hmult : s.direction.dlam = s.expand.direction.dlam) {i : Nat} (hi : i < s.nc) :
    s.direction.dlam.lo.get i =
      -(s.residual.comp.lo.get i + s.point.lam.lo.get i * s.direction.dt.lo.get i)
        / s.point.t.lo.get i := by
  rw [hmult, hslack]
  exact get_sideMultiplier (hcomp.lo.symm ▸ hi) (hs.lam_lo.symm ▸ hi)

theorem get_dlam_up (hslack : s.direction.dt = s.expand.direction.dt)
    (hmult : s.direction.dlam = s.expand.direction.dlam) {i : Nat} (hi : i < s.nc) :
    s.direction.dlam.up.get i =
      -(s.residual.comp.up.get i + s.point.lam.up.get i * s.direction.dt.up.get i)
        / s.point.t.up.get i := by
  rw [hmult, hslack]
  exact get_sideMultiplier (hcomp.up.symm ▸ hi) (hs.lam_up.symm ▸ hi)

/-- The complementarity term of a row. -/
theorem get_term {i : Nat} (hi : i < s.nc) : s.condenseGradient.condensed.term.get i =
      (s.residual.comp.lo.get i + s.point.lam.lo.get i * s.residual.ineq.lo.get i)
          / s.point.t.lo.get i
        - (s.residual.comp.up.get i + s.point.lam.up.get i * s.residual.ineq.up.get i)
          / s.point.t.up.get i := by
  have hlo : i < s.residual.comp.lo.size := hcomp.lo.symm ▸ hi
  show ((sideTerm _ _ _ _).sub (sideTerm _ _ _ _)).get i = _
  rw [Vec.get_sub _ _ (by rw [sideTerm, Vec.size_zipWith, Vec.size_add]; exact hlo),
    get_sideTerm hlo, get_sideTerm (hcomp.up.symm ▸ hi),
    Vec.get_zipWith _ _ _ (hs.lam_lo.symm ▸ hi), Vec.get_zipWith _ _ _ (hs.lam_up.symm ▸ hi)]

/-- Barrier weight and complementarity term of a row make up the force that was eliminated. -/
theorem weight_mul_rowDirection (hslack : s.direction.dt = s.expand.direction.dt)
    (hmult : s.direction.dlam = s.expand.direction.dlam) {i : Nat} (hi : i < s.nc) :
    s.condenseHessian.condensed.weight.get i * s.rowDirection i +
      s.condenseGradient.condensed.term.get i = -s.forceDirection i := by
  rw [forceDirection, get_dlam_lo hs hcomp hslack hmult hi, get_dlam_up hs hcomp hslack hmult hi,
    get_dt_lo hs hslack hi, get_dt_up hs hslack hi, get_weight hs hi, get_term hs hcomp hi]
  ring

omit hcomp in
/-- The condensed gradient. -/
theorem get_condensed_grad (hg : s.condensed.grad = s.condenseGradient.condensed.grad) {i : Nat}
    (hi : i < s.nu + s.nx) : s.condensed.grad.get i = s.residual.stat.get i +
      colSum s.data.jac.get s.nc s.condenseGradient.condensed.term.get i := by
  rw [hg]
  show (Mat.addTrMulVec _ _ s.condenseGradient.condensed.term).get i = _
  rw [Mat.get_addTrMulVec _ _ _ (hs.stat.symm ▸ hi), hs.jac_rows]

/-- The condensed system is the full one with slacks and inequality multipliers eliminated. -/
theorem condensed_balance (hc : s.condensed.hess = s.condenseHessian.condensed.hess)
    (hg : s.condensed.grad = s.condenseGradient.condensed.grad)
    (hslack : s.direction.dt = s.expand.direction.dt)
    (hmult : s.direction.dlam = s.expand.direction.dlam) {i : Nat} (hi : i < s.nu + s.nx) :
    s.condensed.grad.get i + rowSum s.condensed.hess.get (s.nu + s.nx) s.direction.dv.get i =
      s.residual.stat.get i + rowSum s.data.hess.get (s.nu + s.nx) s.direction.dv.get i
        - colSum s.data.jac.get s.nc s.forceDirection i := by
  have hforce : colSum s.data.jac.get s.nc (fun k => s.condenseHessian.condensed.weight.get k *
      rowSum s.data.jac.get (s.nu + s.nx) s.direction.dv.get k) i +
      colSum s.data.jac.get s.nc s.condenseGradient.condensed.term.get i =
      -colSum s.data.jac.get s.nc s.forceDirection i := by
    rw [← colSum_add, ← colSum_neg]
    exact colSum_congr _ i fun k hk => weight_mul_rowDirection hs hcomp hslack hmult hk
  rw [rowSum_condensed_hess hs hc _ hi, get_condensed_grad hs hg hi]
  linear_combination hforce

end Condensation

end StageState

end StagedQP
