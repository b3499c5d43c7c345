import StagedQP.Proofs.BlockSystem
import StagedQP.Proofs.Condensation
import StagedQP.Proofs.StepPhases

/-!
# The linearised optimality system

A Newton direction is found on the condensed system, by a recursion along the chain. This module
puts the pieces together: the direction solves the full linearised system, row by row,

```text
hess dv + dynᵀ dpi - [0; dpi before] - jacᵀ (dlam_lo - dlam_up) = -stat - [shift du; 0]
dyn dv - dx after                                               = -dyn residual
 jac dv - dt_lo                                                 = -lower residual
-jac dv - dt_up                                                 = -upper residual
t dlam + lam dt                                                 = -comp
```

where `shift` is what was added to the diagonal of the control block of the stage.

The rows of the dynamics and of the inequalities hold whatever the factorization did; the
stationarity rows rest on it.

## Main results

* `Directed.dynRow`, `StageState.lowerRow`, `StageState.upperRow` — the rows that hold by the way
  the direction is filled in.
* `Directed.condensed_rows` — the stationarity rows, condensed.
* `Directed.newtonRows` — all rows.
-/

namespace StagedQP

open Finset

variable {K : Type} [Field K] [LinearOrder K] [SquareRoot K]

/-! ## The rows of a stage -/

/-- The direction solves the linearised optimality system at the stage, whose control block was
shifted by `shift`. -/
structure StageState.NewtonRows (before after : Vec K) (shift : K) (s : StageState K) : Prop where
  /-- Stationarity. -/
  stat : ∀ i < s.nu + s.nx,
    (s.data.hess.mulVec s.direction.dv).get i + (s.data.dyn.trMulVec s.direction.dpi).get i
        - (if i < s.nu then 0 else before.get (i - s.nu))
        - (s.data.jac.trMulVec (s.direction.dlam.lo.sub s.direction.dlam.up)).get i =
      -s.residual.stat.get i - if i < s.nu then shift * s.direction.dv.get i else 0
  /-- Dynamics. -/
  dyn : ∀ i < s.data.dyn.rows,
    (s.data.dyn.mulVec s.direction.dv).get i - after.get i = -s.residual.dyn.get i
  /-- Lower sides of the inequality rows. -/
  lower : ∀ i < s.nc,
    (s.data.jac.mulVec s.direction.dv).get i - s.direction.dt.lo.get i =
      -s.residual.ineq.lo.get i
  /-- Upper sides of the inequality rows. -/
  upper : ∀ i < s.nc,
    -(s.data.jac.mulVec s.direction.dv).get i - s.direction.dt.up.get i =
      -s.residual.ineq.up.get i
  /-- Complementarity of the lower sides. -/
  productLower : ∀ i < s.nc,
    s.point.t.lo.get i * s.direction.dlam.lo.get i
        + s.point.lam.lo.get i * s.direction.dt.lo.get i =
      -s.residual.comp.lo.get i
  /-- Complementarity of the upper sides. -/
  productUpper : ∀ i < s.nc,
    s.point.t.up.get i * s.direction.dlam.up.get i
        + s.point.lam.up.get i * s.direction.dt.up.get i =
      -s.residual.comp.up.get i

/-! ## Rows that hold by construction -/

namespace Directed

variable {l : List (StageState K)} (hd : Directed l) (hl : Chained l)

include hd hl

theorem size_grad {k : Nat} {s : StageState K} (hs : l[k]? = some s) :
    s.condensed.grad.size = s.nu + s.nx := by
  rw [hd.condensed k s hs]
  exact (Mat.size_addTrMulVec ..).trans (hl k s hs).stat

/-- A Newton direction is a direction of the sweeps for the condensed gradients. -/
theorem solvedChain : SolvedChain l where
  pulled := hd.pulled
  rolled := hd.rolled
  grad := fun _ _ hs => hd.size_grad hl hs

/-- The states of the stage after follow the linearised dynamics. -/
theorem get_dxAfter {k : Nat} {s : StageState K} (hs : l[k]? = some s) {i : Nat}
    (hi : i < s.data.dyn.rows) : (dxAfter l k).get i = s.residual.dyn.get i +
      rowSum s.data.dyn.get (s.nu + s.nx) s.direction.dv.get i :=
  (hd.solvedChain hl).get_dxAfter hl hs hi

theorem dynRow {k : Nat} {s : StageState K} (hs : l[k]? = some s) {i : Nat}
    (hi : i < s.data.dyn.rows) :
    (s.data.dyn.mulVec s.direction.dv).get i - (dxAfter l k).get i = -s.residual.dyn.get i := by
  rw [hd.get_dxAfter hl hs hi, Mat.get_mulVec_eq _ _ hi, (hl k s hs).dyn_cols]
  ring

end Directed

namespace StageState

variable {s : StageState K} {n : Nat} (hs : s.Shaped n)

include hs

theorem get_mulVec_dv {i : Nat} (hi : i < s.nc) :
    (s.data.jac.mulVec s.direction.dv).get i = s.rowDirection i := by
  rw [Mat.get_mulVec_eq _ _ (hs.jac_rows.symm ▸ hi), hs.jac_cols, rowDirection]

variable (hslack : s.direction.dt = s.expand.direction.dt)

include hslack

theorem lowerRow {i : Nat} (hi : i < s.nc) :
    (s.data.jac.mulVec s.direction.dv).get i - s.direction.dt.lo.get i =
      -s.residual.ineq.lo.get i := by
  rw [get_mulVec_dv hs hi, get_dt_lo hs hslack hi]
  ring

theorem upperRow {i : Nat} (hi : i < s.nc) :
    -(s.data.jac.mulVec s.direction.dv).get i - s.direction.dt.up.get i =
      -s.residual.ineq.up.get i := by
  rw [get_mulVec_dv hs hi, get_dt_up hs hslack hi]
  ring

variable (hcomp : s.CompShaped) (hmult : s.direction.dlam = s.expand.direction.dlam)

include hcomp hmult

theorem productLowerRow {i : Nat} (hi : i < s.nc) (ht : s.point.t.lo.get i ≠ 0) :
    s.point.t.lo.get i * s.direction.dlam.lo.get i
        + s.point.lam.lo.get i * s.direction.dt.lo.get i =
      -s.residual.comp.lo.get i := by
  rw [get_dlam_lo hs hcomp hslack hmult hi, mul_div_cancel₀ _ ht]
  ring

theorem productUpperRow {i : Nat} (hi : i < s.nc) (ht : s.point.t.up.get i ≠ 0) :
    s.point.t.up.get i * s.direction.dlam.up.get i
        + s.point.lam.up.get i * s.direction.dt.up.get i =
      -s.residual.comp.up.get i := by
  rw [get_dlam_up hs hcomp hslack hmult hi, mul_div_cancel₀ _ ht]
  ring

omit hslack in
/-- The rows' transpose applied to the multiplier directions is the force on the stage vector. -/
theorem get_trMulVec_dlam {i : Nat} (hi : i < s.nu + s.nx) :
    (s.data.jac.trMulVec (s.direction.dlam.lo.sub s.direction.dlam.up)).get i =
      colSum s.data.jac.get s.nc s.forceDirection i := by
  have hsize : s.direction.dlam.lo.size = s.nc := by
    rw [hmult]
    show (sideMultiplier _ _ _ _).size = _
    rw [sideMultiplier, Vec.size_zipWith, Vec.size_neg, Vec.size_add, hcomp.lo]
  rw [Mat.get_trMulVec _ _ (hs.jac_cols.symm ▸ hi), hs.jac_rows]
  exact colSum_congr _ i fun k hk => Vec.get_sub _ _ (hsize.symm ▸ hk)

end StageState

/-! ## Stationarity -/

namespace Factorized

variable {l : List (StageState K)} {shift : Nat → Option K} (hf : Factorized shift l)

include hf

/-- A factorized chain is swept. -/
theorem sweptChain : SweptChain shift l := ⟨hf.inner, hf.last⟩

/-- Its condensed Hessians are symmetric if the Hessians of the data are. -/
theorem condensedSymmetric (hl : Chained l)
    (hsymm : ∀ s ∈ l, SymmetricUpTo (s.nu + s.nx) s.data.hess.get) :
    ∀ s ∈ l, s.CondensedSymmetric := by
  intro s hmem
  obtain ⟨k, hs⟩ := List.getElem?_of_mem hmem
  have hshape := hl k s hs
  have hc := hf.hess k s hs
  exact ⟨StageState.condensed_hess_rows hshape hc, StageState.condensed_hess_cols hshape hc,
    StageState.condensed_hess_symm hshape hc (hsymm s hmem)⟩

end Factorized

namespace Directed

variable {l : List (StageState K)} (hd : Directed l) (hl : HorizonShaped l)
  (hsymm : ∀ s ∈ l, SymmetricUpTo (s.nu + s.nx) s.data.hess.get)
  {shift : Nat → Option K} (hf : Factorized shift l)

include hd hl hsymm hf

/-- The rows of the condensed system with the multipliers of the dynamics put back. -/
theorem condensed_rows [ExactRoots K] [IsStrictOrderedRing K] {k : Nat} {s : StageState K}
    (hs : l[k]? = some s) {i : Nat} (hi : i < s.nu + s.nx) :
    s.condensed.grad.get i + rowSum s.condensed.hess.get (s.nu + s.nx) s.direction.dv.get i
        + colSum s.data.dyn.get s.data.dyn.rows s.direction.dpi.get i =
      if i < s.nu then -((shift k).getD 0 * s.direction.dv.get i)
      else (dpiBefore l k).get (i - s.nu) :=
  (hd.solvedChain hl.chained).condensed_rows hl hf.sweptChain
    (hf.condensedSymmetric hl.chained hsymm) hs hi

/-- All rows of the linearised optimality system, at one stage. -/
theorem newtonRows [ExactRoots K] [IsStrictOrderedRing K] {k : Nat} {s : StageState K}
    (hs : l[k]? = some s) (hcomp : s.CompShaped)
    (ht : ∀ i < s.nc, s.point.t.lo.get i ≠ 0 ∧ s.point.t.up.get i ≠ 0) :
    s.NewtonRows (dpiBefore l k) (dxAfter l k) ((shift k).getD 0) := by
  have hshape := hl.chained k s hs
  have hslack := hd.slack k s hs
  have hmult := hd.multiplier k s hs
  refine ⟨?_, fun i hi => hd.dynRow hl.chained hs hi,
    fun i hi => StageState.lowerRow hshape hslack hi,
    fun i hi => StageState.upperRow hshape hslack hi,
    fun i hi => StageState.productLowerRow hshape hslack hcomp hmult hi (ht i hi).1,
    fun i hi => StageState.productUpperRow hshape hslack hcomp hmult hi (ht i hi).2⟩
  intro i hi
  have hrows := hd.condensed_rows hl hsymm hf hs hi
  rw [StageState.condensed_balance hshape hcomp (hf.hess k s hs) (hd.condensed k s hs) hslack
    hmult hi] at hrows
  rw [Mat.get_mulVec_eq _ _ (hshape.hess_rows.symm ▸ hi), hshape.hess_cols,
    Mat.get_trMulVec _ _ (hshape.dyn_cols.symm ▸ hi),
    StageState.get_trMulVec_dlam hshape hcomp hmult hi]
  split
  · rw [if_pos ‹_›] at hrows
    linear_combination hrows
  · rw [if_neg ‹_›] at hrows
    linear_combination hrows

end Directed

end StagedQP
