import StagedQP.Proofs.NewtonRows
import StagedQP.Proofs.ResidualEvaluation

/-!
# Residuals after a step

The residuals of the dynamics and of the inequality rows are affine in the point, and a Newton
direction solves their linearisation, so a step of length `a` scales them by `1 - a` exactly. The
stationarity residual is affine as well: the multipliers of a stage and those of the stage before
move by the same step, which is what makes the coupling terms cancel.

A chain whose residuals are those of its own point is called `Evaluated`. A direction is always
sought on such a chain.

## Main results

* `StageState.get_evaluated_stat` and its companions — residuals by their entries.
* `Evaluated.dyn_moved`, `Evaluated.lower_moved`, `Evaluated.upper_moved` — exact contraction, for
  any factorization.
* `Evaluated.stat_moved` — the same for stationarity, up to the shift of the control block.
-/

namespace StagedQP

open Finset

variable {K : Type} [Field K] [LinearOrder K] [SquareRoot K]

/-! ## Residuals by their entries -/

namespace StageState

variable {s : StageState K} {n : Nat} (hs : s.Shaped n) (before after : Option (StageState K))

include hs

/-- The dynamics residual. -/
theorem get_evaluated_dyn {i : Nat} (hi : i < n) :
    (s.evaluated before after).residual.dyn.get i = s.data.off.get i +
      rowSum s.data.dyn.get (s.nu + s.nx) s.point.v.get i -
        after.elim 0 fun next => next.states.get i := by
  have hoff : i < s.data.off.size := hs.off.symm ▸ hi
  have hown : s.ownResiduals.residual.dyn.get i = s.data.off.get i +
      rowSum s.data.dyn.get (s.nu + s.nx) s.point.v.get i := by
    show (Mat.addMulVec _ _ _).get i = _
    rw [Mat.get_addMulVec _ _ _ hoff, hs.dyn_cols]
  rw [evaluated_dyn]
  cases after with
  | none =>
      rw [Option.elim_none, Option.elim_none, hown, sub_zero]
  | some next =>
      have hsize : i < s.ownResiduals.residual.dyn.size := by
        show i < (Mat.addMulVec _ _ _).size
        rw [Mat.size_addMulVec]
        exact hoff
      rw [Option.elim_some, Option.elim_some, Vec.get_sub _ _ hsize, hown]

theorem size_evaluated_dyn : (s.evaluated before after).residual.dyn.size = n := by
  have hown : s.ownResiduals.residual.dyn.size = n := (Mat.size_addMulVec ..).trans hs.off
  rw [evaluated_dyn]
  cases after with
  | none => exact hown
  | some next => exact (Vec.size_sub ..).trans hown

/-- The residual of the lower sides. -/
theorem get_evaluated_lo {i : Nat} (hi : i < s.nc) :
    (s.evaluated before after).residual.ineq.lo.get i =
      rowSum s.data.jac.get (s.nu + s.nx) s.point.v.get i - s.data.bound.lo.get i
        - s.point.t.lo.get i := by
  have hrow : i < s.data.jac.rows := hs.jac_rows.symm ▸ hi
  rw [evaluated_ineq]
  show (((s.data.jac.mulVec s.point.v).sub _).sub _).get i = _
  rw [Vec.get_sub _ _ (by rw [Vec.size_sub, Mat.size_mulVec]; exact hrow),
    Vec.get_sub _ _ (by rw [Mat.size_mulVec]; exact hrow), Mat.get_mulVec_eq _ _ hrow, hs.jac_cols]

theorem size_evaluated_lo : (s.evaluated before after).residual.ineq.lo.size = s.nc := by
  rw [evaluated_ineq]
  show ((Vec.sub _ _).sub _).size = _
  rw [Vec.size_sub, Vec.size_sub, Mat.size_mulVec, hs.jac_rows]

/-- The residual of the upper sides. -/
theorem get_evaluated_up {i : Nat} (hi : i < s.nc) :
    (s.evaluated before after).residual.ineq.up.get i =
      s.data.bound.up.get i - rowSum s.data.jac.get (s.nu + s.nx) s.point.v.get i
        - s.point.t.up.get i := by
  have hrow : i < s.data.jac.rows := hs.jac_rows.symm ▸ hi
  have hup : i < s.data.bound.up.size := hs.bound_up.symm ▸ hi
  rw [evaluated_ineq]
  show ((s.data.bound.up.sub (s.data.jac.mulVec s.point.v)).sub _).get i = _
  rw [Vec.get_sub _ _ (by rw [Vec.size_sub]; exact hup), Vec.get_sub _ _ hup,
    Mat.get_mulVec_eq _ _ hrow, hs.jac_cols]

theorem size_evaluated_up : (s.evaluated before after).residual.ineq.up.size = s.nc := by
  rw [evaluated_ineq]
  show ((Vec.sub _ _).sub _).size = _
  rw [Vec.size_sub, Vec.size_sub, hs.bound_up]

/-- The stationarity residual. -/
theorem get_evaluated_stat {i : Nat} (hi : i < s.nu + s.nx) :
    (s.evaluated before after).residual.stat.get i =
      s.data.grad.get i + rowSum s.data.hess.get (s.nu + s.nx) s.point.v.get i
        + colSum s.data.dyn.get n s.point.pi.get i
        - colSum s.data.jac.get s.nc (fun k => s.point.lam.lo.get k - s.point.lam.up.get k) i
        - if i < s.nu then 0 else before.elim 0 fun b => b.point.pi.get (i - s.nu) := by
  have hgrad : i < s.data.grad.size := hs.grad.symm ▸ hi
  have hsize : s.ownResiduals.residual.stat.size = s.nu + s.nx := by
    show (Mat.subTrMulVec _ _ _).size = _
    rw [Mat.size_subTrMulVec, Mat.size_addTrMulVec, Mat.size_addMulVec, hs.grad]
  have hown : s.ownResiduals.residual.stat.get i =
      s.data.grad.get i + rowSum s.data.hess.get (s.nu + s.nx) s.point.v.get i
        + colSum s.data.dyn.get n s.point.pi.get i
        - colSum s.data.jac.get s.nc (fun k => s.point.lam.lo.get k - s.point.lam.up.get k) i := by
    show (Mat.subTrMulVec (Mat.addTrMulVec (Mat.addMulVec _ _ _) _ _) _ _).get i = _
    rw [Mat.get_subTrMulVec _ _ _ (by rw [Mat.size_addTrMulVec, Mat.size_addMulVec]; exact hgrad),
      Mat.get_addTrMulVec _ _ _ (by rw [Mat.size_addMulVec]; exact hgrad),
      Mat.get_addMulVec _ _ _ hgrad, hs.hess_cols, hs.dyn_rows, hs.jac_rows]
    congr 1
    exact colSum_congr _ i fun k hk => Vec.get_sub _ _ (hs.lam_lo.symm ▸ hk)
  rw [evaluated_stat]
  cases before with
  | none => rw [Option.elim_none, Option.elim_none, hown, ite_self, sub_zero]
  | some b =>
      rw [Option.elim_some, Option.elim_some, ← hown]
      show (Vec.ofFn _ _).get i = _
      rw [Vec.get_ofFn_of_lt _ (hsize.symm ▸ hi)]
      show (if i < s.nu then _ else _) = _
      split
      · rw [sub_zero]
      · rfl

theorem size_evaluated_stat : (s.evaluated before after).residual.stat.size = s.nu + s.nx := by
  have hown : s.ownResiduals.residual.stat.size = s.nu + s.nx := by
    show (Mat.subTrMulVec _ _ _).size = _
    rw [Mat.size_subTrMulVec, Mat.size_addTrMulVec, Mat.size_addMulVec, hs.grad]
  rw [evaluated_stat]
  cases before with
  | none => exact hown
  | some b =>
      rw [Option.elim_some]
      exact (Vec.size_ofFn ..).trans hown

end StageState

/-! ## The terms of a residual after a step -/

namespace StageState.Shaped

variable {s : StageState K} {n : Nat} (hs : s.Shaped n) (a : K) (m : Nat → Nat → K) (i : Nat)

include hs

theorem rowSum_move : rowSum m (s.nu + s.nx) (s.move a).point.v.get i =
    a * rowSum m (s.nu + s.nx) s.direction.dv.get i +
      rowSum m (s.nu + s.nx) s.point.v.get i := by
  rw [← rowSum_advance]
  exact rowSum_congr _ i fun j hj => Vec.get_advance _ _ _ (hs.v.symm ▸ hj)

theorem colSum_move_pi : colSum m n (s.move a).point.pi.get i =
    a * colSum m n s.direction.dpi.get i + colSum m n s.point.pi.get i := by
  rw [← colSum_advance]
  exact colSum_congr _ i fun j hj => Vec.get_advance _ _ _ (hs.pi.symm ▸ hj)

theorem colSum_move_lam : colSum m s.nc
    (fun k => (s.move a).point.lam.lo.get k - (s.move a).point.lam.up.get k) i =
      a * colSum m s.nc s.forceDirection i +
        colSum m s.nc (fun k => s.point.lam.lo.get k - s.point.lam.up.get k) i := by
  rw [← colSum_advance]
  refine colSum_congr _ i fun j hj => ?_
  have hlo : (s.move a).point.lam.lo.get j =
      a * s.direction.dlam.lo.get j + s.point.lam.lo.get j :=
    Vec.get_advance _ _ _ (hs.lam_lo.symm ▸ hj)
  have hup : (s.move a).point.lam.up.get j =
      a * s.direction.dlam.up.get j + s.point.lam.up.get j :=
    Vec.get_advance _ _ _ (hs.lam_up.symm ▸ hj)
  rw [hlo, hup, StageState.forceDirection]
  ring

end StageState.Shaped

section Neighbours

variable {l : List (StageState K)} (a : K)

/-- The states of the stage after, once it has moved. -/
theorem Chained.states_after_move (hl : Chained l) {k i : Nat} (hi : i < nextNx l k) :
    ((l[k + 1]?.map (StageState.move a)).elim 0 fun next => next.states.get i) =
      a * (dxAfter l k).get i + l[k + 1]?.elim 0 fun next => next.states.get i := by
  cases hnext : l[k + 1]? with
  | none =>
      rw [dxAfter, hnext]
      show (0 : K) = a * (Vec.empty : Vec K).get i + 0
      rw [Vec.get_empty, mul_zero, add_zero]
  | some next =>
      have hi' : i < next.nx := by
        rw [nextNx, hnext] at hi
        exact hi
      have hnshape := hl (k + 1) next hnext
      rw [dxAfter, hnext]
      show (next.move a).states.get i =
        a * (next.direction.dv.slice next.nu next.nx).get i + next.states.get i
      rw [StageState.states, StageState.states, Vec.get_slice_of_lt _ _ hi',
        Vec.get_slice_of_lt _ _ hi']
      show ((next.point.v.advance a next.direction.dv).slice next.nu next.nx).get i = _
      rw [Vec.get_slice_of_lt _ _ hi', Vec.get_advance _ _ _ (by rw [hnshape.v]; omega)]

/-- The multipliers of the dynamics that lead to a stage, once the stage before has moved. -/
theorem HorizonShaped.pi_before_move (hl : HorizonShaped l) {k : Nat} {s : StageState K}
    (hs : l[k]? = some s) {j : Nat} (hj : j < s.nx) :
    (((stageBefore none l k).map (StageState.move a)).elim 0 fun b => b.point.pi.get j) =
      a * (dpiBefore l k).get j + (stageBefore none l k).elim 0 fun b => b.point.pi.get j := by
  cases k with
  | zero =>
      have hnx := hl.first s hs
      omega
  | succ k =>
      rw [stageBefore, dpiBefore]
      cases hp : l[k]? with
      | none =>
          show (0 : K) = a * (Vec.empty : Vec K).get j + 0
          rw [Vec.get_empty, mul_zero, add_zero]
      | some p =>
          have hsize : j < p.point.pi.size := by
            rw [(hl.chained k p hp).pi, nextNx, hs]
            exact hj
          exact Vec.get_advance _ _ _ hsize

end Neighbours

/-! ## Evaluated chains -/

/-- The residuals held by the stages of a chain are those of its own point. -/
def Evaluated (l : List (StageState K)) : Prop := ∀ (k : Nat) (s : StageState K),
  l[k]? = some s → s.core = (s.evaluated (stageBefore none l k) l[k + 1]?).core

theorem evaluated_of_base {w : Workspace K} {l : List (StageState K)}
    (h : l.map StageState.core = w.residuals.stages.map StageState.core) : Evaluated l := by
  have hbase : l.map StageState.base = w.stages.map StageState.base :=
    (map_base_of_core h).trans (Workspace.residuals_base w)
  have hsame : ({ w with stages := l } : Workspace K).residuals.stages.map StageState.core =
      w.residuals.stages.map StageState.core := Workspace.residuals_core_of_base hbase
  intro k s hs
  have hk : (l.map StageState.core)[k]? =
      (({ w with stages := l } : Workspace K).residuals.stages.map StageState.core)[k]? := by
    rw [h, hsame]
  rw [List.getElem?_map, List.getElem?_map, Workspace.residuals_getElem?, hs] at hk
  exact Option.some.inj hk

namespace Evaluated

section Entries

variable {l : List (StageState K)} (he : Evaluated l) (hl : Chained l) {k : Nat} {s : StageState K}
  (hs : l[k]? = some s) {i : Nat}

include he hl hs

theorem get_dyn (hi : i < nextNx l k) : s.residual.dyn.get i = s.data.off.get i +
    rowSum s.data.dyn.get (s.nu + s.nx) s.point.v.get i -
      l[k + 1]?.elim 0 fun next => next.states.get i := by
  rw [← StageState.get_evaluated_dyn (hl k s hs) (stageBefore none l k) l[k + 1]? hi]
  exact congrArg (fun c => c.dyn.get i) (he k s hs)

theorem get_lo (hi : i < s.nc) : s.residual.ineq.lo.get i =
    rowSum s.data.jac.get (s.nu + s.nx) s.point.v.get i - s.data.bound.lo.get i
      - s.point.t.lo.get i := by
  rw [← StageState.get_evaluated_lo (hl k s hs) (stageBefore none l k) l[k + 1]? hi]
  exact congrArg (fun c => c.ineq.lo.get i) (he k s hs)

theorem get_up (hi : i < s.nc) : s.residual.ineq.up.get i =
    s.data.bound.up.get i - rowSum s.data.jac.get (s.nu + s.nx) s.point.v.get i
      - s.point.t.up.get i := by
  rw [← StageState.get_evaluated_up (hl k s hs) (stageBefore none l k) l[k + 1]? hi]
  exact congrArg (fun c => c.ineq.up.get i) (he k s hs)

theorem get_stat (hi : i < s.nu + s.nx) : s.residual.stat.get i =
    s.data.grad.get i + rowSum s.data.hess.get (s.nu + s.nx) s.point.v.get i
      + colSum s.data.dyn.get (nextNx l k) s.point.pi.get i
      - colSum s.data.jac.get s.nc (fun k => s.point.lam.lo.get k - s.point.lam.up.get k) i
      - if i < s.nu then 0 else (stageBefore none l k).elim 0 fun b =>
          b.point.pi.get (i - s.nu) := by
  rw [← StageState.get_evaluated_stat (hl k s hs) (stageBefore none l k) l[k + 1]? hi]
  exact congrArg (fun c => c.stat.get i) (he k s hs)

end Entries

variable {l : List (StageState K)} (he : Evaluated l) (hd : Directed l) (hl : HorizonShaped l)
  {k : Nat} {s : StageState K} (hs : l[k]? = some s) (a : K)

include he hd hl hs

/-- A step scales the dynamics residual by `1 - a`. -/
theorem dyn_moved : ((s.move a).evaluated ((stageBefore none l k).map (StageState.move a))
    (l[k + 1]?.map (StageState.move a))).residual.dyn =
      s.residual.dyn.map fun x => (1 - a) * x := by
  have hshape := hl.chained k s hs
  have hmove := hshape.move a
  refine Vec.ext_get ?_ fun i hi => ?_
  · rw [StageState.size_evaluated_dyn hmove, Vec.size_map, hshape.dyn]
  · rw [StageState.size_evaluated_dyn hmove] at hi
    have hrow : i < s.data.dyn.rows := hshape.dyn_rows.symm ▸ hi
    have hnow := he.get_dyn hl.chained hs hi
    rw [StageState.get_evaluated_dyn hmove _ _ hi, Vec.get_map _ _ (hshape.dyn.symm ▸ hi),
      hl.chained.states_after_move a hi, hd.get_dxAfter hl.chained hs hrow]
    show s.data.off.get i + rowSum s.data.dyn.get (s.nu + s.nx) (s.move a).point.v.get i - _ = _
    rw [hshape.rowSum_move]
    linear_combination -hnow

/-- A step scales the residual of the lower sides by `1 - a`. -/
theorem lower_moved (before after : Option (StageState K)) :
    ((s.move a).evaluated before after).residual.ineq.lo =
      s.residual.ineq.lo.map fun x => (1 - a) * x := by
  have hshape := hl.chained k s hs
  have hmove := hshape.move a
  refine Vec.ext_get ?_ fun i hi => ?_
  · rw [StageState.size_evaluated_lo hmove, Vec.size_map, hshape.ineq_lo]
    rfl
  · rw [StageState.size_evaluated_lo hmove] at hi
    have hi' : i < s.nc := hi
    have hnow := he.get_lo hl.chained hs hi'
    have ht : (s.move a).point.t.lo.get i = a * s.direction.dt.lo.get i + s.point.t.lo.get i :=
      Vec.get_advance _ _ _ (hshape.t_lo.symm ▸ hi')
    rw [StageState.get_evaluated_lo hmove _ _ hi, Vec.get_map _ _ (hshape.ineq_lo.symm ▸ hi'), ht,
      StageState.get_dt_lo hshape (hd.slack k s hs) hi']
    show rowSum s.data.jac.get (s.nu + s.nx) (s.move a).point.v.get i
      - s.data.bound.lo.get i - _ = _
    rw [hshape.rowSum_move, ← StageState.rowDirection]
    linear_combination -hnow

/-- A step scales the residual of the upper sides by `1 - a`. -/
theorem upper_moved (before after : Option (StageState K)) :
    ((s.move a).evaluated before after).residual.ineq.up =
      s.residual.ineq.up.map fun x => (1 - a) * x := by
  have hshape := hl.chained k s hs
  have hmove := hshape.move a
  refine Vec.ext_get ?_ fun i hi => ?_
  · rw [StageState.size_evaluated_up hmove, Vec.size_map, hshape.ineq_up]
    rfl
  · rw [StageState.size_evaluated_up hmove] at hi
    have hi' : i < s.nc := hi
    have hnow := he.get_up hl.chained hs hi'
    have ht : (s.move a).point.t.up.get i = a * s.direction.dt.up.get i + s.point.t.up.get i :=
      Vec.get_advance _ _ _ (hshape.t_up.symm ▸ hi')
    rw [StageState.get_evaluated_up hmove _ _ hi, Vec.get_map _ _ (hshape.ineq_up.symm ▸ hi'), ht,
      StageState.get_dt_up hshape (hd.slack k s hs) hi']
    show s.data.bound.up.get i
      - rowSum s.data.jac.get (s.nu + s.nx) (s.move a).point.v.get i - _ = _
    rw [hshape.rowSum_move, ← StageState.rowDirection]
    linear_combination -hnow

/-- A step scales the stationarity residual by `1 - a` and adds the part of the control rows that
the shift of the control block left unsolved. -/
theorem stat_moved {shift : K} (hrows : s.NewtonRows (dpiBefore l k) (dxAfter l k) shift)
    (hcomp : s.CompShaped) (after : Option (StageState K)) {i : Nat} (hi : i < s.nu + s.nx) :
    ((s.move a).evaluated ((stageBefore none l k).map (StageState.move a))
        after).residual.stat.get i =
      (1 - a) * s.residual.stat.get i
        - a * if i < s.nu then shift * s.direction.dv.get i else 0 := by
  have hshape := hl.chained k s hs
  have hmove := hshape.move a
  have hnow := he.get_stat hl.chained hs hi
  have hbefore : (if i < s.nu then 0 else ((stageBefore none l k).map (StageState.move a)).elim 0
      fun b => b.point.pi.get (i - s.nu)) =
      a * (if i < s.nu then 0 else (dpiBefore l k).get (i - s.nu)) +
        if i < s.nu then 0 else (stageBefore none l k).elim 0 fun b =>
          b.point.pi.get (i - s.nu) := by
    split
    · rw [mul_zero, add_zero]
    · exact hl.pi_before_move a hs (by omega)
  have hstat := hrows.stat i hi
  rw [Mat.get_mulVec_eq _ _ (hshape.hess_rows.symm ▸ hi), hshape.hess_cols,
    Mat.get_trMulVec _ _ (hshape.dyn_cols.symm ▸ hi), hshape.dyn_rows,
    StageState.get_trMulVec_dlam hshape hcomp (hd.multiplier k s hs) hi] at hstat
  rw [StageState.get_evaluated_stat hmove _ _ hi]
  show s.data.grad.get i + rowSum s.data.hess.get (s.nu + s.nx) (s.move a).point.v.get i
    + colSum s.data.dyn.get (nextNx l k) (s.move a).point.pi.get i
    - colSum s.data.jac.get s.nc
      (fun k => (s.move a).point.lam.lo.get k - (s.move a).point.lam.up.get k) i
    - (if i < s.nu then 0 else ((stageBefore none l k).map (StageState.move a)).elim 0
      fun b => b.point.pi.get (i - s.nu)) = _
  rw [hshape.rowSum_move, hshape.colSum_move_pi, hshape.colSum_move_lam, hbefore]
  linear_combination a * hstat - hnow

end Evaluated

end StagedQP
