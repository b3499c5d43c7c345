import StagedQP.Proofs.InteriorPoint
import StagedQP.Proofs.ResidualStep
import StagedQP.Proofs.RowCorrespondence

/-!
# One stage with its rows written differently

What a solve does at a stage with a row depends on the row alone, and on both of its sides in the
same way: turned around, a row has its two slacks and multipliers exchanged. All that the rest of
the stage gets to see of the rows are sums over them. The condensed Hessian, the condensed gradient
and the stationarity residual are such sums, and in exact arithmetic no order of the rows shows.

The relations below follow two stages through a step, each with the buffers that the step has
written by then.

```text
SameData        sizes and data
SamePoint       and the point
SameCore        and the residuals
SameAim         and the right-hand side of the complementarity equations
SameDirection   sizes, data, point, residuals and direction
```

In each of them whatever belongs to rows is carried along by the row map, and everything else is
equal.

## Main results

* `StageState.SameData.start`, `StageState.SamePoint.evaluated` — a start and its residuals.
* `StageState.SamePoint.condensed_hess`, `StageState.SameAim.condensed_grad` — what a sweep sees.
* `StageState.SameAim.direction`, `StageState.SameDirection.move` — the direction and the step.
* `StageState.SameDirection.passes_iff`, `StageState.SameDirection.trialProducts_eq` — ratio tests
  and products.
-/

namespace StagedQP

open Finset

variable {K : Type} [Field K] [LinearOrder K] [SquareRoot K]

/-- The ratio tests of both sides of a row allow a step of length `a`. -/
def Sides.Passes (a : K) (z dz : Sides K) : Prop :=
  (dz.lo < 0 → a ≤ -z.lo / dz.lo) ∧ (dz.up < 0 → a ≤ -z.up / dz.up)

omit [SquareRoot K] in
theorem Sides.passes_turn (turned : Bool) (a : K) (z dz : Sides K) :
    (z.turn turned).Passes a (dz.turn turned) ↔ z.Passes a dz := by
  cases turned
  · exact Iff.rfl
  · exact and_comm

namespace StageState

/-- Sizes and data of `s'` are those of `s`, with the rows moved and turned as `m` says. -/
structure SameData (m : RowMap) (s s' : StageState K) : Prop where
  nx : s'.nx = s.nx
  nu : s'.nu = s.nu
  nc : s'.nc = s.nc
  onto : m.Onto s.nc
  hess : s'.data.hess = s.data.hess
  grad : s'.data.grad = s.data.grad
  matrix : s'.data.dyn = s.data.dyn
  off : s'.data.off = s.data.off
  jac : ∀ i < s.nc, ∀ j < s.nu + s.nx,
    s'.data.jac.get (m.dest i) j = m.sign i * s.data.jac.get i j
  bound : ∀ i < s.nc,
    s'.data.bound.row (m.dest i) = (s.data.bound.row i).mirror (m.turned i)

/-- The point is the same as well; slacks and multipliers go along with their rows. -/
structure SamePoint (m : RowMap) (s s' : StageState K) : Prop extends SameData m s s' where
  v : s'.point.v = s.point.v
  pi : s'.point.pi = s.point.pi
  t : m.Carries s.nc s.point.t s'.point.t
  lam : m.Carries s.nc s.point.lam s'.point.lam

/-- So are the residuals. -/
structure SameCore (m : RowMap) (s s' : StageState K) : Prop extends SamePoint m s s' where
  stat : s'.residual.stat = s.residual.stat
  dyn : s'.residual.dyn = s.residual.dyn
  ineq : m.Carries s.nc s.residual.ineq s'.residual.ineq

/-- So is the right-hand side of the complementarity equations. -/
structure SameAim (m : RowMap) (s s' : StageState K) : Prop extends SameCore m s s' where
  comp : m.Carries s.nc s.residual.comp s'.residual.comp

/-- So is the direction; that of the multipliers of the dynamics is left out. -/
structure SameDirection (m : RowMap) (s s' : StageState K) : Prop extends SameCore m s s' where
  dv : s'.direction.dv = s.direction.dv
  dt : m.Carries s.nc s.direction.dt s'.direction.dt
  dlam : m.Carries s.nc s.direction.dlam s'.direction.dlam

variable {m : RowMap} {s s' p p' : StageState K} {n : Nat}

/-! ## What the relations depend on -/

omit [LinearOrder K] [SquareRoot K] in
theorem SamePoint.of_base (h : SamePoint m p p') (hs : s.base = p.base) (hs' : s'.base = p'.base) :
    SamePoint m s s' := by
  cases s
  cases s'
  cases p
  cases p'
  simp only [base, Prod.mk.injEq] at hs hs'
  obtain ⟨⟨rfl, rfl⟩, rfl, rfl⟩ := hs
  obtain ⟨⟨rfl, rfl⟩, rfl, rfl⟩ := hs'
  exact ⟨⟨h.nx, h.nu, h.nc, h.onto, h.hess, h.grad, h.matrix, h.off, h.jac, h.bound⟩, h.v, h.pi,
    h.t, h.lam⟩

omit [LinearOrder K] [SquareRoot K] in
theorem SameCore.of_core (h : SameCore m p p') (hs : s.core = p.core) (hs' : s'.core = p'.core) :
    SameCore m s s' := by
  have hbase : ∀ {q r : StageState K}, q.core = r.core → q.base = r.base := fun hq =>
    congrArg (fun c => ((c.nx, c.nu), c.data, c.point)) hq
  have hnc : s.nc = p.nc := congrArg (fun c => c.data.bound.lo.size) hs
  refine ⟨h.toSamePoint.of_base (hbase hs) (hbase hs'), ?_, ?_, ?_⟩
  · rw [show s.residual.stat = p.residual.stat from congrArg StageCore.stat hs,
      show s'.residual.stat = p'.residual.stat from congrArg StageCore.stat hs', h.stat]
  · rw [show s.residual.dyn = p.residual.dyn from congrArg StageCore.dyn hs,
      show s'.residual.dyn = p'.residual.dyn from congrArg StageCore.dyn hs', h.dyn]
  · rw [show s.residual.ineq = p.residual.ineq from congrArg StageCore.ineq hs,
      show s'.residual.ineq = p'.residual.ineq from congrArg StageCore.ineq hs', hnc]
    exact h.ineq

omit [LinearOrder K] [SquareRoot K] in
/-- Stages that hold stages with the same rows, written differently. -/
theorem sameData_of_fixed {d d' : Stage K} (hd : d.WellShaped) (hd' : d'.WellShaped)
    (hmodel : d.SameModel d') (hrows : d.SameRows m d')
    (hs : s.nx = d.sizes.nx ∧ s.nu = d.sizes.nu ∧ s.data = PackedStage.ofStage d)
    (hs' : s'.nx = d'.sizes.nx ∧ s'.nu = d'.sizes.nu ∧ s'.data = PackedStage.ofStage d') :
    SameData m s s' := by
  obtain ⟨hnx, hnu, hdata⟩ := hs
  obtain ⟨hnx', hnu', hdata'⟩ := hs'
  have hcount : ∀ {q : StageState K} {e : Stage K}, e.WellShaped →
      q.data = PackedStage.ofStage e → q.nc = e.sizes.nc := by
    intro q e he hq
    rw [nc, hq]
    show (e.lb.append e.lg).size = _
    rw [Vec.size_append, he.lb, he.lg]
    rfl
  have hnc := hcount hd hdata
  have hnc' := hcount hd' hdata'
  have hbound : ∀ {e : Stage K}, e.WellShaped → ∀ i,
      (PackedStage.ofStage e).bound.row i = e.rowBounds i := fun he i =>
    congrArg₂ Sides.mk (PackedStage.ofStage_bound _ he i).1 (PackedStage.ofStage_bound _ he i).2
  constructor
  case nx => rw [hnx, hnx', hmodel.sizes.1]
  case nu => rw [hnu, hnu', hmodel.sizes.2]
  case nc => rw [hnc, hnc', hrows.count]
  case onto => exact hnc ▸ hrows.onto
  case hess =>
    rw [hdata, hdata']
    simp only [PackedStage.ofStage, Stage.sizes, hmodel.Q, hmodel.R, hmodel.S]
    rfl
  case grad =>
    rw [hdata, hdata']
    simp only [PackedStage.ofStage, hmodel.q, hmodel.r]
  case matrix =>
    rw [hdata, hdata']
    simp only [PackedStage.ofStage, Stage.sizes, Stage.nxNext, hmodel.Q, hmodel.R, hmodel.A,
      hmodel.B]
    rfl
  case off =>
    rw [hdata, hdata']
    exact hmodel.b
  case jac =>
    intro i hi j hj
    rw [hnc] at hi
    rw [hnu, hnx] at hj
    rw [hdata, hdata', PackedStage.ofStage_jac d hi hj,
      PackedStage.ofStage_jac d' (hrows.count.symm ▸ (hrows.onto i).2 hi)
        (hj.trans_eq hmodel.nv.symm)]
    exact hrows.entry i hi j hj
  case bound =>
    intro i hi
    rw [hnc] at hi
    rw [hdata, hdata', hbound hd, hbound hd', hrows.bounds i hi]

/-! ## Rows and sums over rows -/

namespace SameData

variable (h : SameData m s s')

include h

omit [LinearOrder K] [SquareRoot K] in
/-- A row applied to a vector. -/
theorem rowSum_jac (x : Nat → K) {i : Nat} (hi : i < s.nc) :
    rowSum s'.data.jac.get (s'.nu + s'.nx) x (m.dest i) =
      m.sign i * rowSum s.data.jac.get (s.nu + s.nx) x i := by
  rw [rowSum, rowSum, h.nu, h.nx, mul_sum]
  refine sum_congr rfl fun j hj => ?_
  rw [h.jac i hi j (mem_range.1 hj), mul_assoc]

omit [LinearOrder K] [SquareRoot K] in
/-- A sum of rows whose weights are turned with them. -/
theorem colSum_jac {y y' : Nat → K} (hy : ∀ i < s.nc, y' (m.dest i) = m.sign i * y i) {j : Nat}
    (hj : j < s.nu + s.nx) :
    colSum s'.data.jac.get s'.nc y' j = colSum s.data.jac.get s.nc y j := by
  rw [colSum, colSum, h.nc, RowMap.sum_carried h.onto]
  refine sum_congr rfl fun i hi => ?_
  have hi' := mem_range.1 hi
  calc s'.data.jac.get (m.dest i) j * y' (m.dest i)
      = m.sign i * m.sign i * (s.data.jac.get i j * y i) := by
        rw [h.jac i hi' j hj, hy i hi']
        ring
    _ = s.data.jac.get i j * y i := by rw [m.sign_mul_self, one_mul]

omit [LinearOrder K] [SquareRoot K] in
/-- Row `i` is one of the rows of `s'` at its new number. -/
theorem dest_lt {i : Nat} (hi : i < s.nc) : m.dest i < s'.nc := by
  rwa [h.nc, h.onto i]

end SameData

/-! ## Rows by their sides -/

section Rows

variable (hs : s.Shaped n) {i : Nat} (hi : i < s.nc)

include hs hi

/-- The residual of a row: its room inside the bounds, less the slacks. -/
theorem row_evaluated (before after : Option (StageState K)) :
    (s.evaluated before after).residual.ineq.row i =
      ((s.data.bound.row i).room (rowSum s.data.jac.get (s.nu + s.nx) s.point.v.get i)).zipWith
        (· - ·) (s.point.t.row i) :=
  congrArg₂ Sides.mk (get_evaluated_lo hs before after hi) (get_evaluated_up hs before after hi)

/-- The direction of the slacks of a row. -/
theorem row_dt (hslack : s.direction.dt = s.expand.direction.dt) : s.direction.dt.row i =
    (Sides.opposed (s.rowDirection i)).zipWith (· + ·) (s.residual.ineq.row i) :=
  congrArg₂ Sides.mk (get_dt_lo hs hslack hi) (get_dt_up hs hslack hi)

/-- The direction of the multipliers of a row. -/
theorem row_dlam (hcomp : s.CompShaped) (hslack : s.direction.dt = s.expand.direction.dt)
    (hmult : s.direction.dlam = s.expand.direction.dlam) : s.direction.dlam.row i =
      (((s.residual.comp.row i).zipWith (· + ·)
        ((s.point.lam.row i).zipWith (· * ·) (s.direction.dt.row i))).map (- ·)).zipWith (· / ·)
        (s.point.t.row i) :=
  congrArg₂ Sides.mk (get_dlam_lo hs hcomp hslack hmult hi) (get_dlam_up hs hcomp hslack hmult hi)

/-- The barrier weight of a row. -/
theorem weight_eq_total : s.condenseHessian.condensed.weight.get i =
    ((s.point.lam.row i).zipWith (· / ·) (s.point.t.row i)).total := get_weight hs hi

/-- The complementarity term of a row. -/
theorem term_eq_difference (hcomp : s.CompShaped) :
    s.condenseGradient.condensed.term.get i =
      (((s.residual.comp.row i).zipWith (· + ·)
        ((s.point.lam.row i).zipWith (· * ·) (s.residual.ineq.row i))).zipWith (· / ·)
        (s.point.t.row i)).difference := get_term hs hcomp hi

/-- The products of a row that the predictor starts from. -/
theorem row_aimAtZero : s.aimAtZero.residual.comp.row i =
    (s.point.lam.row i).zipWith (· * ·) (s.point.t.row i) :=
  congrArg₂ Sides.mk (Vec.get_zipWith _ _ _ (hi.trans_eq hs.lam_lo.symm))
    (Vec.get_zipWith _ _ _ (hi.trans_eq hs.lam_up.symm))

/-- The products of a row that the corrector starts from. -/
theorem row_aimAtTarget (target : K) : (s.aimAtTarget target).residual.comp.row i =
    (((s.point.lam.row i).zipWith (· * ·) (s.point.t.row i)).zipWith (· + ·)
      ((s.direction.dlam.row i).zipWith (· * ·) (s.direction.dt.row i))).map (· - target) :=
  congrArg₂ Sides.mk (Vec.get_ofFn_of_lt _ (hi.trans_eq hs.lam_lo.symm))
    (Vec.get_ofFn_of_lt _ (hi.trans_eq hs.lam_up.symm))

/-- The slacks of a row after a step. -/
theorem row_move_t (a : K) : (s.move a).point.t.row i =
    (s.point.t.row i).zipWith (fun z dz => a * dz + z) (s.direction.dt.row i) :=
  congrArg₂ Sides.mk (Vec.get_advance _ _ _ (hi.trans_eq hs.t_lo.symm))
    (Vec.get_advance _ _ _ (hi.trans_eq hs.t_up.symm))

/-- The multipliers of a row after a step. -/
theorem row_move_lam (a : K) : (s.move a).point.lam.row i =
    (s.point.lam.row i).zipWith (fun z dz => a * dz + z) (s.direction.dlam.row i) :=
  congrArg₂ Sides.mk (Vec.get_advance _ _ _ (hi.trans_eq hs.lam_lo.symm))
    (Vec.get_advance _ _ _ (hi.trans_eq hs.lam_up.symm))

omit hs in
/-- The slacks of a row at the start. -/
theorem row_start_t {mu0 : K} (hs : (s.start mu0).Shaped n) : (s.start mu0).point.t.row i =
    ((s.data.bound.row i).room (rowSum s.data.jac.get (s.nu + s.nx) s.point.v.get i)).map
      (max · leastSlack) :=
  congrArg₂ Sides.mk (get_start_t hs hi).1 (get_start_t hs hi).2

omit hs in
/-- The multipliers of a row at the start. -/
theorem row_start_lam {mu0 : K} (hs : (s.start mu0).Shaped n) : (s.start mu0).point.lam.row i =
    ((s.start mu0).point.t.row i).map (mu0 / ·) :=
  congrArg₂ Sides.mk (Vec.get_map _ _ (hi.trans_eq hs.t_lo.symm))
    (Vec.get_map _ _ (hi.trans_eq hs.t_up.symm))

end Rows

/-! ## The start -/

/-- Slacks and multipliers put around one stage vector go along with their rows. -/
theorem SameData.start (h : SameData m s s') {mu0 : K} (hs : (s.start mu0).Shaped n)
    (hs' : (s'.start mu0).Shaped n) (hv : s'.point.v = s.point.v) :
    SamePoint m (s.start mu0) (s'.start mu0) := by
  have ht : m.Carries s.nc (s.start mu0).point.t (s'.start mu0).point.t := by
    intro i hi
    rw [row_start_t hi hs, row_start_t (h.dest_lt hi) hs', h.rowSum_jac _ hi, hv, h.bound i hi,
      RowMap.sign, Sides.room_mirror, Sides.turn_map]
  refine ⟨⟨h.nx, h.nu, h.nc, h.onto, h.hess, h.grad, h.matrix, h.off, h.jac, h.bound⟩, hv, ?_, ht,
    ?_⟩
  · show Vec.zeros _ = Vec.zeros _
    have hsize : s.point.pi.size = n := (Vec.size_zeros s.point.pi.size).symm.trans hs.pi
    have hsize' : s'.point.pi.size = n := (Vec.size_zeros s'.point.pi.size).symm.trans hs'.pi
    rw [hsize, hsize']
  · intro i (hi : i < s.nc)
    rw [row_start_lam hi hs, row_start_lam (h.dest_lt hi) hs', ht i hi, Sides.turn_map]

/-! ## Residuals -/

section Residuals

variable (h : SamePoint m s s') (hs : s.Shaped n) (hs' : s'.Shaped n)
  {before before' after after' : Option (StageState K)}

include h hs hs'

/-- The force that the rows exert on the stage vector is the same. -/
theorem SamePoint.evaluated_stat
    (hb : before'.map (fun b => b.point.pi) = before.map fun b => b.point.pi) :
    (s'.evaluated before' after').residual.stat = (s.evaluated before after).residual.stat := by
  have hforce : ∀ i < s.nc, s'.point.lam.lo.get (m.dest i) - s'.point.lam.up.get (m.dest i) =
      m.sign i * (s.point.lam.lo.get i - s.point.lam.up.get i) := by
    intro i hi
    show (s'.point.lam.row (m.dest i)).difference = m.sign i * (s.point.lam.row i).difference
    rw [h.lam i hi, Sides.difference_turn, RowMap.sign]
  have hsize := size_evaluated_stat hs before after
  have hsize' := size_evaluated_stat hs' before' after'
  refine Vec.ext_get ?_ fun i hi => ?_
  · rw [hsize, hsize', h.nu, h.nx]
  · rw [hsize', h.nu, h.nx] at hi
    have helim : (before'.elim 0 fun b => b.point.pi.get (i - s.nu)) =
        before.elim 0 fun b => b.point.pi.get (i - s.nu) := by
      have hget := congrArg (fun o => o.elim 0 fun v => Vec.get v (i - s.nu)) hb
      rwa [Option.elim_map, Option.elim_map] at hget
    rw [get_evaluated_stat hs _ _ hi, get_evaluated_stat hs' _ _ (by rwa [h.nu, h.nx]),
      h.colSum_jac hforce hi, h.grad, h.hess, h.matrix, h.v, h.pi, h.nu, h.nx, helim]

/-- Residuals of one point, next to the same multipliers and states, are the same. -/
theorem SamePoint.evaluated
    (hb : before'.map (fun b => b.point.pi) = before.map fun b => b.point.pi)
    (ha : after'.map StageState.states = after.map StageState.states) :
    SameCore m (s.evaluated before after) (s'.evaluated before' after') := by
  have hbase := base_evaluated before after s
  have hbase' := base_evaluated before' after' s'
  have hnc : (s.evaluated before after).nc = s.nc := congrArg (fun b => b.2.1.bound.lo.size) hbase
  refine ⟨h.of_base hbase hbase', h.evaluated_stat hs hs' hb, ?_, ?_⟩
  · have hown : s'.ownResiduals.residual.dyn = s.ownResiduals.residual.dyn := by
      show Mat.addMulVec _ _ _ = Mat.addMulVec _ _ _
      rw [h.off, h.matrix, h.v]
    have hsub := congrArg (fun o => o.elim s.ownResiduals.residual.dyn fun v =>
      s.ownResiduals.residual.dyn.sub v) ha
    rw [Option.elim_map, Option.elim_map] at hsub
    rw [evaluated_dyn, evaluated_dyn, hown]
    exact hsub
  · rw [hnc]
    intro i hi
    rw [row_evaluated hs hi, row_evaluated hs' (h.dest_lt hi), h.rowSum_jac _ hi, h.v, h.bound i hi,
      h.t i hi, RowMap.sign, Sides.room_mirror, Sides.turn_zipWith]

end Residuals

/-- The largest residual of a row is the same. -/
theorem SameCore.ineq_norms [IsStrictOrderedRing K] (h : SameCore m s s') (hs : s.Shaped n)
    (hs' : s'.Shaped n) {b : K} (hb : 0 ≤ b) :
    (s'.residual.ineq.lo.infNorm ≤ b ∧ s'.residual.ineq.up.infNorm ≤ b) ↔
      s.residual.ineq.lo.infNorm ≤ b ∧ s.residual.ineq.up.infNorm ≤ b := by
  have hrows : ∀ {q : StageState K}, q.Shaped n →
      ((q.residual.ineq.lo.infNorm ≤ b ∧ q.residual.ineq.up.infNorm ≤ b) ↔
        ∀ i < q.nc, |(q.residual.ineq.row i).lo| ≤ b ∧ |(q.residual.ineq.row i).up| ≤ b) := by
    intro q hq
    rw [Vec.infNorm_le_iff hb, Vec.infNorm_le_iff hb, hq.ineq_lo, hq.ineq_up]
    exact forall₂_and.symm
  rw [hrows hs, hrows hs', h.nc, ← RowMap.forall_carried h.onto]
  refine forall₂_congr fun i hi => ?_
  rw [h.ineq i hi]
  exact Sides.forall_turn (P := fun x => |x| ≤ b) _ _

/-! ## The condensed system -/

section Condensed

variable (hs : s.Shaped n) (hs' : s'.Shaped n)

include hs hs'

/-- The condensed Hessian is the same. -/
theorem SamePoint.condensed_hess (h : SamePoint m s s') :
    s'.condenseHessian.condensed.hess = s.condenseHessian.condensed.hess := by
  have hweight : ∀ i < s.nc, s'.condenseHessian.condensed.weight.get (m.dest i) =
      s.condenseHessian.condensed.weight.get i := by
    intro i hi
    rw [weight_eq_total hs hi, weight_eq_total hs' (h.dest_lt hi), h.lam i hi, h.t i hi,
      ← Sides.turn_zipWith, Sides.total_turn]
  have hnv : s'.nu + s'.nx = s.nu + s.nx := by rw [h.nu, h.nx]
  have hrows : s'.condenseHessian.condensed.hess.rows = s.nu + s.nx :=
    (congrArg Mat.rows h.hess).trans hs.hess_rows
  have hcols : s'.condenseHessian.condensed.hess.cols = s.nu + s.nx :=
    (congrArg Mat.cols h.hess).trans hs.hess_cols
  refine Mat.ext_get (Mat.wellFormed_ofFn ..) (Mat.wellFormed_ofFn ..)
    (hrows.trans hs.hess_rows.symm) (hcols.trans hs.hess_cols.symm) fun i hi j hj => ?_
  rw [hrows] at hi
  rw [hcols] at hj
  have hget := get_condensed_hess hs.condenseHessian rfl hi hj
  have hget' := get_condensed_hess hs'.condenseHessian rfl (hi.trans_eq hnv.symm)
    (hj.trans_eq hnv.symm)
  refine hget'.trans (Eq.trans ?_ hget.symm)
  show s'.data.hess.get i j + colSum s'.data.jac.get s'.nc _ i =
    s.data.hess.get i j + colSum s.data.jac.get s.nc _ i
  rw [h.hess]
  congr 1
  refine h.colSum_jac (fun k hk => ?_) hi
  show s'.condenseHessian.condensed.weight.get (m.dest k) * s'.data.jac.get (m.dest k) j =
    m.sign k * (s.condenseHessian.condensed.weight.get k * s.data.jac.get k j)
  rw [hweight k hk, h.jac k hk j hj, mul_left_comm]

variable (h : SameAim m s s') (hcomp : s.CompShaped) (hcomp' : s'.CompShaped)

include h hcomp hcomp'

/-- The condensed gradient is the same. -/
theorem SameAim.condensed_grad :
    s'.condenseGradient.condensed.grad = s.condenseGradient.condensed.grad := by
  have hterm : ∀ i < s.nc, s'.condenseGradient.condensed.term.get (m.dest i) =
      m.sign i * s.condenseGradient.condensed.term.get i := by
    intro i hi
    rw [term_eq_difference hs hi hcomp, term_eq_difference hs' (h.dest_lt hi) hcomp', h.lam i hi,
      h.t i hi, h.comp i hi, h.ineq i hi, ← Sides.turn_zipWith, ← Sides.turn_zipWith,
      ← Sides.turn_zipWith, Sides.difference_turn, RowMap.sign]
  refine Vec.ext_get ?_ fun i hi => ?_
  · show (Mat.addTrMulVec _ _ _).size = (Mat.addTrMulVec _ _ _).size
    rw [Mat.size_addTrMulVec, Mat.size_addTrMulVec, h.stat]
  · have hi' : i < s'.residual.stat.size := hi.trans_eq (Mat.size_addTrMulVec ..)
    have hi₀ : i < s.residual.stat.size := by rwa [h.stat] at hi'
    show (Mat.addTrMulVec _ _ s'.condenseGradient.condensed.term).get i =
      (Mat.addTrMulVec _ _ s.condenseGradient.condensed.term).get i
    rw [Mat.get_addTrMulVec _ _ _ hi₀, Mat.get_addTrMulVec _ _ _ hi', hs.jac_rows, hs'.jac_rows,
      h.stat, h.colSum_jac hterm (hi₀.trans_eq hs.stat)]

/-! ## The direction -/

/-- What is recovered from one direction of the stage vector goes along with the rows. -/
theorem SameAim.direction (hdv : s'.direction.dv = s.direction.dv)
    (hslack : s.direction.dt = s.expand.direction.dt)
    (hslack' : s'.direction.dt = s'.expand.direction.dt)
    (hmult : s.direction.dlam = s.expand.direction.dlam)
    (hmult' : s'.direction.dlam = s'.expand.direction.dlam) : SameDirection m s s' := by
  have hdt : m.Carries s.nc s.direction.dt s'.direction.dt := by
    intro i hi
    rw [row_dt hs hi hslack, row_dt hs' (h.dest_lt hi) hslack', rowDirection, rowDirection,
      h.rowSum_jac _ hi, hdv, h.ineq i hi, RowMap.sign, Sides.opposed_turn, Sides.turn_zipWith]
  refine ⟨h.toSameCore, hdv, hdt, fun i hi => ?_⟩
  rw [row_dlam hs hi hcomp hslack hmult, row_dlam hs' (h.dest_lt hi) hcomp' hslack' hmult',
    h.comp i hi, h.lam i hi, h.t i hi, hdt i hi, ← Sides.turn_zipWith, ← Sides.turn_zipWith,
    ← Sides.turn_map, ← Sides.turn_zipWith]

end Condensed

/-! ## Right-hand sides -/

section Aim

variable (hs : p.Shaped n) (hs' : p'.Shaped n)

include hs hs'

/-- The products as they are go along with the rows. -/
theorem SameCore.aim_zero (h : SameCore m p p') (hc : p.residual.comp = p.aimAtZero.residual.comp)
    (hc' : p'.residual.comp = p'.aimAtZero.residual.comp) : SameAim m p p' := by
  refine ⟨h, fun i hi => ?_⟩
  rw [hc, hc', row_aimAtZero hs hi, row_aimAtZero hs' (h.dest_lt hi), h.lam i hi, h.t i hi,
    Sides.turn_zipWith]

/-- So do the products with the second-order error of one predictor. -/
theorem SameDirection.aim_target (h : SameDirection m p p') {target : K} (hcore : s.core = p.core)
    (hcore' : s'.core = p'.core) (hc : s.residual.comp = (p.aimAtTarget target).residual.comp)
    (hc' : s'.residual.comp = (p'.aimAtTarget target).residual.comp) : SameAim m s s' := by
  have hnc : s.nc = p.nc := congrArg (fun c => c.data.bound.lo.size) hcore
  refine ⟨h.toSameCore.of_core hcore hcore', ?_⟩
  rw [hnc, hc, hc']
  intro i hi
  rw [row_aimAtTarget hs hi, row_aimAtTarget hs' (h.dest_lt hi), h.lam i hi, h.t i hi, h.dlam i hi,
    h.dt i hi, ← Sides.turn_zipWith, ← Sides.turn_zipWith, ← Sides.turn_zipWith, ← Sides.turn_map]

end Aim

/-! ## The step -/

section Step

variable (hs : s.Shaped n) (hs' : s'.Shaped n)

/-- The products of all rows. -/
theorem products_eq_total {s : StageState K} (hs : s.Shaped n) : s.products =
    ∑ i ∈ range s.nc, ((s.point.lam.row i).zipWith (· * ·) (s.point.t.row i)).total := by
  rw [products_eq, hs.lam_lo, hs.lam_up, ← sum_add_distrib]
  rfl

/-- The products of all rows after a step. -/
theorem trialProducts_eq_total {s : StageState K} (hs : s.Shaped n) (a : K) : s.trialProducts a =
    ∑ i ∈ range s.nc, (((s.point.lam.row i).zipWith (fun z dz => z + a * dz)
      (s.direction.dlam.row i)).zipWith (· * ·) ((s.point.t.row i).zipWith (fun z dz => z + a * dz)
      (s.direction.dt.row i))).total := by
  rw [trialProducts, hs.t_lo]
  induction s.nc with
  | zero => rfl
  | succ k ih =>
      rw [trialProductsUpTo, ih, sum_range_succ, add_assoc]
      rfl

omit [SquareRoot K] in
/-- The ratio tests of a stage, row by row. -/
theorem passes_iff_rows {s : StageState K} (hs : s.Shaped n) (a : K) : s.Passes a ↔
    ∀ i < s.nc, (s.point.t.row i).Passes a (s.direction.dt.row i) ∧
      (s.point.lam.row i).Passes a (s.direction.dlam.row i) := by
  constructor
  · intro h i hi
    exact ⟨⟨h.t_lo i (hi.trans_eq hs.t_lo.symm), h.t_up i (hi.trans_eq hs.t_up.symm)⟩,
      h.lam_lo i (hi.trans_eq hs.lam_lo.symm), h.lam_up i (hi.trans_eq hs.lam_up.symm)⟩
  · intro h
    exact ⟨fun i hi => (h i (hi.trans_eq hs.t_lo)).1.1, fun i hi => (h i (hi.trans_eq hs.t_up)).1.2,
      fun i hi => (h i (hi.trans_eq hs.lam_lo)).2.1, fun i hi => (h i (hi.trans_eq hs.lam_up)).2.2⟩

include hs hs'

/-- The products add up to the same. -/
theorem SamePoint.products_eq (h : SamePoint m s s') : s'.products = s.products := by
  rw [products_eq_total hs, products_eq_total hs', h.nc, RowMap.sum_carried h.onto]
  refine sum_congr rfl fun i hi => ?_
  have hi' := mem_range.1 hi
  rw [h.lam i hi', h.t i hi', ← Sides.turn_zipWith, Sides.total_turn]

variable (h : SameDirection m s s') (a : K)

include h

/-- So do the products after a step. -/
theorem SameDirection.trialProducts_eq : s'.trialProducts a = s.trialProducts a := by
  rw [trialProducts_eq_total hs, trialProducts_eq_total hs', h.nc, RowMap.sum_carried h.onto]
  refine sum_congr rfl fun i hi => ?_
  have hi' := mem_range.1 hi
  rw [h.lam i hi', h.t i hi', h.dlam i hi', h.dt i hi', ← Sides.turn_zipWith, ← Sides.turn_zipWith,
    ← Sides.turn_zipWith, Sides.total_turn]

omit [SquareRoot K] in
/-- The ratio tests allow the same lengths. -/
theorem SameDirection.passes_iff : s'.Passes a ↔ s.Passes a := by
  rw [passes_iff_rows hs, passes_iff_rows hs', h.nc, ← RowMap.forall_carried h.onto]
  refine forall₂_congr fun i hi => ?_
  rw [h.lam i hi, h.t i hi, h.dlam i hi, h.dt i hi, Sides.passes_turn, Sides.passes_turn]

/-- A step leads to the same point, if the multipliers of the dynamics move alike. -/
theorem SameDirection.move
    (hpi : s'.point.pi.advance a s'.direction.dpi = s.point.pi.advance a s.direction.dpi) :
    SamePoint m (s.move a) (s'.move a) := by
  refine ⟨⟨h.nx, h.nu, h.nc, h.onto, h.hess, h.grad, h.matrix, h.off, h.jac, h.bound⟩, ?_, hpi, ?_,
    ?_⟩
  · show s'.point.v.advance a s'.direction.dv = s.point.v.advance a s.direction.dv
    rw [h.v, h.dv]
  · intro i hi
    rw [row_move_t hs hi, row_move_t hs' (h.dest_lt hi), h.t i hi, h.dt i hi, Sides.turn_zipWith]
  · intro i hi
    rw [row_move_lam hs hi, row_move_lam hs' (h.dest_lt hi), h.lam i hi, h.dlam i hi,
      Sides.turn_zipWith]

end Step

end StageState

end StagedQP
