import StagedQP.Proofs.SizeChecks
import StagedQP.Proofs.BufferSizes

/-!
# Stages in buffers

The operations on a stage once more, statement by statement, on the buffers that the stage keeps:
every copy, view, sum, product and entry goes through a `Checked` operation. A loop over rows that
writes several buffers is written as one loop for each of them.

On a stage whose buffers have their sizes, each of these operations is the operation of the solver:
no check fails, and what is computed in place is what the solver's definition says. The checks are
discharged from `StageState.Sized.sizes`.

## Main results

* `Checked.start_eq`, `Checked.ownResiduals_eq` — point and residuals.
* `Checked.condenseHessian_eq`, `Checked.condenseGradient_eq`, `Checked.expand_eq` — directions.
* `Checked.aimAtZero_eq`, `Checked.aimAtTarget_eq`, `Checked.stepLimit_eq`, `Checked.move_eq` —
  steps.
-/

namespace StagedQP

namespace Checked

variable {α : Type} [Scalar α] {d e : StageSizes} {n m : Nat} {s next : StageState α}

/-! ## Start -/

/-- The slack of row `i`, which is between `w` and `v`. -/
def slack (v w : Vec α) (i : Nat) : Except SizeFault α := do
  return Scalar.max ((← read v i) - (← read w i)) StageState.leastSlack

/-- The multiplier of row `i`, whose slack is in `t`. -/
def multiplier (mu0 : α) (t : Vec α) (i : Nat) : Except SizeFault α := do
  return mu0 / (← read t i)

/-- Slacks and multipliers put around the stage vector. -/
def start (mu0 : α) (s : StageState α) : Except SizeFault (StageState α) := do
  let bound := s.data.bound
  let count := bound.lo.size
  let c ← mulVec s.scratch.nc s.data.jac s.point.v
  let tLo ← fill s.point.t.lo (slack c bound.lo) count
  let tUp ← fill s.point.t.up (slack bound.up c) count
  let lamLo ← fill s.point.lam.lo (multiplier mu0 tLo) count
  let lamUp ← fill s.point.lam.up (multiplier mu0 tUp) count
  return { s with
    scratch.nc := c
    point.t := ⟨tLo, tUp⟩
    point.lam := ⟨lamLo, lamUp⟩
    point.pi := Vec.zeros s.point.pi.size }

theorem fill_slack {dest v w : Vec α} {count : Nat} (hd : dest.size = count) (hv : v.size = count)
    (hw : w.size = count) : fill dest (slack v w) count =
      .ok ((v.sub w).map fun a => Scalar.max a StageState.leastSlack) := by
  refine fill_eq hd (by simp [hv]) fun i hi => ?_
  simp [slack, Vec.sub, Vec.get_map, Vec.get_zipWith, hv, hw, hi]

theorem fill_multiplier {dest t : Vec α} {count : Nat} (hd : dest.size = count)
    (ht : t.size = count) (mu0 : α) :
    fill dest (multiplier mu0 t) count = .ok (t.map fun a => mu0 / a) := by
  refine fill_eq hd (by simp [ht]) fun i hi => ?_
  simp [multiplier, Vec.get_map, ht, hi]

theorem start_eq (h : s.Sized d n) (mu0 : α) : start mu0 s = .ok (s.start mu0) := by
  simp [start, StageState.start, Sides.map, fill_slack, fill_multiplier, h.sizes]

/-! ## Residuals -/

/-- The residuals of a stage on its own. -/
def ownResiduals (s : StageState α) : Except SizeFault (StageState α) := do
  let d := s.data
  let p := s.point
  let force ← copy s.scratch.nc p.lam.lo
  let force ← sub force p.lam.up
  let stat ← copy s.residual.stat d.grad
  let stat ← addMulVec stat d.hess p.v
  let stat ← addTrMulVec stat d.dyn p.pi
  let stat ← subTrMulVec stat d.jac force
  let c ← mulVec force d.jac p.v
  let lo ← copy s.residual.ineq.lo c
  let lo ← sub lo d.bound.lo
  let lo ← sub lo p.t.lo
  let up ← copy s.residual.ineq.up d.bound.up
  let up ← sub up c
  let up ← sub up p.t.up
  let dyn ← copy s.residual.dyn d.off
  let dyn ← addMulVec dyn d.dyn p.v
  return { s with
    scratch.nc := c
    residual.stat := stat
    residual.dyn := dyn
    residual.ineq := ⟨lo, up⟩ }

/-- The multipliers `pi` of the stage before taken off the states' part. -/
def coupleBefore (pi : Vec α) (s : StageState α) : Except SizeFault (StageState α) := do
  let part ← rows s.residual.stat s.nu s.nx
  let part ← sub part pi
  let stat ← writeRows s.residual.stat s.nu s.nx part
  return { s with residual.stat := stat }

/-- The states of the stage after taken off. -/
def coupleAfter (next s : StageState α) : Except SizeFault (StageState α) := do
  let states ← rows next.point.v next.nu next.nx
  let dyn ← sub s.residual.dyn states
  return { s with residual.dyn := dyn }

/-- The products of slacks and multipliers added up. -/
def products (s : StageState α) : Except SizeFault α := do
  return (← dot s.point.lam.lo s.point.t.lo) + (← dot s.point.lam.up s.point.t.up)

theorem ownResiduals_eq (h : s.Sized d n) : ownResiduals s = .ok s.ownResiduals := by
  simp [ownResiduals, StageState.ownResiduals, h.sizes]

theorem coupleBefore_eq (h : s.Sized d n) {pi : Vec α} (hpi : pi.size = d.nx) :
    coupleBefore pi s = .ok (s.coupleBefore pi) := by
  have hstat : s.residual.stat.size = s.nu + s.nx := by rw [h.residual.stat, h.nu, h.nx]
  have hpart : (s.residual.stat.slice s.nu s.nx).size = pi.size := by
    rw [Vec.size_slice, h.nx, hpi]
  have htail : s.residual.stat.withTail s.nu ((s.residual.stat.slice s.nu s.nx).sub pi) =
      (s.coupleBefore pi).residual.stat := by
    refine Vec.ext_get (by simp [Vec.withTail, StageState.coupleBefore, hstat]) fun i hi => ?_
    rw [Vec.withTail, Vec.size_append, Vec.size_slice, Vec.size_sub, Vec.size_slice] at hi
    rw [Vec.withTail, Vec.get_append, Vec.size_slice, StageState.coupleBefore,
      Vec.get_ofFn_of_lt _ (by omega)]
    by_cases hlt : i < s.nu
    · rw [if_pos hlt, if_pos hlt, Vec.get_slice, if_pos hlt, Nat.zero_add]
    · rw [if_neg hlt, if_neg hlt, Vec.sub, Vec.get_zipWith _ _ _ (by rw [Vec.size_slice]; omega),
        Vec.get_slice, if_pos (by omega), Nat.add_sub_cancel' (by omega)]
  rw [coupleBefore, rows_eq (Nat.le_of_eq hstat.symm), ok_bind, sub_eq hpart, ok_bind,
    writeRows_tail hstat (by rw [Vec.size_sub, Vec.size_slice]), ok_bind, htail]
  rfl

theorem coupleAfter_eq (h : s.Sized d n) (hnext : next.Sized e m) (hn : n = e.nx) :
    coupleAfter next s = .ok (s.coupleAfter next.states) := by
  simp [coupleAfter, StageState.coupleAfter, StageState.states, h.sizes, hnext.sizes, hn]

theorem products_eq (h : s.Sized d n) : products s = .ok s.products := by
  simp [products, StageState.products, h.sizes]

/-! ## Condensing -/

/-- The weight of row `i`. -/
def weight (s : StageState α) (i : Nat) : Except SizeFault α := do
  return (← read s.point.lam.lo i) / (← read s.point.t.lo i) +
    (← read s.point.lam.up i) / (← read s.point.t.up i)

/-- Weights and condensed Hessian. -/
def condenseHessian (s : StageState α) : Except SizeFault (StageState α) := do
  let weights ← fill s.condensed.weight (weight s) s.condensed.weight.size
  let weighted ← copyMat s.condensed.weighted s.data.jac
  let weighted ← scaleRows weights weighted
  let hess ← copyMat s.condensed.hess s.data.hess
  let hess ← addTrMul hess s.data.jac weighted
  return { s with
    condensed.weight := weights
    condensed.weighted := weighted
    condensed.hess := hess }

/-- The part of one side in the complementarity term of row `i`. -/
def sideTerm (comp lam ineq t : Vec α) (i : Nat) : Except SizeFault α := do
  return ((← read comp i) + (← read lam i) * (← read ineq i)) / (← read t i)

/-- The complementarity term of row `i`. -/
def term (s : StageState α) (i : Nat) : Except SizeFault α := do
  let p := s.point
  let r := s.residual
  return (← sideTerm r.comp.lo p.lam.lo r.ineq.lo p.t.lo i) -
    (← sideTerm r.comp.up p.lam.up r.ineq.up p.t.up i)

/-- Complementarity terms and condensed gradient. -/
def condenseGradient (s : StageState α) : Except SizeFault (StageState α) := do
  let terms ← fill s.condensed.term (term s) s.condensed.term.size
  let grad ← copy s.condensed.grad s.residual.stat
  let grad ← addTrMulVec grad s.data.jac terms
  return { s with
    condensed.term := terms
    condensed.grad := grad }

theorem fill_weight (h : s.Sized d n) : fill s.condensed.weight (weight s) d.nc =
    .ok s.condenseHessian.condensed.weight := by
  refine fill_eq h.condensed.weight h.condenseHessian.condensed.weight fun i hi => ?_
  simp [weight, StageState.condenseHessian, Vec.add, Vec.get_zipWith, h.sizes, hi]

theorem condenseHessian_eq (h : s.Sized d n) : condenseHessian s = .ok s.condenseHessian := by
  simp [condenseHessian, fill_weight h, StageState.condenseHessian, h.sizes]

theorem fill_term (h : s.Sized d n) : fill s.condensed.term (term s) d.nc =
    .ok s.condenseGradient.condensed.term := by
  refine fill_eq h.condensed.term h.condenseGradient.condensed.term fun i hi => ?_
  simp [term, sideTerm, StageState.condenseGradient, StageState.sideTerm, Vec.sub, Vec.add,
    Vec.get_zipWith, h.sizes, hi]

theorem condenseGradient_eq (h : s.Sized d n) : condenseGradient s = .ok s.condenseGradient := by
  have hterm := h.condenseGradient.condensed.term
  simp only [StageState.condenseGradient] at hterm
  simp [condenseGradient, fill_term h, StageState.condenseGradient, h.sizes, hterm]

/-! ## Directions -/

/-- The entry `i` of the multiplier direction of one side. -/
def sideMultiplier (comp lam dt t : Vec α) (i : Nat) : Except SizeFault α := do
  return -((← read comp i) + (← read lam i) * (← read dt i)) / (← read t i)

/-- The entry `i` of the slack direction of the lower side, for `c` the row values of the direction
of the stage vector. -/
def lowerDirection (c ineq : Vec α) (i : Nat) : Except SizeFault α := do
  return (← read c i) + (← read ineq i)

/-- The entry `i` of the slack direction of the upper side. -/
def upperDirection (c ineq : Vec α) (i : Nat) : Except SizeFault α := do
  return -(← read c i) + (← read ineq i)

/-- Slack and multiplier directions. -/
def expand (s : StageState α) : Except SizeFault (StageState α) := do
  let p := s.point
  let r := s.residual
  let c ← mulVec s.scratch.nc s.data.jac s.direction.dv
  let dtLo ← fill s.direction.dt.lo (lowerDirection c r.ineq.lo) c.size
  let dtUp ← fill s.direction.dt.up (upperDirection c r.ineq.up) c.size
  let dlamLo ← fill s.direction.dlam.lo (sideMultiplier r.comp.lo p.lam.lo dtLo p.t.lo) c.size
  let dlamUp ← fill s.direction.dlam.up (sideMultiplier r.comp.up p.lam.up dtUp p.t.up) c.size
  return { s with
    scratch.nc := c
    direction.dt := ⟨dtLo, dtUp⟩
    direction.dlam := ⟨dlamLo, dlamUp⟩ }

theorem fill_sideMultiplier {dest comp lam dt t : Vec α} {count : Nat} (hd : dest.size = count)
    (hcomp : comp.size = count) (hlam : lam.size = count) (hdt : dt.size = count)
    (ht : t.size = count) : fill dest (sideMultiplier comp lam dt t) count =
      .ok (StageState.sideMultiplier comp lam dt t) := by
  refine fill_eq hd (by simp [StageState.sideMultiplier, hcomp]) fun i hi => ?_
  simp [sideMultiplier, StageState.sideMultiplier, Vec.add, Vec.neg, Vec.get_map, Vec.get_zipWith,
    hcomp, hlam, hdt, ht, hi]

theorem fill_lowerDirection {dest c ineq : Vec α} {count : Nat} (hd : dest.size = count)
    (hc : c.size = count) (hineq : ineq.size = count) :
    fill dest (lowerDirection c ineq) count = .ok (c.add ineq) := by
  refine fill_eq hd (by simp [hc]) fun i hi => ?_
  simp [lowerDirection, Vec.add, Vec.get_zipWith, hc, hineq, hi]

theorem fill_upperDirection {dest c ineq : Vec α} {count : Nat} (hd : dest.size = count)
    (hc : c.size = count) (hineq : ineq.size = count) :
    fill dest (upperDirection c ineq) count = .ok (c.neg.add ineq) := by
  refine fill_eq hd (by simp [hc]) fun i hi => ?_
  simp [upperDirection, Vec.add, Vec.neg, Vec.get_map, Vec.get_zipWith, hc, hineq, hi]

theorem expand_eq (h : s.Sized d n) : expand s = .ok s.expand := by
  simp [expand, StageState.expand, fill_lowerDirection, fill_upperDirection, fill_sideMultiplier,
    h.sizes]

/-! ## Steps -/

/-- The product of slack and multiplier of row `i`. -/
def product (lam t : Vec α) (i : Nat) : Except SizeFault α := do
  return (← read lam i) * (← read t i)

/-- The right-hand side of the predictor. -/
def aimAtZero (s : StageState α) : Except SizeFault (StageState α) := do
  let p := s.point
  let count := s.residual.comp.lo.size
  let lo ← fill s.residual.comp.lo (product p.lam.lo p.t.lo) count
  let up ← fill s.residual.comp.up (product p.lam.up p.t.up) count
  return { s with residual.comp := ⟨lo, up⟩ }

/-- The right-hand side of the corrector in row `i`. -/
def corrected (target : α) (lam t dlam dt : Vec α) (i : Nat) : Except SizeFault α := do
  return (← read lam i) * (← read t i) + (← read dlam i) * (← read dt i) - target

/-- The right-hand side of the corrector. The predictor is kept. -/
def aimAtTarget (target : α) (s : StageState α) : Except SizeFault (StageState α) := do
  let p := s.point
  let dtLo ← copy s.affineT.lo s.direction.dt.lo
  let dtUp ← copy s.affineT.up s.direction.dt.up
  let dlamLo ← copy s.affineLam.lo s.direction.dlam.lo
  let dlamUp ← copy s.affineLam.up s.direction.dlam.up
  let count := s.residual.comp.lo.size
  let lo ← fill s.residual.comp.lo (corrected target p.lam.lo p.t.lo dlamLo dtLo) count
  let up ← fill s.residual.comp.up (corrected target p.lam.up p.t.up dlamUp dtUp) count
  return { s with
    affineT := ⟨dtLo, dtUp⟩
    affineLam := ⟨dlamLo, dlamUp⟩
    residual.comp := ⟨lo, up⟩ }

/-- The limit that keeps `z + a dz` nonnegative. -/
def ratioLimit (limit : Option α) (z dz : Vec α) : Except SizeFault (Option α) :=
  fitting (z.size = dz.size) (StagedQP.ratioLimit limit z dz z.size)

/-- The limit that keeps all slacks and multipliers of a stage nonnegative. -/
def stepLimit (limit : Option α) (s : StageState α) : Except SizeFault (Option α) := do
  let p := s.point
  let d := s.direction
  let limit ← ratioLimit limit p.t.lo d.dt.lo
  let limit ← ratioLimit limit p.t.up d.dt.up
  let limit ← ratioLimit limit p.lam.lo d.dlam.lo
  ratioLimit limit p.lam.up d.dlam.up

/-- The product of row `i` of one side after a step of length `a`. -/
def trialProduct (a : α) (lam dlam t dt : Vec α) (i : Nat) : Except SizeFault α := do
  return ((← read lam i) + a * (← read dlam i)) * ((← read t i) + a * (← read dt i))

/-- The products of the first `k` rows after a step of length `a`. -/
def trialProductsUpTo (a : α) (s : StageState α) : Nat → Except SizeFault α
  | 0 => .ok 0
  | k + 1 => do
    let p := s.point
    let d := s.direction
    let before ← trialProductsUpTo a s k
    let lo ← trialProduct a p.lam.lo d.dlam.lo p.t.lo d.dt.lo k
    let up ← trialProduct a p.lam.up d.dlam.up p.t.up d.dt.up k
    return before + lo + up

/-- All products after a step of length `a`. -/
def trialProducts (a : α) (s : StageState α) : Except SizeFault α :=
  trialProductsUpTo a s s.point.t.lo.size

/-- The point reached by a step of length `a`. -/
def move (a : α) (s : StageState α) : Except SizeFault (StageState α) := do
  let p := s.point
  let d := s.direction
  let v ← advance p.v a d.dv
  let pi ← advance p.pi a d.dpi
  let tLo ← advance p.t.lo a d.dt.lo
  let tUp ← advance p.t.up a d.dt.up
  let lamLo ← advance p.lam.lo a d.dlam.lo
  let lamUp ← advance p.lam.up a d.dlam.up
  return { s with point := { v := v, pi := pi, t := ⟨tLo, tUp⟩, lam := ⟨lamLo, lamUp⟩ } }

theorem fill_product {dest lam t : Vec α} {count : Nat} (hd : dest.size = count)
    (hlam : lam.size = count) (ht : t.size = count) :
    fill dest (product lam t) count = .ok (lam.zipWith (· * ·) t) := by
  refine fill_eq hd (by simp [hlam]) fun i hi => ?_
  simp [product, Vec.get_zipWith, hlam, ht, hi]

theorem aimAtZero_eq (h : s.Sized d n) : aimAtZero s = .ok s.aimAtZero := by
  simp [aimAtZero, StageState.aimAtZero, Sides.zipWith, fill_product, h.sizes]

theorem fill_corrected {dest lam t dlam dt : Vec α} {count : Nat} (hd : dest.size = count)
    (hlam : lam.size = count) (ht : t.size = count) (hdlam : dlam.size = count)
    (hdt : dt.size = count) (target : α) : fill dest (corrected target lam t dlam dt) count =
      .ok (Vec.ofFn count fun i => lam.get i * t.get i + dlam.get i * dt.get i - target) := by
  refine fill_eq hd (Vec.size_ofFn ..) fun i hi => ?_
  simp [corrected, Vec.get_ofFn_of_lt, hlam, ht, hdlam, hdt, hi]

theorem aimAtTarget_eq (h : s.Sized d n) (target : α) :
    aimAtTarget target s = .ok (s.aimAtTarget target) := by
  simp [aimAtTarget, StageState.aimAtTarget, fill_corrected, h.sizes]

@[simp] theorem ratioLimit_eq {z dz : Vec α} (hz : z.size = dz.size) (limit : Option α) :
    ratioLimit limit z dz = .ok (StagedQP.ratioLimit limit z dz z.size) := fitting_eq hz _

theorem stepLimit_eq (h : s.Sized d n) (limit : Option α) :
    stepLimit limit s = .ok (s.stepLimit limit) := by
  simp [stepLimit, StageState.stepLimit, h.sizes]

theorem trialProductsUpTo_eq (h : s.Sized d n) (a : α) (k : Nat) (hk : k ≤ d.nc) :
    trialProductsUpTo a s k = .ok (s.trialProductsUpTo a k) := by
  induction k with
  | zero => rfl
  | succ k ih =>
      have hlt : k < d.nc := hk
      simp [trialProductsUpTo, StageState.trialProductsUpTo, trialProduct, ih (by omega), h.sizes,
        hlt]

theorem trialProducts_eq (h : s.Sized d n) (a : α) :
    trialProducts a s = .ok (s.trialProducts a) :=
  trialProductsUpTo_eq h a _ (Nat.le_of_eq h.point.t.lo)

theorem move_eq (h : s.Sized d n) (a : α) : move a s = .ok (s.move a) := by
  simp [move, StageState.move, Sides.zipWith, h.sizes]

/-! ## Data -/

section Data

variable {data : Stage α} {dest : Mat α}

/-- Rows and columns exchanged. -/
def transposed (m : Mat α) : Mat α := Mat.ofFn m.cols m.rows fun i j => m.get j i

/-- The Hessian of the stage vector, block by block. -/
def loadHess (dest : Mat α) (data : Stage α) (nu nx : Nat) : Except SizeFault (Mat α) := do
  let hess ← writeBlock dest 0 0 nu nu data.R
  let hess ← writeBlock hess 0 nu nu nx data.S
  let hess ← writeBlock hess nu 0 nx nu (transposed data.S)
  writeBlock hess nu nu nx nx data.Q

/-- A one in each of the rows from `row` on, at the given positions. -/
def unitRows (row : Nat) (m : Mat α) : List Nat → Except SizeFault (Mat α)
  | [] => .ok m
  | j :: rest => do
    let m ← writeAt m row j 1
    unitRows (row + 1) m rest

/-- The inequality rows, box rows first. -/
def loadJac (dest : Mat α) (data : Stage α) (nu nx : Nat) : Except SizeFault (Mat α) := do
  let nb := data.sizes.nb
  let ng := data.sizes.ng
  let jac ← unitRows 0 (Mat.zeros dest.rows dest.cols) data.idxb
  let jac ← writeBlock jac nb 0 ng nu data.D
  writeBlock jac nb nu ng nx data.C

/-- The dynamics. -/
def loadDyn (dest : Mat α) (data : Stage α) (nu nx : Nat) : Except SizeFault (Mat α) := do
  let dyn ← writeBlock dest 0 0 data.nxNext nu data.B
  writeBlock dyn 0 nu data.nxNext nx data.A

/-- A vector in two parts. -/
def loadParts (dest : Vec α) (k n : Nat) (v w : Vec α) : Except SizeFault (Vec α) := do
  let head ← writeRows dest 0 k v
  writeRows head k n w

/-- The data of a stage packed into the buffers. -/
def load (data : Stage α) (s : StageState α) : Except SizeFault (StageState α) := do
  let hess ← loadHess s.data.hess data s.nu s.nx
  let grad ← loadParts s.data.grad s.nu s.nx data.r data.q
  let jac ← loadJac s.data.jac data s.nu s.nx
  let dyn ← loadDyn s.data.dyn data s.nu s.nx
  let off ← copy s.data.off data.b
  let lo ← loadParts s.data.bound.lo data.sizes.nb data.sizes.ng data.lb data.lg
  let up ← loadParts s.data.bound.up data.sizes.nb data.sizes.ng data.ub data.ug
  return { s with data := ⟨hess, grad, jac, dyn, off, ⟨lo, up⟩⟩ }

theorem loadHess_eq (hdest : dest.Sized (data.sizes.nu + data.sizes.nx)
    (data.sizes.nu + data.sizes.nx)) (hd : data.WellShaped) :
    loadHess dest data data.sizes.nu data.sizes.nx = .ok (PackedStage.ofStage data).hess := by
  have hR : data.R.rows = data.sizes.nu := rfl
  have hQ : data.Q.rows = data.sizes.nx := rfl
  rw [loadHess, writeBlock_eq (by rw [hdest.rows]; omega) (by rw [hdest.cols]; omega)
      ⟨hR, hd.R_cols⟩,
    ok_bind, writeBlock_eq (by simp [hdest.rows]) (by simp [hdest.cols]) ⟨hd.S_rows, hd.S_cols⟩,
    ok_bind, writeBlock_eq (by simp [hdest.rows]) (by simp [hdest.cols]) ⟨hd.S_cols, hd.S_rows⟩,
    ok_bind, writeBlock_eq (by simp [hdest.rows]) (by simp [hdest.cols]) ⟨hQ, hd.Q_cols⟩]
  refine congrArg Except.ok (Mat.ext_get (Mat.wellFormed_ofFn ..) (Mat.wellFormed_ofFn ..)
    hdest.rows hdest.cols fun i hi j hj => ?_)
  have hi' : i < data.sizes.nu + data.sizes.nx := hdest.rows ▸ hi
  have hj' : j < data.sizes.nu + data.sizes.nx := hdest.cols ▸ hj
  simp only [Mat.rows_ofFn, Mat.cols_ofFn, hdest.rows, hdest.cols, PackedStage.ofStage,
    Mat.get_ofFn_of_lt _ hi' hj']
  by_cases hiu : i < data.sizes.nu
  · by_cases hju : j < data.sizes.nu
    · simp [hiu, hju, Nat.not_le.2 hiu, Nat.not_le.2 hju]
    · simp [hiu, hju, Nat.not_le.2 hiu, Nat.not_lt.1 hju, hj']
  · by_cases hju : j < data.sizes.nu
    · have hit : i - data.sizes.nu < data.S.cols := by rw [hd.S_cols]; omega
      have hjt : j < data.S.rows := by rw [hd.S_rows]; omega
      simp [hiu, hju, Nat.not_lt.1 hiu, Nat.not_le.2 hju, hi', transposed,
        Mat.get_ofFn_of_lt _ hit hjt]
    · simp [hiu, hju, Nat.not_lt.1 hiu, Nat.not_lt.1 hju, hi', hj']

/-- Rows with a single one, written one after another. -/
theorem unitRows_eq (l : List Nat) : ∀ (row : Nat) {m : Mat α}, m.WellFormed →
    row + l.length ≤ m.rows → (∀ j ∈ l, j < m.cols) → unitRows row m l =
      .ok (Mat.ofFn m.rows m.cols fun i j =>
        if row ≤ i ∧ l[i - row]? = some j then 1 else m.get i j) := by
  induction l with
  | nil =>
      intro row m hm _ _
      refine congrArg Except.ok (Mat.ext_get hm (Mat.wellFormed_ofFn ..) rfl rfl
        fun i hi j hj => ?_)
      rw [Mat.get_ofFn_of_lt _ hi hj, if_neg]
      simp
  | cons p rest ih =>
      intro row m hm hrows hcols
      rw [List.length_cons] at hrows
      have hp := hcols p (List.mem_cons_self ..)
      rw [unitRows, writeAt_eq (by omega) hp, ok_bind,
        ih (row + 1) (Mat.wellFormed_ofFn ..) (show row + 1 + rest.length ≤ m.rows by omega)
          fun j hj => hcols j (List.mem_cons_of_mem _ hj)]
      refine congrArg Except.ok (Mat.ext_get (Mat.wellFormed_ofFn ..) (Mat.wellFormed_ofFn ..) rfl
        rfl fun i hi j hj => ?_)
      have hi' : i < m.rows := hi
      have hj' : j < m.cols := hj
      simp only [Mat.rows_ofFn, Mat.cols_ofFn, Mat.get_ofFn_of_lt _ hi' hj']
      rcases Nat.lt_trichotomy i row with hlt | rfl | hgt
      · simp [Nat.not_le.2 hlt, Nat.ne_of_lt hlt, show ¬ row + 1 ≤ i by omega]
      · have hlater : ¬ (i + 1 ≤ i ∧ rest[i - (i + 1)]? = some j) := fun h =>
          Nat.not_succ_le_self i h.1
        rw [if_neg hlater]
        simp [eq_comm]
      · have hpred : i - row = (i - (row + 1)) + 1 := by omega
        simp [show row + 1 ≤ i from hgt, Nat.le_of_lt hgt, Nat.ne_of_gt hgt, hpred]

theorem loadJac_eq (hdest : dest.Sized data.sizes.nc (data.sizes.nu + data.sizes.nx))
    (hd : data.WellShaped) (hidx : ∀ i ∈ data.idxb, i < data.sizes.nv) :
    loadJac dest data data.sizes.nu data.sizes.nx = .ok (PackedStage.ofStage data).jac := by
  have hnc : dest.rows = data.sizes.nb + data.sizes.ng := hdest.rows
  have hunit := unitRows_eq data.idxb 0 (m := Mat.zeros dest.rows dest.cols)
    (Mat.wellFormed_ofFn ..) (show 0 + data.sizes.nb ≤ dest.rows by omega)
    fun i hi => Nat.lt_of_lt_of_eq (hidx i hi) hdest.cols.symm
  have hC : data.C.rows = data.sizes.ng := rfl
  rw [loadJac, hunit, ok_bind,
    writeBlock_eq (by simp [hnc]) (by simp [hdest.cols]) ⟨hd.D_rows, hd.D_cols⟩, ok_bind,
    writeBlock_eq (by simp [hnc]) (by simp [hdest.cols]) ⟨hC, hd.C_cols⟩]
  refine congrArg Except.ok (Mat.ext_get (Mat.wellFormed_ofFn ..) (Mat.wellFormed_ofFn ..)
    hnc hdest.cols fun i hi j hj => ?_)
  have hi' : i < data.sizes.nb + data.sizes.ng := hnc ▸ hi
  have hj' : j < data.sizes.nu + data.sizes.nx := hdest.cols ▸ hj
  simp only [Mat.rows_ofFn, Mat.cols_ofFn, Mat.rows_zeros, Mat.cols_zeros, hnc, hdest.cols,
    PackedStage.ofStage, Mat.get_ofFn_of_lt _ hi' hj']
  by_cases hib : i < data.sizes.nb
  · simp [hib, Nat.not_le.2 hib]
  · by_cases hju : j < data.sizes.nu
    · simp [hib, hju, hi', Nat.not_lt.1 hib, Nat.not_le.2 hju]
    · simp [hib, hju, hi', hj', Nat.not_lt.1 hib, Nat.not_lt.1 hju]

theorem loadDyn_eq (hdest : dest.Sized data.nxNext (data.sizes.nu + data.sizes.nx))
    (hd : data.WellShaped) :
    loadDyn dest data data.sizes.nu data.sizes.nx = .ok (PackedStage.ofStage data).dyn := by
  have hA : data.A.rows = data.nxNext := rfl
  rw [loadDyn, writeBlock_eq (by rw [hdest.rows]; omega) (by rw [hdest.cols]; omega)
      ⟨hd.B_rows, hd.B_cols⟩, ok_bind,
    writeBlock_eq (by simp [hdest.rows]) (by simp [hdest.cols]) ⟨hA, hd.A_cols⟩]
  refine congrArg Except.ok (Mat.ext_get (Mat.wellFormed_ofFn ..) (Mat.wellFormed_ofFn ..)
    hdest.rows hdest.cols fun i hi j hj => ?_)
  have hi' : i < data.nxNext := hdest.rows ▸ hi
  have hj' : j < data.sizes.nu + data.sizes.nx := hdest.cols ▸ hj
  simp only [Mat.rows_ofFn, Mat.cols_ofFn, hdest.rows, hdest.cols, PackedStage.ofStage,
    Mat.get_ofFn_of_lt _ hi' hj']
  by_cases hju : j < data.sizes.nu
  · simp [hju, hi', Nat.not_le.2 hju]
  · simp [hju, hi', hj', Nat.not_lt.1 hju]

theorem loadParts_eq {dest v w : Vec α} {k n : Nat} (hdest : dest.size = k + n) (hv : v.size = k)
    (hw : w.size = n) : loadParts dest k n v w = .ok (v.append w) :=
  writeRows_append hdest hv hw

theorem load_eq {data : Stage α} (h : s.Sized data.sizes data.nxNext) (hd : data.WellShaped)
    (hidx : ∀ i ∈ data.idxb, i < data.sizes.nv) :
    load data s = .ok { s with data := PackedStage.ofStage data } := by
  rw [load, h.nu, h.nx, loadHess_eq h.data.hess hd, ok_bind,
    loadParts_eq h.data.grad hd.r hd.q, ok_bind, loadJac_eq h.data.jac hd hidx, ok_bind,
    loadDyn_eq h.data.dyn hd, ok_bind, copy_eq (h.data.off.trans hd.b.symm), ok_bind,
    loadParts_eq h.data.bound.lo hd.lb hd.lg, ok_bind,
    loadParts_eq h.data.bound.up hd.ub hd.ug, ok_bind]
  rfl

end Data

end Checked

end StagedQP
