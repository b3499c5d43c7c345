import StagedQP.Solver.Newton
import StagedQP.Solver.Residual

/-!
# Predictor-corrector steps

One iteration of the solver. The *predictor* is the Newton direction towards zero products of slacks
and multipliers; how far it can be followed, and what duality measure it would lead to, decides the
*centering* `sigma` of the *corrector*, which aims at products `sigma mu` and takes the second-order
error of the predictor into account. Both directions come from one factorization. The step goes
almost to the boundary along the corrector, and never beyond the full Newton step.
-/

namespace StagedQP

variable {α : Type} [Scalar α]

/-! ## Step lengths

A step length may be unlimited, which `none` stands for. -/

/-- The shorter of a length and a possibly unlimited one; an undefined length limits nothing. -/
def shorten (limit : Option α) (a : α) : Option α :=
  match limit with
  | some b => some (Scalar.min b a)
  | none => if Scalar.le a a then some a else none

/-- The limit that keeps `z + a dz` nonnegative for the first `n` entries. -/
def ratioLimit (limit : Option α) (z dz : Vec α) : Nat → Option α
  | 0 => limit
  | n + 1 =>
    let before := ratioLimit limit z dz n
    if Scalar.lt (dz.get n) 0 then shorten before (-z.get n / dz.get n) else before

/-- The limit that keeps all slacks and multipliers of a stage nonnegative. -/
def StageState.stepLimit (limit : Option α) (s : StageState α) : Option α :=
  let p := s.point
  let d := s.direction
  let limit := ratioLimit limit p.t.lo d.dt.lo p.t.lo.size
  let limit := ratioLimit limit p.t.up d.dt.up p.t.up.size
  let limit := ratioLimit limit p.lam.lo d.dlam.lo p.lam.lo.size
  ratioLimit limit p.lam.up d.dlam.up p.lam.up.size

namespace Workspace

/-- The largest step length, at most `cap`, that keeps slacks and multipliers nonnegative. -/
def maxStep (w : Workspace α) (cap : Option α) : Option α :=
  w.stages.foldl StageState.stepLimit cap

end Workspace

/-! ## Moving -/

namespace StageState

/-- The point reached by a step of length `a` along the direction. -/
def move (a : α) (s : StageState α) : StageState α :=
  let p := s.point
  let d := s.direction
  { s with
    point :=
      { v := p.v.advance a d.dv
        pi := p.pi.advance a d.dpi
        t := p.t.zipWith (fun z dz => z.advance a dz) d.dt
        lam := p.lam.zipWith (fun z dz => z.advance a dz) d.dlam } }

/-- The products of the first `n` rows after a step of length `a`, added up row by row, the lower
side of a row before the upper. -/
def trialProductsUpTo (a : α) (s : StageState α) : Nat → α
  | 0 => 0
  | n + 1 =>
    let p := s.point
    let d := s.direction
    let product (lam dlam t dt : Vec α) : α :=
      (lam.get n + a * dlam.get n) * (t.get n + a * dt.get n)
    trialProductsUpTo a s n + product p.lam.lo d.dlam.lo p.t.lo d.dt.lo
      + product p.lam.up d.dlam.up p.t.up d.dt.up

/-- The sum of the products of slacks and multipliers after a step of length `a`. -/
def trialProducts (a : α) (s : StageState α) : α := trialProductsUpTo a s s.point.t.lo.size

/-- The right-hand side of the predictor: the products as they are. -/
def aimAtZero (s : StageState α) : StageState α :=
  { s with residual.comp := s.point.lam.zipWith (Vec.zipWith (· * ·)) s.point.t }

/-- The right-hand side of the corrector: the products with the second-order error of the predictor
added and the target taken off. The predictor is kept. -/
def aimAtTarget (target : α) (s : StageState α) : StageState α :=
  let p := s.point
  let d := s.direction
  let side (lam t dlam dt : Vec α) : Vec α :=
    Vec.ofFn lam.size fun i => lam.get i * t.get i + dlam.get i * dt.get i - target
  { s with
    affineT := d.dt
    affineLam := d.dlam
    residual.comp :=
      ⟨side p.lam.lo p.t.lo d.dlam.lo d.dt.lo, side p.lam.up p.t.up d.dlam.up d.dt.up⟩ }

end StageState

/-! ## The step -/

/-- A step: the workspace after it, what it warns about, and its record, or the stage whose control
block could not be factored. In the latter case the point has not moved. -/
structure StepResult (α : Type) where
  /-- The workspace after the attempt. -/
  workspace : Workspace α
  /-- The warnings of the factorization. -/
  warnings : List (Warning α)
  /-- The record of the step, or the stage that stopped it. -/
  outcome : Except Nat (StepStats α)

namespace Workspace

/-- The fraction of the way to the boundary that a step takes. -/
def boundaryFraction : α := Scalar.decimal 995 3

/-- The duality measure after a step of length `a` along the direction. -/
def trialDuality (w : Workspace α) (a : α) : α :=
  w.stages.foldl (fun acc s => acc + s.trialProducts a) 0 / Scalar.ofNat w.pairs

/-- The centering for a predictor that leads from the duality measure `mu` to `muAff`: the cube of
their ratio, between `sigmaMin` and one. -/
def centering (muAff mu sigmaMin : α) : α :=
  let ratio := muAff / mu
  Scalar.max (Scalar.min (ratio * ratio * ratio) 1) sigmaMin

/-- The predictor step length, the duality measure it leads to, and the centering. Without
inequality rows, or without a positive duality measure, there is nothing to center. -/
def predict (w : Workspace α) (mu sigmaMin : α) : α × α × α :=
  let alphaAff := (w.maxStep (some 1)).getD 1
  if w.pairs ≠ 0 && Scalar.lt 0 mu then
    let muAff := w.trialDuality alphaAff
    (alphaAff, muAff, centering muAff mu sigmaMin)
  else (alphaAff, 0, 0)

/-- The length of the step along the corrector. -/
def stepLength (w : Workspace α) : α :=
  match w.maxStep none with
  | none => 1
  | some a => Scalar.min (boundaryFraction * a) 1

/-- One predictor-corrector step from the current point, whose residuals must have been evaluated,
with duality measure `mu`. -/
def step (w : Workspace α) (mu sigmaMin : α) : StepResult α :=
  let sweep := Riccati.factorize (w.stages.map StageState.condenseHessian)
  match sweep.failed with
  | some k => ⟨{ w with stages := sweep.stages }, sweep.warnings, .error k⟩
  | none =>
    let predicted :=
      { w with stages := newtonDirection (sweep.stages.map StageState.aimAtZero) }
    let (alphaAff, muAff, sigma) := predicted.predict mu sigmaMin
    let corrected :=
      { predicted with
        stages := newtonDirection (predicted.stages.map (StageState.aimAtTarget (sigma * mu))) }
    let alpha := corrected.stepLength
    let moved := { corrected with stages := corrected.stages.map (StageState.move alpha) }
    ⟨moved, sweep.warnings, .ok ⟨sigma, alphaAff, muAff, alpha, moved.duality⟩⟩

end Workspace

end StagedQP
