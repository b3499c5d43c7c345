import StagedQP.Proofs.InteriorPoint
import StagedQP.Proofs.NewtonRows

/-!
# Products along a step

Both directions of a step solve the complementarity equations of every pair of a slack and a
multiplier, the predictor for the products as they are and the corrector for products `target` with
the second-order error of the predictor taken off:

```text
predictor   t dlam + lam dt = -lam t
corrector   t dlam + lam dt = target - lam t - dlam_aff dt_aff
```

This holds by the way the multiplier directions are filled in, so it needs no slack to be positive,
only none to be zero, and it says nothing about the rest of the system: residuals, shifts of control
blocks and the ends of the chain do not matter. What a sum over all pairs becomes along the step
then follows pair by pair.

## Main results

* `Workspace.pairs_mul_duality`, `Workspace.pairs_mul_duality_move` — the duality measure, here and
  along a direction, as a sum over pairs.
* `Workspace.predictor_affine`, `Workspace.corrector_centered` — the equations above.
* `Workspace.corrector_affine` — the corrector finds the predictor where the step put it.
-/

namespace StagedQP

open Finset

/-! ## Pairs -/

/-- A slack and its multiplier, with their direction and the predictor kept beside it. -/
structure SidePair (α : Type) where
  /-- The multiplier. -/
  lam : α
  /-- The slack. -/
  t : α
  /-- Direction of the multiplier. -/
  dlam : α
  /-- Direction of the slack. -/
  dt : α
  /-- Multiplier part of the predictor. -/
  dlamAff : α
  /-- Slack part of the predictor. -/
  dtAff : α

variable {K : Type} [Field K]

namespace SidePair

/-- The product of slack and multiplier. -/
def product (p : SidePair K) : K := p.lam * p.t

/-- The product after a step of length `a` along the direction. -/
def productAfter (a : K) (p : SidePair K) : K := (p.lam + a * p.dlam) * (p.t + a * p.dt)

/-- What a step of length `a` along the corrector adds to the product beside the linear part. -/
def secondOrder (a : K) (p : SidePair K) : K :=
  a ^ 2 * (p.dlam * p.dt) - a * (p.dlamAff * p.dtAff)

/-- The direction aims at a zero product. -/
def Affine (p : SidePair K) : Prop := p.t * p.dlam + p.lam * p.dt = -(p.lam * p.t)

/-- The direction aims at the product `target`, less the second-order error of the predictor. -/
def Centered (target : K) (p : SidePair K) : Prop :=
  p.t * p.dlam + p.lam * p.dt = target - p.lam * p.t - p.dlamAff * p.dtAff

theorem affine_of_row {p : SidePair K} {comp : K} (h : p.t * p.dlam + p.lam * p.dt = -comp)
    (hcomp : comp = p.lam * p.t) : p.Affine := by
  rw [Affine, h, hcomp]

theorem centered_of_row {p : SidePair K} {comp target : K}
    (h : p.t * p.dlam + p.lam * p.dt = -comp)
    (hcomp : comp = p.lam * p.t + p.dlamAff * p.dtAff - target) : p.Centered target := by
  rw [Centered, h, hcomp]
  ring

end SidePair

namespace StageState

/-- The pair of the lower side of row `i`. -/
def lowerPair (s : StageState K) (i : Nat) : SidePair K :=
  ⟨s.point.lam.lo.get i, s.point.t.lo.get i, s.direction.dlam.lo.get i, s.direction.dt.lo.get i,
    s.affineLam.lo.get i, s.affineT.lo.get i⟩

/-- The pair of the upper side of row `i`. -/
def upperPair (s : StageState K) (i : Nat) : SidePair K :=
  ⟨s.point.lam.up.get i, s.point.t.up.get i, s.direction.dlam.up.get i, s.direction.dt.up.get i,
    s.affineLam.up.get i, s.affineT.up.get i⟩

/-- The sum of `f` over all pairs of a stage. -/
def sumPairs (f : SidePair K → K) (s : StageState K) : K :=
  ∑ i ∈ range s.nc, (f (s.lowerPair i) + f (s.upperPair i))

/-- All pairs of a stage have the property `P`. -/
def AllPairs (P : SidePair K → Prop) (s : StageState K) : Prop :=
  ∀ i < s.nc, P (s.lowerPair i) ∧ P (s.upperPair i)

theorem AllPairs.mono {P Q : SidePair K → Prop} {s : StageState K} (h : s.AllPairs P)
    (hPQ : ∀ p, P p → Q p) : s.AllPairs Q :=
  fun i hi => ⟨hPQ _ (h i hi).1, hPQ _ (h i hi).2⟩

theorem AllPairs.and {P Q : SidePair K → Prop} {s : StageState K} (hP : s.AllPairs P)
    (hQ : s.AllPairs Q) : s.AllPairs fun p => P p ∧ Q p :=
  fun i hi => ⟨⟨(hP i hi).1, (hQ i hi).1⟩, (hP i hi).2, (hQ i hi).2⟩

theorem sumPairs_congr {f g : SidePair K → K} {s : StageState K}
    (h : s.AllPairs fun p => f p = g p) : s.sumPairs f = s.sumPairs g := by
  refine sum_congr rfl fun i hi => ?_
  obtain ⟨hlo, hup⟩ := h i (mem_range.1 hi)
  rw [hlo, hup]

theorem sumPairs_add (f g : SidePair K → K) (s : StageState K) :
    s.sumPairs (fun p => f p + g p) = s.sumPairs f + s.sumPairs g := by
  rw [sumPairs, sumPairs, sumPairs, ← sum_add_distrib]
  refine sum_congr rfl fun i _ => ?_
  ring

theorem sumPairs_mul_left (c : K) (f : SidePair K → K) (s : StageState K) :
    s.sumPairs (fun p => c * f p) = c * s.sumPairs f := by
  rw [sumPairs, sumPairs, mul_sum]
  refine sum_congr rfl fun i _ => ?_
  ring

theorem sumPairs_const (c : K) (s : StageState K) :
    s.sumPairs (fun _ => c) = (2 * s.nc : ℕ) * c := by
  rw [sumPairs, sum_const, card_range, nsmul_eq_mul]
  push_cast
  ring

end StageState

namespace Workspace

/-- The sum of `f` over all pairs of a workspace. -/
def sumPairs (f : SidePair K → K) (w : Workspace K) : K :=
  (w.stages.map (StageState.sumPairs f)).sum

/-- All pairs of a workspace have the property `P`. -/
def AllPairs (P : SidePair K → Prop) (w : Workspace K) : Prop := ∀ s ∈ w.stages, s.AllPairs P

theorem sumPairs_congr {f g : SidePair K → K} {w : Workspace K}
    (h : w.AllPairs fun p => f p = g p) : w.sumPairs f = w.sumPairs g :=
  congrArg List.sum (List.map_congr_left fun s hs => StageState.sumPairs_congr (h s hs))

theorem sumPairs_add (f g : SidePair K → K) (w : Workspace K) :
    w.sumPairs (fun p => f p + g p) = w.sumPairs f + w.sumPairs g := by
  rw [sumPairs, sumPairs, sumPairs, ← List.sum_map_add]
  exact congrArg List.sum (List.map_congr_left fun s _ => StageState.sumPairs_add f g s)

theorem sumPairs_mul_left (c : K) (f : SidePair K → K) (w : Workspace K) :
    w.sumPairs (fun p => c * f p) = c * w.sumPairs f := by
  rw [sumPairs, sumPairs, ← List.sum_map_mul_left]
  exact congrArg List.sum (List.map_congr_left fun s _ => StageState.sumPairs_mul_left c f s)

theorem sumPairs_const (c : K) (w : Workspace K) :
    w.sumPairs (fun _ => c) = (w.pairs : K) * c := by
  rw [sumPairs, pairs]
  induction w.stages with
  | nil => rw [List.map_nil, List.map_nil, List.sum_nil, List.foldr_nil, Nat.cast_zero, zero_mul]
  | cons s rest ih =>
      rw [List.map_cons, List.sum_cons, ih, StageState.sumPairs_const, List.map_cons,
        List.foldr_cons, Nat.cast_add, add_mul]

end Workspace

section Order

variable [LinearOrder K] [IsStrictOrderedRing K]

theorem StageState.sumPairs_le {f g : SidePair K → K} {s : StageState K}
    (h : s.AllPairs fun p => f p ≤ g p) : s.sumPairs f ≤ s.sumPairs g :=
  sum_le_sum fun i hi => add_le_add (h i (mem_range.1 hi)).1 (h i (mem_range.1 hi)).2

theorem Workspace.sumPairs_le {f g : SidePair K → K} {w : Workspace K}
    (h : w.AllPairs fun p => f p ≤ g p) : w.sumPairs f ≤ w.sumPairs g :=
  List.sum_le_sum fun s hs => StageState.sumPairs_le (h s hs)

theorem Workspace.sumPairs_nonneg {f : SidePair K → K} {w : Workspace K}
    (h : w.AllPairs fun p => 0 ≤ f p) : 0 ≤ w.sumPairs f := by
  have hle := sumPairs_le h
  rwa [sumPairs_const, mul_zero] at hle

/-- A sum of positive terms is positive if there is a pair. -/
theorem Workspace.sumPairs_pos {f : SidePair K → K} {w : Workspace K}
    (h : w.AllPairs fun p => 0 < f p) (hpairs : w.pairs ≠ 0) : 0 < w.sumPairs f := by
  have hrow : ∀ s ∈ w.stages, ∀ i ∈ range s.nc, 0 < f (s.lowerPair i) + f (s.upperPair i) :=
    fun s hs i hi => add_pos (h s hs i (mem_range.1 hi)).1 (h s hs i (mem_range.1 hi)).2
  obtain ⟨s, hs, hnc⟩ : ∃ s ∈ w.stages, s.nc ≠ 0 := by
    by_contra hnone
    push Not at hnone
    refine hpairs (List.sum_eq_zero fun m hm => ?_)
    obtain ⟨s, hs, rfl⟩ := List.mem_map.1 hm
    rw [hnone s hs, mul_zero]
  have hpos : 0 < s.sumPairs f := sum_pos (hrow s hs) (nonempty_range_iff.2 hnc)
  refine hpos.trans_le (List.single_le_sum (fun a ha => ?_) _ (List.mem_map_of_mem hs))
  obtain ⟨s', hs', rfl⟩ := List.mem_map.1 ha
  exact sum_nonneg fun i hi => (hrow s' hs' i hi).le

end Order

/-! ## The duality measure -/

section Measure

variable [LinearOrder K] [SquareRoot K]

namespace StageState

variable {s : StageState K} {n : Nat} (hs : s.Shaped n) (a : K)

include hs

theorem products_eq_sumPairs : s.products = s.sumPairs SidePair.product := by
  rw [products_eq, hs.lam_lo, hs.lam_up, ← sum_add_distrib]
  rfl

/-- The products after a step along the direction. -/
theorem products_move : (s.move a).products = s.sumPairs (SidePair.productAfter a) := by
  rw [products_eq_sumPairs (hs.move a)]
  refine sum_congr rfl fun i hi => ?_
  have hi' : i < s.nc := mem_range.1 hi
  have hlamLo := Vec.get_advance s.point.lam.lo a s.direction.dlam.lo (hs.lam_lo.symm ▸ hi')
  have hlamUp := Vec.get_advance s.point.lam.up a s.direction.dlam.up (hs.lam_up.symm ▸ hi')
  have htLo := Vec.get_advance s.point.t.lo a s.direction.dt.lo (hs.t_lo.symm ▸ hi')
  have htUp := Vec.get_advance s.point.t.up a s.direction.dt.up (hs.t_up.symm ▸ hi')
  show (s.point.lam.lo.advance a s.direction.dlam.lo).get i *
      (s.point.t.lo.advance a s.direction.dt.lo).get i +
    (s.point.lam.up.advance a s.direction.dlam.up).get i *
      (s.point.t.up.advance a s.direction.dt.up).get i = _
  rw [hlamLo, hlamUp, htLo, htUp, SidePair.productAfter, SidePair.productAfter, lowerPair,
    upperPair]
  ring

omit hs in
theorem trialProductsUpTo_eq (m : Nat) : s.trialProductsUpTo a m =
    ∑ i ∈ range m, (SidePair.productAfter a (s.lowerPair i) +
      SidePair.productAfter a (s.upperPair i)) := by
  induction m with
  | zero => rfl
  | succ m ih =>
      rw [sum_range_succ, ← ih, ← add_assoc]
      rfl

/-- The trial of a step adds up the products that the step would lead to. -/
theorem trialProducts_eq : s.trialProducts a = s.sumPairs (SidePair.productAfter a) := by
  rw [trialProducts, trialProductsUpTo_eq, hs.t_lo, sumPairs]

end StageState

namespace Workspace

/-- The workspace after a step of length `a` along its direction. -/
def advanced (w : Workspace K) (a : K) : Workspace K :=
  { w with stages := w.stages.map (StageState.move a) }

variable {w : Workspace K} (hw : Chained w.stages)

include hw

omit [LinearOrder K] [SquareRoot K] in
/-- A sum over stages by a sum over pairs. -/
theorem sum_map_eq_sumPairs {g : StageState K → K} {f : SidePair K → K}
    (h : ∀ (s : StageState K) n, s.Shaped n → g s = s.sumPairs f) :
    (w.stages.map g).sum = w.sumPairs f := by
  refine congrArg List.sum (List.map_congr_left fun s hs => ?_)
  obtain ⟨k, hk⟩ := List.getElem?_of_mem hs
  exact h s _ (hw k s hk)

theorem pairs_mul_duality [CharZero K] :
    (w.pairs : K) * w.duality = w.sumPairs SidePair.product := by
  have hsum := sum_map_eq_sumPairs hw fun _ _ hs => StageState.products_eq_sumPairs hs
  by_cases hpairs : w.pairs = 0
  · have hnone := nc_eq_zero_of_pairs hpairs
    rw [hpairs, Nat.cast_zero, zero_mul, sumPairs_congr (g := fun _ => 0), sumPairs_const,
      mul_zero]
    intro s hs i hi
    rw [hnone s hs] at hi
    exact absurd hi i.not_lt_zero
  · rw [duality_eq hpairs, hsum, mul_div_cancel₀ _ (Nat.cast_ne_zero.2 hpairs)]

omit hw in
theorem pairs_advanced (a : K) : (w.advanced a).pairs = w.pairs := by
  rw [pairs, pairs, advanced, List.map_map]
  rfl

omit hw in
/-- A step leaves both directions alone. -/
theorem sumPairs_secondOrder_advanced (a : K) : (w.advanced a).sumPairs (SidePair.secondOrder a) =
    w.sumPairs (SidePair.secondOrder a) := by
  rw [sumPairs, advanced, List.map_map]
  rfl

theorem chained_advanced (a : K) : Chained (w.advanced a).stages :=
  hw.map _ (fun _ => rfl) fun _ _ hs => hs.move a

theorem pairs_mul_duality_move [CharZero K] (a : K) :
    (w.pairs : K) * (w.advanced a).duality = w.sumPairs (SidePair.productAfter a) := by
  rw [← pairs_advanced a, pairs_mul_duality (chained_advanced hw a),
    ← sum_map_eq_sumPairs (chained_advanced hw a) fun _ _ hs => StageState.products_eq_sumPairs hs,
    advanced, List.map_map]
  exact sum_map_eq_sumPairs hw fun _ _ hs => StageState.products_move hs a

/-- The trial of a step measures the workspace that the step would lead to. -/
theorem trialDuality_eq [CharZero K] (hpairs : w.pairs ≠ 0) (a : K) :
    w.trialDuality a = (w.advanced a).duality := by
  have htrial : (w.stages.map fun s => s.trialProducts a).sum =
      w.sumPairs (SidePair.productAfter a) :=
    sum_map_eq_sumPairs hw fun _ _ hs => StageState.trialProducts_eq hs a
  rw [trialDuality, foldl_add_eq_sum, zero_add, Scalar.ofNat_exact, htrial,
    ← pairs_mul_duality_move hw a, mul_div_cancel_left₀ _ (Nat.cast_ne_zero.2 hpairs)]

end Workspace

end Measure

/-! ## Both directions -/

section Phases

variable {α : Type} [Scalar α]

omit [Scalar α] in
/-- Aiming changes neither core nor factors. -/
theorem map_ground_of_sought {l l₀ : List (StageState α)} {f : StageState α → StageState α}
    (h : l.map StageState.sought = (l₀.map f).map StageState.sought)
    (hf : ∀ s, (f s).ground = s.ground) :
    l.map StageState.ground = l₀.map StageState.ground := by
  refine (map_map_eq (f := StageState.sought) (g := fun q => q.1.1) h).trans ?_
  rw [List.map_map]
  exact List.map_congr_left fun s _ => hf s

namespace Workspace

variable {w : Workspace α}

/-- The frame of the predictor, whatever the ends of the chain are. -/
theorem predictor_sought (w : Workspace α) : w.predictor.stages.map StageState.sought =
    (w.sweep.stages.map StageState.aimAtZero).map StageState.sought :=
  newtonDirection_sought _

/-- The frame of the corrector. It keeps the predictor. -/
theorem corrector_sought (w : Workspace α) (target : α) :
    (w.corrector target).stages.map StageState.sought =
      (w.predictor.stages.map (StageState.aimAtTarget target)).map StageState.sought :=
  newtonDirection_sought _

theorem chained_predictor (hw : Chained w.stages) : Chained w.predictor.stages := by
  have hcondensed : Chained (w.stages.map StageState.condenseHessian) :=
    hw.map _ (fun _ => rfl) fun _ _ => StageState.Shaped.condenseHessian
  have hsweep : Chained w.sweep.stages := Riccati.factorize_chained hcondensed
  exact hsweep.of_ground (map_ground_of_sought w.predictor_sought fun _ => rfl)

theorem chained_corrector (hw : Chained w.stages) (target : α) :
    Chained (w.corrector target).stages :=
  (chained_predictor hw).of_ground (map_ground_of_sought (w.corrector_sought target) fun _ => rfl)

/-- Neither direction changes sizes, data or point. -/
theorem predictor_base (w : Workspace α) :
    w.predictor.stages.map StageState.base = w.stages.map StageState.base := by
  have hground := map_ground_of_sought w.predictor_sought fun _ => rfl
  exact map_base_of_core ((map_core_of_ground hground).trans w.sweep_core)

theorem corrector_base (w : Workspace α) (target : α) :
    (w.corrector target).stages.map StageState.base = w.stages.map StageState.base := by
  have hground := map_ground_of_sought (w.corrector_sought target) fun _ => rfl
  exact (map_base_of_core (map_core_of_ground hground)).trans w.predictor_base

/-- Beside the corrector stands the predictor that the step found before. -/
theorem corrector_affine (w : Workspace α) (target : α) :
    (w.corrector target).stages.map (fun s => (s.affineT, s.affineLam)) =
      w.predictor.stages.map fun s => (s.direction.dt, s.direction.dlam) := by
  have hkept := map_map_eq (f := StageState.sought) (g := Prod.snd) (w.corrector_sought target)
  rw [List.map_map] at hkept
  exact hkept

end Workspace

end Phases

section Rows

variable [LinearOrder K] [SquareRoot K]

namespace StageState

variable {s p : StageState K} {n : Nat} (hs : s.Shaped n)
  (hslack : ∀ i < s.nc, s.point.t.lo.get i ≠ 0 ∧ s.point.t.up.get i ≠ 0)
  (hdt : s.direction.dt = s.expand.direction.dt)
  (hdlam : s.direction.dlam = s.expand.direction.dlam)

include hs hslack hdt hdlam

/-- A direction to the products as they are aims at zero products. -/
theorem allPairs_affine (hcomp : s.residual.comp = s.aimAtZero.residual.comp) :
    s.AllPairs SidePair.Affine := by
  have hshaped := Workspace.compShaped_of_aimAtZero hs hcomp
  intro i hi
  obtain ⟨htLo, htUp⟩ := hslack i hi
  have hlo := productLowerRow hs hdt hshaped hdlam hi htLo
  have hup := productUpperRow hs hdt hshaped hdlam hi htUp
  have hcompLo : s.residual.comp.lo.get i = s.point.lam.lo.get i * s.point.t.lo.get i := by
    rw [hcomp]
    exact Vec.get_zipWith _ _ _ (hs.lam_lo.symm ▸ hi)
  have hcompUp : s.residual.comp.up.get i = s.point.lam.up.get i * s.point.t.up.get i := by
    rw [hcomp]
    exact Vec.get_zipWith _ _ _ (hs.lam_up.symm ▸ hi)
  constructor
  · exact SidePair.affine_of_row (p := s.lowerPair i) hlo hcompLo
  · exact SidePair.affine_of_row (p := s.upperPair i) hup hcompUp

/-- A direction to the target aims at it, less the second-order error of the predictor `p`. -/
theorem allPairs_centered (hp : p.Shaped n) {target : K} (hcore : s.core = p.core)
    (hcomp : s.residual.comp = (p.aimAtTarget target).residual.comp)
    (hkept : (s.affineT, s.affineLam) = (p.direction.dt, p.direction.dlam)) :
    s.AllPairs (SidePair.Centered target) := by
  have hshaped := Workspace.compShaped_of_aimAtTarget hp hcore hcomp
  have hpoint : s.point = p.point := congrArg StageCore.point hcore
  have hnc : s.nc = p.nc := congrArg (fun c => c.data.bound.lo.size) hcore
  obtain ⟨hkeptT, hkeptLam⟩ := Prod.mk.inj hkept
  intro i hi
  obtain ⟨htLo, htUp⟩ := hslack i hi
  have hlo := productLowerRow hs hdt hshaped hdlam hi htLo
  have hup := productUpperRow hs hdt hshaped hdlam hi htUp
  have hcompLo : s.residual.comp.lo.get i = s.point.lam.lo.get i * s.point.t.lo.get i +
      s.affineLam.lo.get i * s.affineT.lo.get i - target := by
    rw [hcomp, hkeptT, hkeptLam, hpoint]
    exact Vec.get_ofFn_of_lt _ (by rw [hp.lam_lo, ← hnc]; exact hi)
  have hcompUp : s.residual.comp.up.get i = s.point.lam.up.get i * s.point.t.up.get i +
      s.affineLam.up.get i * s.affineT.up.get i - target := by
    rw [hcomp, hkeptT, hkeptLam, hpoint]
    exact Vec.get_ofFn_of_lt _ (by rw [hp.lam_up, ← hnc]; exact hi)
  constructor
  · exact SidePair.centered_of_row (p := s.lowerPair i) hlo hcompLo
  · exact SidePair.centered_of_row (p := s.upperPair i) hup hcompUp

end StageState

namespace Workspace

variable {w : Workspace K} (hw : Chained w.stages)
  (hslack : ∀ s ∈ w.stages, ∀ i < s.nc, s.point.t.lo.get i ≠ 0 ∧ s.point.t.up.get i ≠ 0)

omit [LinearOrder K] [SquareRoot K] in
/-- Zero slacks are a matter of data and point. -/
theorem slacks_of_base {l l' : List (StageState K)}
    (h : l'.map StageState.base = l.map StageState.base)
    (hl : ∀ s ∈ l, ∀ i < s.nc, s.point.t.lo.get i ≠ 0 ∧ s.point.t.up.get i ≠ 0) :
    ∀ s ∈ l', ∀ i < s.nc, s.point.t.lo.get i ≠ 0 ∧ s.point.t.up.get i ≠ 0 := by
  refine forall_mem_of_map_eq h (fun s s' heq hs => ?_) hl
  rw [StageState.nc, show s'.data = s.data from congrArg (fun b => b.2.1) heq,
    show s'.point = s.point from congrArg (fun b => b.2.2) heq]
  exact hs

include hw hslack

/-- The predictor aims at zero products. -/
theorem predictor_affine : w.predictor.AllPairs SidePair.Affine := by
  intro s hs
  obtain ⟨k, hk⟩ := List.getElem?_of_mem hs
  obtain ⟨hdt, hdlam⟩ := expanded_newtonDirection hs
  have haimed := map_map_eq (f := StageState.sought) (g := Prod.fst) w.predictor_sought
  exact StageState.allPairs_affine (chained_predictor hw k s hk)
    (slacks_of_base w.predictor_base hslack s hs) hdt hdlam (comp_of_aimAtZero haimed hk)

/-- The corrector aims at the target, less the second-order error of the predictor. -/
theorem corrector_centered (target : K) :
    (w.corrector target).AllPairs (SidePair.Centered target) := by
  intro s hs
  obtain ⟨k, hk⟩ := List.getElem?_of_mem hs
  obtain ⟨hdt, hdlam⟩ := expanded_newtonDirection hs
  have haimed := map_map_eq (f := StageState.sought) (g := Prod.fst) (w.corrector_sought target)
  obtain ⟨p, hp, hcore, hcomp⟩ := comp_of_aimAtTarget haimed hk
  have hshape : s.Shaped (nextNx w.predictor.stages k) := by
    rw [← nextNx_of_map_eq (map_map_eq (g := fun b => b.1.1)
      ((w.corrector_base target).trans w.predictor_base.symm))]
    exact chained_corrector hw target k s hk
  have hkept : (s.affineT, s.affineLam) = (p.direction.dt, p.direction.dlam) := by
    have hmaps := congrArg (fun l => l[k]?) (w.corrector_affine target)
    simp only [List.getElem?_map, hk, hp, Option.map_some, Option.some.injEq] at hmaps
    exact hmaps
  exact StageState.allPairs_centered hshape
    (slacks_of_base (w.corrector_base target) hslack s hs) hdt hdlam
    (chained_predictor hw k p hp) hcore hcomp hkept

end Workspace

end Rows

end StagedQP
