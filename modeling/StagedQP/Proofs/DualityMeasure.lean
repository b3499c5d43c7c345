import StagedQP.Proofs.NewtonDirection
import StagedQP.Proofs.StepProducts

/-!
# The duality measure along a step

Pair by pair, the complementarity equations of the two directions say what a step of length `a`
makes of the product of a slack and a multiplier:

```text
predictor   (1 - a) lam t            + a² dlam dt
corrector   (1 - a) lam t + a target + a² dlam dt - a dlam_aff dt_aff
```

Summed over all pairs, the second line is an exact recurrence for the duality measure. In the first
line the two summands `lam dt` and `t dlam` of the equation add up to `-lam t`, so their product,
which is `lam t` times `dlam dt`, is at most a quarter of its square. Where slacks and multipliers
are positive, the predictor therefore leads to no more than `(1 - a / 2)²` of the duality measure,
and the cube of that ratio is below one: the bound from above on the centering never matters.

## Main results

* `duality_recurrence` — the duality measure after a step.
* `predictor_reduces_duality` — predictor and centering, for a step and along a run.
-/

namespace StagedQP

open Finset

/-! ## One pair -/

namespace SidePair

variable {K : Type} [Field K] {p : SidePair K}

theorem Affine.productAfter_eq (h : p.Affine) (a : K) :
    p.productAfter a = (1 - a) * p.product + a ^ 2 * (p.dlam * p.dt) := by
  rw [Affine] at h
  rw [productAfter, product]
  linear_combination a * h

theorem Centered.productAfter_eq {target : K} (h : p.Centered target) (a : K) :
    p.productAfter a = (1 - a) * p.product + (a * target + p.secondOrder a) := by
  rw [Centered] at h
  rw [productAfter, product, secondOrder]
  linear_combination a * h

variable [LinearOrder K]

/-- Slack and multiplier are positive. -/
structure Positive (p : SidePair K) : Prop where
  lam : 0 < p.lam
  t : 0 < p.t

/-- Slack and multiplier are nonnegative after a step of length `a`. -/
structure Admits (a : K) (p : SidePair K) : Prop where
  lam : 0 ≤ p.lam + a * p.dlam
  t : 0 ≤ p.t + a * p.dt

variable [IsStrictOrderedRing K]

/-- The second-order term of the predictor is at most a quarter of the product. -/
theorem Affine.second_le (h : p.Affine) (hp : p.Positive) : 4 * (p.dlam * p.dt) ≤ p.product := by
  have hpos : 0 < p.product := mul_pos hp.lam hp.t
  -- the summands of the equation have a given sum, and their product is largest where they agree
  have hsquare : 4 * ((p.lam * p.dt) * (p.t * p.dlam)) ≤ p.product ^ 2 := by
    have hsum : p.lam * p.dt + p.t * p.dlam = -p.product := by
      rw [add_comm]
      exact h
    calc 4 * ((p.lam * p.dt) * (p.t * p.dlam))
        = (p.lam * p.dt + p.t * p.dlam) ^ 2 - (p.lam * p.dt - p.t * p.dlam) ^ 2 := by ring
      _ ≤ (p.lam * p.dt + p.t * p.dlam) ^ 2 := sub_le_self _ (sq_nonneg _)
      _ = p.product ^ 2 := by rw [hsum, neg_sq]
  refine le_of_mul_le_mul_left ?_ hpos
  calc p.product * (4 * (p.dlam * p.dt)) = 4 * ((p.lam * p.dt) * (p.t * p.dlam)) := by
        rw [product]
        ring
    _ ≤ p.product ^ 2 := hsquare
    _ = p.product * p.product := sq _

/-- A step of length `a` along the predictor leaves at most `(1 - a / 2)²` of the product. -/
theorem Affine.productAfter_le (h : p.Affine) (hp : p.Positive) (a : K) :
    p.productAfter a ≤ (1 - a / 2) ^ 2 * p.product := by
  have hsecond : a ^ 2 * (4 * (p.dlam * p.dt)) ≤ a ^ 2 * p.product :=
    mul_le_mul_of_nonneg_left (h.second_le hp) (sq_nonneg a)
  rw [h.productAfter_eq]
  linarith

theorem Admits.productAfter_nonneg {a : K} (h : p.Admits a) : 0 ≤ p.productAfter a :=
  mul_nonneg h.lam h.t

end SidePair

variable {K : Type} [Field K] [LinearOrder K] [SquareRoot K] [IsStrictOrderedRing K]

/-! ## The corrector -/

section Corrector

variable {w : Workspace K} (hw : Chained w.stages)
  (hslack : ∀ s ∈ w.stages, ∀ i < s.nc, s.point.t.lo.get i ≠ 0 ∧ s.point.t.up.get i ≠ 0)

include hw

/-- Neither direction changes the products of the point. -/
theorem Workspace.sumPairs_product_corrector (target : K) :
    (w.corrector target).sumPairs SidePair.product = (w.stages.map StageState.products).sum := by
  obtain ⟨hpairs, hduality⟩ := duality_of_base (w.corrector_base target)
  calc (w.corrector target).sumPairs SidePair.product
      = (w.pairs : K) * w.duality := by
        rw [← pairs_mul_duality (chained_corrector hw target), hpairs, hduality]
    _ = w.sumPairs SidePair.product := pairs_mul_duality hw
    _ = (w.stages.map StageState.products).sum :=
        (sum_map_eq_sumPairs hw fun _ _ hs => StageState.products_eq_sumPairs hs).symm

include hslack

/-- The products after a step of length `a` along the corrector for products `target`. -/
theorem Workspace.pairs_mul_duality_corrector (target a : K) :
    (w.pairs : K) * ((w.corrector target).advanced a).duality =
      (1 - a) * (w.stages.map StageState.products).sum + ((w.pairs : K) * (a * target) +
        (w.corrector target).sumPairs (SidePair.secondOrder a)) := by
  have hcentered : (w.corrector target).AllPairs (SidePair.Centered target) :=
    corrector_centered hw hslack target
  have hpairs : (w.corrector target).pairs = w.pairs :=
    (duality_of_base (w.corrector_base target)).1
  rw [← hpairs, pairs_mul_duality_move (chained_corrector hw target), ← sumPairs_const,
    ← sumPairs_product_corrector hw target, ← sumPairs_mul_left, ← sumPairs_add, ← sumPairs_add]
  exact sumPairs_congr fun s hs => (hcentered s hs).mono fun p hp => hp.productAfter_eq a

end Corrector

/-- **Recurrence of the duality measure.** Whatever the residuals of the point are, whatever shifts
the factorization used and whatever duality measure the step was told, the step moves along the
corrector for products `sigma mu`, beside which the predictor of the same step is kept, and the sum
of the products after it is exactly

```text
(1 - alpha) Σ lam t + alpha sigma mu count + Σ (alpha² dlam dt - alpha dlam_aff dt_aff)
```

No slack may be zero. The measure reported is that of the point reached. -/
theorem duality_recurrence {w : Workspace K} (hw : Chained w.stages)
    (hslack : ∀ s ∈ w.stages, ∀ i < s.nc, s.point.t.lo.get i ≠ 0 ∧ s.point.t.up.get i ≠ 0)
    {mu sigmaMin : K} {stats : StepStats K} (hok : (w.step mu sigmaMin).outcome = .ok stats) :
    (w.step mu sigmaMin).workspace.stages =
        (w.corrector (stats.sigma * mu)).stages.map (StageState.move stats.alpha) ∧
      (w.step mu sigmaMin).workspace.stages.map (fun s => (s.affineT, s.affineLam)) =
        w.predictor.stages.map (fun s => (s.direction.dt, s.direction.dlam)) ∧
      (w.pairs : K) * stats.mu =
        (1 - stats.alpha) * (w.stages.map StageState.products).sum
          + stats.alpha * stats.sigma * mu * (w.pairs : K)
          + (w.step mu sigmaMin).workspace.sumPairs (SidePair.secondOrder stats.alpha) ∧
      stats.mu = (w.step mu sigmaMin).workspace.duality := by
  obtain ⟨_, hworkspace, _, rfl⟩ := Workspace.of_step_ok hok
  have hmoved : w.moved mu sigmaMin = (w.corrector ((w.record mu sigmaMin).sigma * mu)).advanced
      (w.record mu sigmaMin).alpha := rfl
  have hsum := Workspace.pairs_mul_duality_corrector hw hslack ((w.record mu sigmaMin).sigma * mu)
    (w.record mu sigmaMin).alpha
  rw [hworkspace, w.record_mu, hmoved]
  refine ⟨rfl, ?_, ?_, rfl⟩
  · rw [Workspace.advanced, List.map_map]
    exact w.corrector_affine _
  · rw [hsum, Workspace.sumPairs_secondOrder_advanced]
    ring

/-- A solve of the unit step makes a step, from a point in the interior with two pairs. -/
theorem Horizon.exists_attempt_unitStep : ∃ (w : Workspace ℝ) (stats : StepStats ℝ), w.InUse ∧
    unitStep.Solvable .standard (Trajectory.zeros unitStep.sizes) w ∧
    ((RunState.initial unitStep .standard (Trajectory.zeros unitStep.sizes) w).attempt
      .standard).outcome = .ok stats ∧
    HorizonShaped (RunState.initial unitStep .standard (Trajectory.zeros unitStep.sizes)
      w).workspace.residuals.stages ∧
    (∀ s ∈ (RunState.initial unitStep .standard (Trajectory.zeros unitStep.sizes)
      w).workspace.residuals.stages, s.Interior) ∧
    (RunState.initial unitStep .standard (Trajectory.zeros unitStep.sizes)
      w).workspace.residuals.pairs = 2 := by
  obtain ⟨w, _, hw, hs⟩ := unitStep.exists_solvable_standard
  refine ⟨w, _, hw, hs, (attempt_unitStep hs hw.allocated).2,
    Workspace.horizonShaped_residuals (horizonShaped_initial hs hw.allocated),
    (interior_initial hs hw.allocated).residuals, ?_⟩
  rw [Workspace.pairs_of_fixed ((map_fixed_of_base (Workspace.residuals_base _)).trans
    (initial_fixed hs hw.allocated)), rowCount_unitStep]

/-- For instance in the first step on the unit step. -/
theorem duality_recurrence_unitStep : ∃ (w : Workspace ℝ) (mu sigmaMin : ℝ) (stats : StepStats ℝ),
    Chained w.stages ∧ w.pairs ≠ 0 ∧
    (∀ s ∈ w.stages, ∀ i < s.nc, s.point.t.lo.get i ≠ 0 ∧ s.point.t.up.get i ≠ 0) ∧
    (w.step mu sigmaMin).outcome = .ok stats ∧
    (w.pairs : ℝ) * stats.mu =
      (1 - stats.alpha) * (w.stages.map StageState.products).sum
        + stats.alpha * stats.sigma * mu * (w.pairs : ℝ)
        + (w.step mu sigmaMin).workspace.sumPairs (SidePair.secondOrder stats.alpha) := by
  obtain ⟨w, stats, _, _, hok, hl, hint, hpairs⟩ := Horizon.exists_attempt_unitStep
  have hslack := slacks_of_interior hl hint
  refine ⟨_, _, _, stats, hl.chained, ?_, hslack, hok,
    (duality_recurrence hl.chained hslack hok).2.2.1⟩
  rw [hpairs]
  exact two_ne_zero

/-! ## The predictor -/

section Predictor

variable {w : Workspace K} (hw : Chained w.stages) (hint : ∀ s ∈ w.stages, s.Interior)

include hw hint

omit [SquareRoot K] [IsStrictOrderedRing K] in
/-- In the interior all pairs are positive. -/
theorem Workspace.allPairs_positive : w.AllPairs SidePair.Positive := by
  intro s hs i hi
  obtain ⟨k, hk⟩ := List.getElem?_of_mem hs
  have hshape := hw k s hk
  have hinterior := hint s hs
  exact ⟨⟨hinterior.lam_lo i (hshape.lam_lo.symm ▸ hi), hinterior.t_lo i (hshape.t_lo.symm ▸ hi)⟩,
    hinterior.lam_up i (hshape.lam_up.symm ▸ hi), hinterior.t_up i (hshape.t_up.symm ▸ hi)⟩

/-- In the interior the duality measure is positive. -/
theorem Workspace.duality_pos (hpairs : w.pairs ≠ 0) : 0 < w.duality := by
  have hsum : 0 < w.sumPairs SidePair.product :=
    sumPairs_pos (fun s hs => (allPairs_positive hw hint s hs).mono fun p hp =>
      mul_pos hp.lam hp.t) hpairs
  rw [← pairs_mul_duality hw] at hsum
  exact pos_of_mul_pos_right hsum (Nat.cast_nonneg _)

omit hw [IsStrictOrderedRing K] in
/-- The predictor is sought at the same point. -/
theorem Workspace.predictor_interior : ∀ s ∈ w.predictor.stages, s.Interior :=
  forall_mem_of_map_eq w.predictor_base (fun _ _ heq hs => hs.of_base heq) hint

/-- As far as the predictor is followed, no slack and no multiplier becomes negative. -/
theorem Workspace.allPairs_admits :
    w.predictor.AllPairs (SidePair.Admits ((w.predictor.maxStep (some 1)).getD 1)) := by
  have hinterior := predictor_interior hint
  obtain ⟨hpos, _⟩ := predictor_length hinterior
  have hallows : Allows (w.predictor.maxStep (some 1)) ((w.predictor.maxStep (some 1)).getD 1) := by
    intro b hb
    rw [hb, Option.getD_some]
  obtain ⟨_, hadmits⟩ := admits_of_maxStep hinterior hpos.le hallows
  intro s hs i hi
  obtain ⟨k, hk⟩ := List.getElem?_of_mem hs
  have hshape := chained_predictor hw k s hk
  have hs' := hadmits s hs
  exact ⟨⟨hs'.lam_lo i (hshape.lam_lo.symm ▸ hi), hs'.t_lo i (hshape.t_lo.symm ▸ hi)⟩,
    hs'.lam_up i (hshape.lam_up.symm ▸ hi), hs'.t_up i (hshape.t_up.symm ▸ hi)⟩

/-- The predictor leads to at most `(1 - a / 2)²` of the duality measure, however far it is
followed. -/
theorem Workspace.duality_predictor_le (hpairs : w.pairs ≠ 0) (a : K) :
    (w.predictor.advanced a).duality ≤ (1 - a / 2) ^ 2 * w.duality := by
  have hpositive := allPairs_positive hw hint
  have haffine : w.predictor.AllPairs SidePair.Affine :=
    predictor_affine hw fun s hs i hi =>
      ⟨(hpositive s hs i hi).1.t.ne', (hpositive s hs i hi).2.t.ne'⟩
  have hpredictor := allPairs_positive (chained_predictor hw) (predictor_interior hint)
  obtain ⟨hsame, hduality⟩ := duality_of_base w.predictor_base
  have hcount : (0 : K) < (w.pairs : K) := Nat.cast_pos.2 (Nat.pos_of_ne_zero hpairs)
  refine le_of_mul_le_mul_left ?_ hcount
  calc (w.pairs : K) * (w.predictor.advanced a).duality
      = w.predictor.sumPairs (SidePair.productAfter a) := by
        rw [← hsame, pairs_mul_duality_move (chained_predictor hw)]
    _ ≤ w.predictor.sumPairs fun p => (1 - a / 2) ^ 2 * p.product :=
        sumPairs_le fun s hs => ((haffine s hs).and (hpredictor s hs)).mono fun p hp =>
          hp.1.productAfter_le hp.2 a
    _ = (w.pairs : K) * ((1 - a / 2) ^ 2 * w.duality) := by
        rw [sumPairs_mul_left, ← pairs_mul_duality (chained_predictor hw), hsame, hduality,
          mul_left_comm]

omit hint in
/-- It leads to no negative duality measure where it keeps all pairs nonnegative. -/
theorem Workspace.duality_predictor_nonneg (hpairs : w.pairs ≠ 0) {a : K}
    (h : w.predictor.AllPairs (SidePair.Admits a)) : 0 ≤ (w.predictor.advanced a).duality := by
  have hsame := (duality_of_base w.predictor_base).1
  have hcount : (0 : K) < (w.pairs : K) := Nat.cast_pos.2 (Nat.pos_of_ne_zero hpairs)
  refine nonneg_of_mul_nonneg_right ?_ hcount
  rw [← hsame, pairs_mul_duality_move (chained_predictor hw)]
  exact sumPairs_nonneg fun s hs => (h s hs).mono fun p hp => hp.productAfter_nonneg

end Predictor

namespace Workspace

/-- Where the predictor leads to less than the duality measure, the centering is the cube of the
ratio or its least value. -/
theorem centering_of_le {muAff mu b : K} (hmu : 0 < mu) (h : 0 ≤ muAff)
    (hle : muAff ≤ b * mu) (hb : b < 1) (sigmaMin : K) :
    (muAff / mu) ^ 3 ≤ b ^ 3 ∧ (muAff / mu) ^ 3 < 1 ∧
      centering muAff mu sigmaMin = max ((muAff / mu) ^ 3) sigmaMin := by
  have hratio : 0 ≤ muAff / mu := div_nonneg h hmu.le
  have hratio_le : muAff / mu ≤ b := (div_le_iff₀ hmu).2 hle
  have hcube : (muAff / mu) ^ 3 ≤ b ^ 3 := pow_le_pow_left₀ hratio hratio_le 3
  have hlt : (muAff / mu) ^ 3 < 1 :=
    hcube.trans_lt (pow_lt_one₀ (hratio.trans hratio_le) hb (by norm_num))
  refine ⟨hcube, hlt, ?_⟩
  rw [centering, Scalar.max_exact, Scalar.min_exact, ← pow_three', min_eq_left hlt.le]

/-- The record of a step with something to center. -/
theorem record_of_pos {w : Workspace K} (hw : Chained w.stages) (hpairs : w.pairs ≠ 0) {mu : K}
    (hmu : 0 < mu) (sigmaMin : K) :
    (w.record mu sigmaMin).muAff =
        (w.predictor.advanced (w.record mu sigmaMin).alphaAff).duality ∧
      (w.record mu sigmaMin).sigma = centering (w.record mu sigmaMin).muAff mu sigmaMin := by
  have hsame : w.predictor.pairs ≠ 0 := by
    rw [(duality_of_base w.predictor_base).1]
    exact hpairs
  have hcond : (decide (w.predictor.pairs ≠ 0) && Scalar.lt 0 mu) = true := by
    rw [decide_eq_true hsame, (Scalar.lt_iff _ _).2 hmu, Bool.and_self]
  rw [record, predict, if_pos hcond, trialDuality_eq (chained_predictor hw) hsame]
  exact ⟨rfl, rfl⟩

/-- What the record of a step says about the predictor at a point of the interior. -/
structure PredictorReduces (w : Workspace K) (sigmaMin : K) (stats : StepStats K) : Prop where
  /-- The predictor is followed for a positive length. -/
  length_pos : 0 < stats.alphaAff
  /-- It is not followed beyond the full step. -/
  length_le : stats.alphaAff ≤ 1
  /-- The measure of the trial is that of the workspace moved along the predictor. -/
  trial : stats.muAff = (w.predictor.advanced stats.alphaAff).duality
  /-- It is not negative. -/
  trial_nonneg : 0 ≤ stats.muAff
  /-- It is smaller than the duality measure of the point. -/
  trial_le : stats.muAff ≤ (1 - stats.alphaAff / 2) ^ 2 * w.duality
  /-- The centering is at least the configured one. -/
  centering_ge : sigmaMin ≤ stats.sigma
  /-- It is no more than the trial calls for. -/
  centering_le : stats.sigma ≤ max sigmaMin ((1 - stats.alphaAff / 2) ^ 6)
  /-- That is less than one. -/
  bound_lt_one : max sigmaMin ((1 - stats.alphaAff / 2) ^ 6) < 1
  /-- The cube of the ratio of the measures is below one. -/
  cube_lt_one : (stats.muAff / w.duality) ^ 3 < 1
  /-- So the bound of one on it makes no difference. -/
  unclamped : stats.sigma = max ((stats.muAff / w.duality) ^ 3) sigmaMin

theorem predictorReduces {w : Workspace K} (hw : Chained w.stages)
    (hint : ∀ s ∈ w.stages, s.Interior) (hpairs : w.pairs ≠ 0) {sigmaMin : K}
    (hmin : sigmaMin < 1) {stats : StepStats K}
    (hok : (w.step w.duality sigmaMin).outcome = .ok stats) :
    w.PredictorReduces sigmaMin stats := by
  obtain ⟨_, _, _, rfl⟩ := of_step_ok hok
  have hmu := duality_pos hw hint hpairs
  obtain ⟨htrial, hsigma⟩ := record_of_pos hw hpairs hmu sigmaMin
  obtain ⟨hpos, hle⟩ := predictor_length (predictor_interior hint)
  have hadmits := allPairs_admits hw hint
  rw [← record_alphaAff w w.duality sigmaMin] at hpos hle hadmits
  -- from here on the step matters through its record alone
  generalize w.record w.duality sigmaMin = stats at *
  have hnonneg : 0 ≤ stats.muAff := htrial ▸ duality_predictor_nonneg hw hpairs hadmits
  have hreduced : stats.muAff ≤ (1 - stats.alphaAff / 2) ^ 2 * w.duality :=
    htrial ▸ duality_predictor_le hw hint hpairs stats.alphaAff
  have hhalf : 0 ≤ 1 - stats.alphaAff / 2 := by linarith
  have hless : 1 - stats.alphaAff / 2 < 1 := by linarith
  obtain ⟨hcube, hlt, hcentering⟩ :=
    centering_of_le hmu hnonneg hreduced (pow_lt_one₀ hhalf hless two_ne_zero) sigmaMin
  rw [hcentering] at hsigma
  rw [← pow_mul] at hcube
  refine ⟨hpos, hle, htrial, hnonneg, hreduced, ?_, ?_, ?_, hlt, hsigma⟩
  · rw [hsigma]
    exact le_max_right _ _
  · rw [hsigma, max_comm]
    exact max_le_max_left _ hcube
  · exact max_lt hmin (pow_lt_one₀ hhalf hless (by norm_num))

end Workspace

omit [IsStrictOrderedRing K] in
/-- A configuration in range keeps the least centering below one. -/
theorem SolverConfig.sigmaMin_lt_one {config : SolverConfig K} (h : config.check = .ok ()) :
    config.sigmaMin < 1 := by
  obtain ⟨_, _, _, _, hsigma⟩ := config.check_eq_ok_iff.1 h
  rw [sigmaMinOk, Bool.and_eq_true, Scalar.lt_iff] at hsigma
  exact hsigma.2

/-- **The predictor always reduces the duality measure.** Take a point in the interior with at least
one inequality row, whatever its residuals and data are, and say the step from it is made. Then the
measure `mu_aff` of the trial is that of the workspace moved along the predictor by the recorded
length `a`, and

```text
0 ≤ mu_aff ≤ (1 - a / 2)² mu        sigma_min ≤ sigma ≤ max sigma_min (1 - a / 2)⁶ < 1
```

so that the bound of one on the cube of `mu_aff / mu` makes no difference. Along a run this is so at
every loop head from which a step is made; without inequality rows nothing is centered there. -/
theorem predictor_reduces_duality :
    (∀ (w : Workspace K) (sigmaMin : K) (stats : StepStats K), Chained w.stages →
      (∀ s ∈ w.stages, s.Interior) → w.pairs ≠ 0 → sigmaMin < 1 →
      (w.step w.duality sigmaMin).outcome = .ok stats → w.PredictorReduces sigmaMin stats) ∧
    ∀ (h : Horizon K) (config : SolverConfig K) (t : Trajectory K) (w : Workspace K),
      h.Solvable config t w → w.InUse →
      ∀ r, RunState.Visits config (RunState.initial h config t w) r →
      ∀ stats, (r.attempt config).outcome = .ok stats →
        (h.rowCount ≠ 0 → r.mu = r.workspace.residuals.duality ∧
          r.workspace.residuals.PredictorReduces config.sigmaMin stats) ∧
        (h.rowCount = 0 → stats.sigma = 0) := by
  constructor
  · intro w sigmaMin stats hw hint hpairs hmin hok
    exact Workspace.predictorReduces hw hint hpairs hmin hok
  · intro h config t w hs hw r hr stats hok
    obtain ⟨hshaped, hfixed⟩ := hs.visited hw.allocated hr
    have hinterior := hr.interior hs hw.allocated
    have hchained := (Workspace.horizonShaped_residuals hshaped).chained
    obtain ⟨hpairs, hduality⟩ := Workspace.duality_of_base (Workspace.residuals_base r.workspace)
    have hcount := Workspace.pairs_of_fixed hfixed
    constructor
    · intro hrows
      have hmu : r.mu = r.workspace.residuals.duality := hinterior.mu.trans hduality.symm
      refine ⟨hmu, ?_⟩
      rw [RunState.attempt, hmu] at hok
      exact Workspace.predictorReduces hchained hinterior.residuals (by omega)
        (SolverConfig.sigmaMin_lt_one hs.valid) hok
    · intro hrows
      have hnone : r.workspace.residuals.predictor.pairs = 0 := by
        rw [(Workspace.duality_of_base (Workspace.predictor_base _)).1]
        omega
      obtain ⟨_, _, _, rfl⟩ := Workspace.of_step_ok hok
      rw [Workspace.record, Workspace.predict, hnone]
      rfl

/-- For instance in the first step on the unit step. -/
theorem predictor_reduces_duality_unitStep : ∃ (w : Workspace ℝ) (r : RunState ℝ)
    (stats : StepStats ℝ), w.InUse ∧
    Horizon.unitStep.Solvable .standard (Trajectory.zeros Horizon.unitStep.sizes) w ∧
    RunState.Visits .standard (RunState.initial Horizon.unitStep .standard
      (Trajectory.zeros Horizon.unitStep.sizes) w) r ∧
    (r.attempt .standard).outcome = .ok stats ∧ Chained r.workspace.residuals.stages ∧
    (∀ s ∈ r.workspace.residuals.stages, s.Interior) ∧ r.workspace.residuals.pairs ≠ 0 ∧
    r.workspace.residuals.PredictorReduces SolverConfig.standard.sigmaMin stats := by
  obtain ⟨w, stats, hw, hs, hok, hl, hint, hpairs⟩ := Horizon.exists_attempt_unitStep
  have hrows : Horizon.unitStep.rowCount ≠ 0 := by
    rw [Horizon.rowCount_unitStep]
    exact one_ne_zero
  have hne : (RunState.initial Horizon.unitStep .standard
      (Trajectory.zeros Horizon.unitStep.sizes) w).workspace.residuals.pairs ≠ 0 := by
    rw [hpairs]
    exact two_ne_zero
  obtain ⟨hstep, hrun⟩ := predictor_reduces_duality (K := ℝ)
  have hmu := ((hrun _ _ _ _ hs hw _ .start _ hok).1 hrows).1
  refine ⟨w, _, stats, hw, hs, .start, hok, hl.chained, hint, hne, ?_⟩
  rw [RunState.attempt, hmu] at hok
  exact hstep _ _ _ hl.chained hint hne
    (SolverConfig.sigmaMin_lt_one SolverConfig.check_standard) hok

end StagedQP
