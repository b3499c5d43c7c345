import Mathlib.Algebra.Order.BigOperators.Group.List
import StagedQP.Proofs.OneStepHorizon
import StagedQP.Proofs.StepLength

/-!
# Iterates stay in the interior

Slacks and multipliers are positive at the start, and no step takes more than a fixed fraction of
the way to the boundary, so they are positive at every iterate: nothing is ever divided by a zero
slack. The same fraction bounds how fast the duality measure can fall. A run therefore cannot
report success earlier than the initial barrier and the tolerance allow.

None of this depends on what the direction is. It holds for regularized and indefinite systems and
for starting points that violate every constraint.

## Main results

* `StageState.interior_start` — the start is in the interior.
* `Workspace.interior_moved`, `Workspace.duality_moved` — a step stays there, and the duality
  measure keeps 1/40000 of itself.
* `interior_along_run` — what this means for a run.
-/

namespace StagedQP

open Finset

variable {K : Type} [Field K] [LinearOrder K] [SquareRoot K]

/-! ## The duality measure -/

omit [LinearOrder K] [SquareRoot K] in
theorem foldl_add_eq_sum {β : Type} (f : β → K) (l : List β) :
    ∀ a, l.foldl (fun acc b => acc + f b) a = a + (l.map f).sum := by
  induction l with
  | nil =>
      intro a
      rw [List.foldl_nil, List.map_nil, List.sum_nil, add_zero]
  | cons b l ih =>
      intro a
      rw [List.foldl_cons, ih, List.map_cons, List.sum_cons, add_assoc]

theorem Workspace.duality_eq {w : Workspace K} (h : w.pairs ≠ 0) :
    w.duality = (w.stages.map StageState.products).sum / (w.pairs : K) := by
  rw [duality, if_neg h, foldl_add_eq_sum, zero_add, Scalar.ofNat_exact]

namespace StageState

theorem products_eq (s : StageState K) : s.products =
    ∑ i ∈ range s.point.lam.lo.size, s.point.lam.lo.get i * s.point.t.lo.get i +
      ∑ i ∈ range s.point.lam.up.size, s.point.lam.up.get i * s.point.t.up.get i := by
  rw [products, Vec.dot_eq_sum, Vec.dot_eq_sum]

omit [SquareRoot K] in
theorem Interior.of_base {s s' : StageState K} (h : s'.base = s.base) (hs : s.Interior) :
    s'.Interior := by
  have hpoint : s'.point = s.point := congrArg (fun b => b.2.2) h
  exact ⟨hpoint ▸ hs.t_lo, hpoint ▸ hs.t_up, hpoint ▸ hs.lam_lo, hpoint ▸ hs.lam_up⟩

variable [IsStrictOrderedRing K]

/-- Products keep 1/40000 of themselves where slacks and multipliers keep 1/200. -/
theorem Retains.products {s : StageState K} {n : Nat} {a : K} (hs : s.Interior)
    (hshape : s.Shaped n) (h : s.Retains (s.move a)) :
    s.products / 40000 ≤ (s.move a).products := by
  have hproduct : ∀ {x y x' y' : K}, 0 < x → 0 < y → x / 200 ≤ x' → y / 200 ≤ y' →
      x * y / 40000 ≤ x' * y' := by
    intro x y x' y' hx hy hx' hy'
    calc x * y / 40000 = x / 200 * (y / 200) := by ring
      _ ≤ x' * y' := mul_le_mul hx' hy' (by linarith) (by linarith)
  have hmove := hshape.move a
  have hnc : (s.move a).nc = s.nc := rfl
  rw [products_eq, products_eq, hshape.lam_lo, hshape.lam_up, hmove.lam_lo, hmove.lam_up, hnc,
    add_div, sum_div, sum_div]
  refine add_le_add (sum_le_sum fun i hi => ?_) (sum_le_sum fun i hi => ?_)
  · have hi' := mem_range.1 hi
    exact hproduct (hs.lam_lo i (hshape.lam_lo.symm ▸ hi')) (hs.t_lo i (hshape.t_lo.symm ▸ hi'))
      (h.lam_lo i (hshape.lam_lo.symm ▸ hi')) (h.t_lo i (hshape.t_lo.symm ▸ hi'))
  · have hi' := mem_range.1 hi
    exact hproduct (hs.lam_up i (hshape.lam_up.symm ▸ hi')) (hs.t_up i (hshape.t_up.symm ▸ hi'))
      (h.lam_up i (hshape.lam_up.symm ▸ hi')) (h.t_up i (hshape.t_up.symm ▸ hi'))

/-! ## The start -/

omit [IsStrictOrderedRing K] in
theorem leastSlack_exact : (leastSlack : K) = 1 / 10 := by
  have hslack : (leastSlack : K) = (1 : ℕ) / 10 ^ 1 := rfl
  rw [hslack, Nat.cast_one, pow_one]

theorem leastSlack_pos : (0 : K) < leastSlack := by
  rw [leastSlack_exact]
  positivity

omit [IsStrictOrderedRing K] in
/-- A slack starts as the distance to its bound, or as the least slack if that is larger. -/
theorem get_start_t {mu0 : K} {s : StageState K} {n : Nat} (hs : (s.start mu0).Shaped n) {i : Nat}
    (hi : i < s.nc) :
    (s.start mu0).point.t.lo.get i =
        max (rowSum s.data.jac.get (s.nu + s.nx) s.point.v.get i - s.data.bound.lo.get i)
          leastSlack ∧
      (s.start mu0).point.t.up.get i =
        max (s.data.bound.up.get i - rowSum s.data.jac.get (s.nu + s.nx) s.point.v.get i)
          leastSlack := by
  have hrow : i < s.data.jac.rows := hi.trans_eq hs.jac_rows.symm
  have hcols : s.data.jac.cols = s.nu + s.nx := hs.jac_cols
  have hup : i < s.data.bound.up.size := hi.trans_eq hs.bound_up.symm
  have hroom : ∀ {v : Vec K}, i < v.size →
      (v.map fun a => Scalar.max a leastSlack).get i = max (v.get i) leastSlack := by
    intro v hv
    rw [Vec.get_map _ _ hv, Scalar.max_exact]
  have hsize : i < (s.data.jac.mulVec s.point.v).size := by
    rw [Mat.size_mulVec]
    exact hrow
  rw [← hcols, ← Mat.get_mulVec_eq _ _ hrow, ← Vec.get_sub _ _ hsize, ← Vec.get_sub _ _ hup]
  exact ⟨hroom (by rwa [Vec.size_sub]), hroom (by rwa [Vec.size_sub])⟩

omit [IsStrictOrderedRing K] in
/-- Slacks start at no less than the least slack. -/
theorem leastSlack_le_start (mu0 : K) (s : StageState K) :
    (∀ i < (s.start mu0).point.t.lo.size, leastSlack ≤ (s.start mu0).point.t.lo.get i) ∧
      ∀ i < (s.start mu0).point.t.up.size, leastSlack ≤ (s.start mu0).point.t.up.get i := by
  have hroom : ∀ (v : Vec K) i, i < (v.map fun a => Scalar.max a leastSlack).size →
      leastSlack ≤ (v.map fun a => Scalar.max a leastSlack).get i := by
    intro v i hi
    rw [Vec.size_map] at hi
    rw [Vec.get_map _ _ hi, Scalar.max_exact]
    exact le_max_right _ _
  exact ⟨fun i hi => hroom _ i hi, fun i hi => hroom _ i hi⟩

/-- The start is in the interior. -/
theorem interior_start {mu0 : K} (hmu : 0 < mu0) (s : StageState K) : (s.start mu0).Interior := by
  obtain ⟨hlo, hup⟩ := leastSlack_le_start mu0 s
  have htlo : (s.start mu0).point.t.lo.Positive := fun i hi => leastSlack_pos.trans_le (hlo i hi)
  have htup : (s.start mu0).point.t.up.Positive := fun i hi => leastSlack_pos.trans_le (hup i hi)
  have hlam : ∀ {v : Vec K}, v.Positive → (v.map fun a => mu0 / a).Positive := by
    intro v hv i hi
    rw [Vec.size_map] at hi
    rw [Vec.get_map _ _ hi]
    exact div_pos hmu (hv i hi)
  exact ⟨htlo, htup, hlam htlo, hlam htup⟩

/-- Every product starts at the initial barrier. -/
theorem products_start {mu0 : K} (s : StageState K) {n : Nat} (hshape : (s.start mu0).Shaped n) :
    (s.start mu0).products = (2 * s.nc : ℕ) * mu0 := by
  obtain ⟨hlo, hup⟩ := leastSlack_le_start mu0 s
  have hnc : (s.start mu0).nc = s.nc := rfl
  have hlower : ∀ i ∈ range s.nc,
      (s.start mu0).point.lam.lo.get i * (s.start mu0).point.t.lo.get i = mu0 := by
    intro i hi
    have hi' : i < (s.start mu0).point.t.lo.size := by
      rw [hshape.t_lo, hnc]
      exact mem_range.1 hi
    have hget : (s.start mu0).point.lam.lo.get i = mu0 / (s.start mu0).point.t.lo.get i :=
      Vec.get_map _ _ hi'
    rw [hget, div_mul_cancel₀ _ (leastSlack_pos.trans_le (hlo i hi')).ne']
  have hupper : ∀ i ∈ range s.nc,
      (s.start mu0).point.lam.up.get i * (s.start mu0).point.t.up.get i = mu0 := by
    intro i hi
    have hi' : i < (s.start mu0).point.t.up.size := by
      rw [hshape.t_up, hnc]
      exact mem_range.1 hi
    have hget : (s.start mu0).point.lam.up.get i = mu0 / (s.start mu0).point.t.up.get i :=
      Vec.get_map _ _ hi'
    rw [hget, div_mul_cancel₀ _ (leastSlack_pos.trans_le (hup i hi')).ne']
  rw [products_eq, hshape.lam_lo, hshape.lam_up, hnc, sum_congr rfl hlower, sum_congr rfl hupper,
    sum_const, card_range, nsmul_eq_mul]
  push_cast
  ring

end StageState

section Start

variable [IsStrictOrderedRing K]

omit [IsStrictOrderedRing K] in
/-- The barrier parameter taken from the cost data is at least two. -/
theorem two_le_defaultBarrier (h : Horizon K) : 2 ≤ h.defaultBarrier := by
  have hfold : ∀ (l : List (Stage K)) (a : K), a ≤ l.foldl (fun acc s =>
      Scalar.max (Scalar.max (Scalar.max (Scalar.max (Scalar.max acc
        s.Q.maxAbs) s.S.maxAbs) s.R.maxAbs) s.q.infNorm) s.r.infNorm) a := by
    intro l
    induction l with
    | nil => intro a; exact le_rfl
    | cons s rest ih =>
        intro a
        rw [List.foldl_cons]
        refine le_trans ?_ (ih _)
        simp only [Scalar.max_exact]
        exact le_max_of_le_left (le_max_of_le_left (le_max_of_le_left (le_max_of_le_left
          (le_max_left _ _))))
  have htwo : (Scalar.ofNat 2 : K) = 2 := by
    rw [Scalar.ofNat_exact, Nat.cast_ofNat]
  rw [Horizon.defaultBarrier, htwo]
  exact hfold h.stages 2

/-- Whatever the configuration says, the initial barrier is positive. -/
theorem startingBarrier_pos (h : Horizon K) (config : SolverConfig K) :
    0 < startingBarrier h config := by
  rw [startingBarrier]
  split
  · exact (Scalar.lt_iff _ _).1 ‹_›
  · exact two_pos.trans_le (two_le_defaultBarrier h)

/-- The products at the start add up to the initial barrier for each pair. -/
theorem sum_products_start (mu0 : K) (l : List (StageState K))
    (hl : ∀ s ∈ l, ∃ n, (s.start mu0).Shaped n) :
    ((l.map (StageState.start mu0)).map StageState.products).sum =
      (((l.map (StageState.start mu0)).map fun s => 2 * s.nc).foldr (· + ·) 0 : ℕ) * mu0 := by
  induction l with
  | nil => simp
  | cons s rest ih =>
      obtain ⟨n, hshape⟩ := hl s (List.mem_cons_self ..)
      have hrest := ih fun s hs => hl s (List.mem_cons_of_mem _ hs)
      rw [List.map_cons, List.map_cons, List.sum_cons, hrest, StageState.products_start s hshape,
        List.map_cons, List.foldr_cons, Nat.cast_add, add_mul]
      rfl

end Start

/-! ## One step -/

/-- Two lists with equal images, one of which is mapped on. -/
theorem forall₂_of_map_eq {β γ δ : Type} {f : β → γ} {g : β → δ} {R : β → δ → Prop} (l' : List β) :
    ∀ l : List β, l'.map f = l.map f → (∀ b ∈ l', ∀ b₀, f b = f b₀ → R b₀ (g b)) →
      List.Forall₂ R l (l'.map g) := by
  induction l' with
  | nil =>
      intro l h _
      rw [List.map_nil, eq_comm, List.map_eq_nil_iff] at h
      rw [h]
      exact .nil
  | cons b rest ih =>
      intro l h hR
      cases l with
      | nil => cases h
      | cons b₀ l =>
          rw [List.map_cons, List.map_cons] at h
          obtain ⟨hb, hrest⟩ := List.cons.inj h
          exact .cons (hR b (List.mem_cons_self ..) b₀ hb)
            (ih l hrest fun c hc => hR c (List.mem_cons_of_mem _ hc))

namespace Workspace

variable [IsStrictOrderedRing K] {w : Workspace K} (h : HorizonShaped w.stages)
  (hint : ∀ s ∈ w.stages, s.Interior) (mu sigmaMin : K)

include h hint

omit [IsStrictOrderedRing K] in
theorem interior_corrector (target : K) : ∀ s ∈ (w.corrector target).stages, s.Interior :=
  forall_mem_of_map_eq (map_base_of_core (corrector_core h target))
    (fun _ _ heq hs => hs.of_base heq) hint

omit [IsStrictOrderedRing K] in
theorem interior_predictor : ∀ s ∈ w.predictor.stages, s.Interior :=
  forall_mem_of_map_eq (map_base_of_core (predictor_core h)) (fun _ _ heq hs => hs.of_base heq) hint

/-- A step stays in the interior. -/
theorem interior_moved : ∀ s ∈ (w.moved mu sigmaMin).stages, s.Interior := by
  have hcorrector := interior_corrector h hint (w.target mu sigmaMin)
  intro s' hs'
  obtain ⟨s, hs, rfl⟩ := List.mem_map.1 hs'
  exact (hcorrector s hs).move (retains_of_stepLength hcorrector s hs)

omit hint [IsStrictOrderedRing K] in
theorem pairs_moved : (w.moved mu sigmaMin).pairs = w.pairs :=
  congrArg (fun l => l.foldr (· + ·) 0)
    (map_map_eq (f := StageState.fixed) (g := fun b => 2 * b.2.bound.lo.size)
      (moved_fixed h mu sigmaMin))

/-- The duality measure keeps 1/40000 of itself. -/
theorem duality_moved (hpairs : w.pairs ≠ 0) :
    w.duality / 40000 ≤ (w.moved mu sigmaMin).duality := by
  have hcore := map_base_of_core (corrector_core h (w.target mu sigmaMin))
  obtain ⟨hsame, hduality⟩ := duality_of_base hcore
  have hcorrector := interior_corrector h hint (w.target mu sigmaMin)
  have hshaped := (horizonShaped_corrector h (w.target mu sigmaMin)).chained
  have hsum : (((w.corrector (w.target mu sigmaMin)).stages.map fun s =>
      s.products / 40000).sum : K) ≤
      ((w.corrector (w.target mu sigmaMin)).stages.map fun s =>
        (s.move (w.alpha mu sigmaMin)).products).sum := by
    refine List.sum_le_sum fun s hs => ?_
    obtain ⟨k, hk⟩ := List.getElem?_of_mem hs
    exact (retains_of_stepLength hcorrector s hs).products (hcorrector s hs) (hshaped k s hk)
  have hdiv : (((w.corrector (w.target mu sigmaMin)).stages.map fun s =>
      s.products / 40000).sum : K) =
      ((w.corrector (w.target mu sigmaMin)).stages.map StageState.products).sum / 40000 := by
    simp only [div_eq_mul_inv]
    exact List.sum_map_mul_right ..
  have hmoved : (w.moved mu sigmaMin).stages.map StageState.products =
      (w.corrector (w.target mu sigmaMin)).stages.map fun s =>
        (s.move (w.alpha mu sigmaMin)).products := List.map_map ..
  have hpos : (0 : K) < (w.pairs : K) := Nat.cast_pos.2 (Nat.pos_of_ne_zero hpairs)
  have hleft : w.duality =
      ((w.corrector (w.target mu sigmaMin)).stages.map StageState.products).sum /
        (w.pairs : K) := by
    rw [← hduality, duality_eq (hsame ▸ hpairs), hsame]
  have hright := duality_eq (w := w.moved mu sigmaMin) (by rw [pairs_moved h]; exact hpairs)
  rw [pairs_moved h, hmoved] at hright
  rw [hleft, hright, div_right_comm, ← hdiv]
  exact div_le_div_of_nonneg_right hsum hpos.le

end Workspace

/-! ## A whole run -/

/-- Every row of the horizon has two pairs. -/
theorem Workspace.pairs_of_fixed {h : Horizon K} {w : Workspace K}
    (hl : w.stages.map StageState.fixed = h.stages.map Stage.fixed) :
    w.pairs = 2 * h.rowCount := by
  have hmap : w.stages.map (fun s => 2 * s.nc) = h.stages.map fun d => 2 * d.sizes.nc := by
    have hsizes := congrArg (List.map fun p => 2 * p.2.bound.lo.size) hl
    rw [List.map_map, List.map_map] at hsizes
    refine hsizes.trans (List.map_congr_left fun d hd => ?_)
    have hshaped := h.consistent.shaped d hd
    show 2 * (d.lb.append d.lg).size = _
    rw [Vec.size_append, hshaped.lb, hshaped.lg]
    rfl
  rw [pairs, hmap, Horizon.rowCount, ← List.sum_map_mul_left]
  rfl

omit [Field K] [LinearOrder K] [SquareRoot K] in
/-- Without pairs there are no rows. -/
theorem Workspace.nc_eq_zero_of_pairs {w : Workspace K} (h : w.pairs = 0) :
    ∀ s ∈ w.stages, s.nc = 0 := by
  intro s hs
  have hsum : (w.stages.map fun s => 2 * s.nc).sum = 0 := h
  have htwo := List.sum_eq_zero_iff.1 hsum _ (List.mem_map_of_mem hs)
  omega

/-- Retention is a fact about points. -/
theorem Workspace.retains_of_residuals [IsStrictOrderedRing K] {w : Workspace K}
    (h : HorizonShaped w.residuals.stages) (hint : ∀ s ∈ w.residuals.stages, s.Interior)
    (mu sigmaMin : K) :
    List.Forall₂ StageState.Retains w.stages (w.residuals.moved mu sigmaMin).stages := by
  have hbase := (map_base_of_core (corrector_core h (w.residuals.target mu sigmaMin))).trans
    (residuals_base w)
  have hretains := retains_of_stepLength
    (interior_corrector h hint (w.residuals.target mu sigmaMin))
  refine forall₂_of_map_eq _ _ hbase fun s hs s₀ heq => ?_
  have hpoint : s.point = s₀.point := congrArg (fun b => b.2.2) heq
  have hr : s.Retains (s.move (w.residuals.alpha mu sigmaMin)) := hretains s hs
  exact ⟨hpoint ▸ hr.t_lo, hpoint ▸ hr.t_up, hpoint ▸ hr.lam_lo, hpoint ▸ hr.lam_up⟩

/-- The four measures of a gap within tolerance. -/
theorem Gap.le_of_within {p : Gap K} {tol : K} (h : p.within tol = true) :
    p.mu ≤ tol ∧ p.norms.stat ≤ tol ∧ p.norms.dyn ≤ tol ∧ p.norms.ineq ≤ tol := by
  simp only [Gap.within, Bool.and_eq_true, Scalar.le_iff] at h
  exact ⟨h.1.1.1, h.1.1.2, h.1.2, h.2⟩

section Run

variable [IsStrictOrderedRing K] {h : Horizon K} {config : SolverConfig K} {t : Trajectory K}
  {w : Workspace K} (hs : h.Solvable config t w) (hw : w.Allocated)

include hs hw

/-- The duality measure at the start is the initial barrier. -/
theorem duality_initial (hrows : h.rowCount ≠ 0) :
    (RunState.initial h config t w).workspace.duality = startingBarrier h config := by
  have hpairs := Workspace.pairs_of_fixed (Horizon.initial_fixed hs hw)
  have hne : (RunState.initial h config t w).workspace.pairs ≠ 0 := by omega
  have hchained := (Horizon.horizonShaped_initial hs hw).chained
  have hsum := sum_products_start (startingBarrier h config)
    (h.placed config t w).stages fun s hmem => by
      obtain ⟨k, hk⟩ := List.getElem?_of_mem hmem
      refine ⟨_, hchained k _ ?_⟩
      rw [h.initial_stages, List.getElem?_map, hk]
      rfl
  rw [Workspace.duality_eq hne, div_eq_iff (Nat.cast_ne_zero.2 hne), mul_comm]
  exact hsum

/-- The invariant of a run: slacks and multipliers are positive, and the duality measure has fallen
by no more than 40000 in each step. -/
structure RunState.Interior (h : Horizon K) (config : SolverConfig K) (r : RunState K) : Prop where
  /-- Slacks and multipliers are positive. -/
  stages : ∀ s ∈ r.workspace.stages, s.Interior
  /-- The duality measure kept is that of the current point. -/
  mu : r.mu = r.workspace.duality
  /-- It has not fallen too fast. -/
  barrier : h.rowCount ≠ 0 → startingBarrier h config ≤ 40000 ^ r.iters * r.mu

omit [IsStrictOrderedRing K] hs hw in
theorem RunState.Interior.residuals {r : RunState K} (hr : r.Interior h config) :
    ∀ s ∈ r.workspace.residuals.stages, s.Interior :=
  forall_mem_of_map_eq (Workspace.residuals_base r.workspace) (fun _ _ heq hs => hs.of_base heq)
    hr.stages

theorem interior_initial : (RunState.initial h config t w).Interior h config := by
  refine ⟨?_, rfl, fun hrows => ?_⟩
  · intro s hmem
    rw [h.initial_stages] at hmem
    obtain ⟨s₀, _, rfl⟩ := List.mem_map.1 hmem
    exact StageState.interior_start (startingBarrier_pos h config) s₀
  · have hmu : (RunState.initial h config t w).mu = startingBarrier h config :=
      duality_initial hs hw hrows
    rw [hmu, show (RunState.initial h config t w).iters = 0 from rfl, pow_zero, one_mul]

/-- A solve does not end before its first step if the tolerance is below the initial barrier. -/
theorem verdict_initial (hrows : h.rowCount ≠ 0) (htol : config.tol < startingBarrier h config)
    (hcap : config.maxIter ≠ 0) : (RunState.initial h config t w).verdict config = none := by
  have hmu : (RunState.initial h config t w).mu = startingBarrier h config :=
    duality_initial hs hw hrows
  have hwithin : ((RunState.initial h config t w).workspace.residuals.gap
      (RunState.initial h config t w).mu).within config.tol ≠ true := fun hle =>
    absurd (Gap.le_of_within hle).1 (not_le.2 (hmu ▸ htol))
  have hfirst : ¬ config.maxIter ≤ (RunState.initial h config t w).iters := fun hle =>
    hcap (Nat.le_zero.1 hle)
  rw [RunState.verdict, Gap.verdict, if_neg hwithin, if_neg (by exact Bool.false_ne_true),
    if_neg hfirst]

/-- What a step from an interior loop head leads to. -/
theorem duality_next {r : RunState K}
    (hr : RunState.Visits config (RunState.initial h config t w) r) (hint : r.Interior h config)
    (hrows : h.rowCount ≠ 0) : r.mu / 40000 ≤ (r.next config).mu := by
  obtain ⟨hshaped, hfixed⟩ := hs.visited hw hr
  have hbase := Workspace.residuals_base r.workspace
  obtain ⟨hpairs, hduality⟩ := Workspace.duality_of_base hbase
  have hcount := Workspace.pairs_of_fixed hfixed
  have hmoved := Workspace.duality_moved (Workspace.horizonShaped_residuals hshaped) hint.residuals
    r.mu config.sigmaMin (by omega)
  rw [hduality, ← hint.mu] at hmoved
  rw [RunState.next_mu]
  exact hmoved

theorem RunState.Visits.interior {r : RunState K}
    (hr : RunState.Visits config (RunState.initial h config t w) r) : r.Interior h config := by
  refine RunState.Visits.induction (interior_initial hs hw) (fun r hr hint _ _ => ?_) r hr
  have hshaped := Workspace.horizonShaped_residuals (hs.visited hw hr).1
  refine ⟨?_, ?_, fun hrows => ?_⟩
  · rw [RunState.next_stages]
    exact Workspace.interior_moved hshaped hint.residuals _ _
  · rw [RunState.next_mu]
    have hsame : (r.next config).workspace.stages.map StageState.base =
        (r.workspace.residuals.moved r.mu config.sigmaMin).stages.map StageState.base := by
      rw [RunState.next_stages]
    exact (Workspace.duality_of_base hsame).2.symm
  · have hstep := duality_next hs hw hr hint hrows
    calc startingBarrier h config ≤ 40000 ^ r.iters * r.mu := hint.barrier hrows
      _ = 40000 ^ (r.iters + 1) * (r.mu / 40000) := by
          rw [pow_succ]
          field_simp
      _ ≤ 40000 ^ (r.iters + 1) * (r.next config).mu := by
          refine mul_le_mul_of_nonneg_left hstep ?_
          positivity

end Run

/-- A solve of the unit step makes a step. -/
theorem Horizon.attempt_unitStep {t : Trajectory ℝ} {w : Workspace ℝ}
    (hs : unitStep.Solvable .standard t w) (hw : w.Allocated) :
    (RunState.initial unitStep .standard t w).verdict .standard = none ∧
      ((RunState.initial unitStep .standard t w).attempt .standard).outcome =
        .ok ((RunState.initial unitStep .standard t w).workspace.residuals.record
          (RunState.initial unitStep .standard t w).mu SolverConfig.standard.sigmaMin) := by
  have hbase := Workspace.residuals_base (RunState.initial unitStep .standard t w).workspace
  have hbarrier : (2 : ℝ) ≤ startingBarrier unitStep .standard := by
    rw [startingBarrier, if_neg (by rw [Scalar.lt_iff]; exact lt_irrefl 0)]
    exact two_le_defaultBarrier unitStep
  have htol : (SolverConfig.standard : SolverConfig ℝ).tol < 2 := by
    show ((1 : ℕ) : ℝ) / 10 ^ 8 < 2
    norm_num
  have hswept := swept_oneStep (Workspace.horizonShaped_residuals (horizonShaped_initial hs hw))
    ((map_fixed_of_base hbase).trans (initial_fixed hs hw)) (interior_initial hs hw).residuals
    le_rfl zero_le_one
  refine ⟨verdict_initial hs hw ?_ (htol.trans_le hbarrier) (by decide), ?_⟩
  · rw [rowCount_unitStep]
    exact one_ne_zero
  · rw [RunState.attempt, Workspace.step_of_swept hswept.1]

/-- **Iterates stay in the interior.** At every loop head of a solve all slacks and multipliers are
positive. A step has a length in `(0, 1]`, its predictor was followed for a length in `(0, 1]`, and
every slack and multiplier keeps 1/200 of itself. With at least one inequality row the duality
measure is positive at every loop head and keeps 1/40000 of itself in every step, so success after
`iters` steps means that the tolerance is at least the initial barrier over `40000 ^ iters`. -/
theorem interior_along_run [IsStrictOrderedRing K] {h : Horizon K} {config : SolverConfig K}
    {t : Trajectory K} {w : Workspace K} (hs : h.Solvable config t w) (hw : w.InUse) :
    (∀ r, RunState.Visits config (RunState.initial h config t w) r →
      (∀ s ∈ r.workspace.stages, s.Interior) ∧
      (h.rowCount ≠ 0 → 0 < r.mu) ∧
      ∀ stats, (r.attempt config).outcome = .ok stats →
        (0 < stats.alpha ∧ stats.alpha ≤ 1) ∧
        (0 < stats.alphaAff ∧ stats.alphaAff ≤ 1) ∧
        List.Forall₂ StageState.Retains r.workspace.stages (r.attempt config).workspace.stages ∧
        (h.rowCount ≠ 0 → r.mu / 40000 ≤ stats.mu)) ∧
    ∃ res, h.solveIn config t w = .ok res ∧ (res.status = .success → h.rowCount ≠ 0 →
      startingBarrier h config ≤ 40000 ^ res.report.iters * config.tol) := by
  have hbarrier := startingBarrier_pos h config
  have hpow : ∀ n : ℕ, (0 : K) < 40000 ^ n := fun n => by positivity
  constructor
  · intro r hr
    have hint := hr.interior hs hw.allocated
    refine ⟨hint.stages, fun hrows => ?_, fun stats hok => ?_⟩
    · exact pos_of_mul_pos_right (hbarrier.trans_le (hint.barrier hrows)) (hpow _).le
    · obtain ⟨_, hworkspace, _, hrecord⟩ := Workspace.of_step_ok hok
      have hshaped := Workspace.horizonShaped_residuals (hs.visited hw.allocated hr).1
      have hinterior := hint.residuals
      have hcorrector := Workspace.interior_corrector hshaped hinterior
        (r.workspace.residuals.target r.mu config.sigmaMin)
      have hpredictor := Workspace.interior_predictor hshaped hinterior
      rw [hrecord, Workspace.record_alpha, Workspace.record_alphaAff, Workspace.record_mu,
        ← RunState.next_mu]
      refine ⟨⟨Workspace.stepLength_pos hcorrector, Workspace.stepLength_le_one⟩,
        Workspace.predictor_length hpredictor, ?_, duality_next hs hw.allocated hr hint⟩
      rw [RunState.attempt, hworkspace]
      exact Workspace.retains_of_residuals hshaped hinterior r.mu config.sigmaMin
  · obtain ⟨res, hres, r, hr, hfrom⟩ := hs.exists_solveIn
    refine ⟨res, hres, fun hsuccess hrows => ?_⟩
    have hint := hr.interior hs hw.allocated
    have hmu := (Gap.le_of_within (hfrom.within hsuccess)).1
    rw [hfrom.iters]
    exact (hint.barrier hrows).trans (mul_le_mul_of_nonneg_left hmu (hpow _).le)

/-- For instance on the unit step, where a step is made. -/
theorem interior_along_unitStep : ∃ (w : Workspace ℝ) (stats : StepStats ℝ), w.InUse ∧
    Horizon.unitStep.Solvable .standard (Trajectory.zeros Horizon.unitStep.sizes) w ∧
    ((RunState.initial Horizon.unitStep .standard (Trajectory.zeros Horizon.unitStep.sizes)
      w).attempt .standard).outcome = .ok stats ∧ 0 < stats.alpha ∧ stats.alpha ≤ 1 ∧
    ∀ r, RunState.Visits .standard (RunState.initial Horizon.unitStep .standard
        (Trajectory.zeros Horizon.unitStep.sizes) w) r →
      (∀ s ∈ r.workspace.stages, s.Interior) ∧ 0 < r.mu := by
  obtain ⟨w, _, hw, hs⟩ := Horizon.unitStep.exists_solvable_standard
  obtain ⟨_, hok⟩ := Horizon.attempt_unitStep hs hw.allocated
  obtain ⟨hrun, _⟩ := interior_along_run hs hw
  obtain ⟨hpos, hle⟩ := ((hrun _ .start).2.2 _ hok).1
  refine ⟨w, _, hw, hs, hok, hpos, hle, fun r hr => ?_⟩
  obtain ⟨hint, hmu, _⟩ := hrun r hr
  exact ⟨hint, hmu (by rw [Horizon.rowCount_unitStep]; exact one_ne_zero)⟩

end StagedQP
