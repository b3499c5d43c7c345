import StagedQP.Proofs.NewtonDirection
import StagedQP.Proofs.ResidualStep

/-!
# Residuals along a run

A step of length `alpha` scales the residuals of the dynamics and of the inequality rows by
`1 - alpha`, so after any number of steps they are what they were at the start, times the product
of these factors. Nothing is assumed of the problem or of the factorization. Stationarity follows
suit as long as the data is symmetric and no control block had to be shifted.

Since a step length lies in `(0, 1]`, the norms of the first two kinds never grow, and a single full
step makes them zero for the rest of the run.

## Main results

* `Workspace.feasibility_moved`, `Workspace.stat_moved` — one step.
* `RunState.Visits.feasibility`, `RunState.Visits.stationarity` — a whole run.
* `residuals_along_run` — the same in one statement, with the consequences for the norms.
-/

namespace StagedQP

open Finset

variable {K : Type} [Field K] [LinearOrder K] [SquareRoot K]

/-! ## Norms -/

namespace Workspace

omit [Field K] [SquareRoot K] in
/-- A running maximum is bounded when its start and every contribution are. -/
theorem foldl_le_iff {β γ : Type} (step : γ → β → γ) (measure : γ → K) (P : β → Prop) {b : K}
    (hstep : ∀ acc s, measure (step acc s) ≤ b ↔ measure acc ≤ b ∧ P s) (l : List β) :
    ∀ acc, measure (l.foldl step acc) ≤ b ↔ measure acc ≤ b ∧ ∀ s ∈ l, P s := by
  induction l with
  | nil => intro acc; simp
  | cons s rest ih =>
      intro acc
      rw [List.foldl_cons, ih, hstep, List.forall_mem_cons, and_assoc]

theorem norms_stat_le_iff {w : Workspace K} {b : K} : w.residualNorms.stat ≤ b ↔
    0 ≤ b ∧ ∀ s ∈ w.stages, s.residual.stat.infNorm ≤ b :=
  foldl_le_iff _ ResidualNorms.stat _ (fun _ _ => max_le_iff) w.stages _

theorem norms_dyn_le_iff {w : Workspace K} {b : K} : w.residualNorms.dyn ≤ b ↔
    0 ≤ b ∧ ∀ s ∈ w.stages, s.residual.dyn.infNorm ≤ b :=
  foldl_le_iff _ ResidualNorms.dyn _ (fun _ _ => max_le_iff) w.stages _

theorem norms_ineq_le_iff {w : Workspace K} {b : K} : w.residualNorms.ineq ≤ b ↔
    0 ≤ b ∧ ∀ s ∈ w.stages, s.residual.ineq.lo.infNorm ≤ b ∧ s.residual.ineq.up.infNorm ≤ b := by
  refine foldl_le_iff _ ResidualNorms.ineq _ (fun acc s => ?_) w.stages _
  rw [← and_assoc, ← max_le_iff, ← max_le_iff]
  exact Iff.rfl

end Workspace

/-- Scaling a vector scales its norm. -/
theorem Vec.infNorm_scaled_le [IsStrictOrderedRing K] (c : K) {v : Vec K} {b : K}
    (hv : v.infNorm ≤ b) : (v.map fun x => c * x).infNorm ≤ |c| * b := by
  rw [infNorm_le_iff (mul_nonneg (abs_nonneg c) (v.infNorm_nonneg.trans hv))]
  intro i hi
  rw [size_map] at hi
  rw [get_map _ _ hi, abs_mul]
  exact mul_le_mul_of_nonneg_left ((abs_get_le_infNorm v i).trans hv) (abs_nonneg c)

theorem Vec.map_map_mul (c c' : K) (v : Vec K) :
    ((v.map fun x => c * x).map fun x => c' * x) = v.map fun x => c' * c * x := by
  refine ext_get (by rw [size_map, size_map, size_map]) fun i hi => ?_
  rw [size_map, size_map] at hi
  rw [get_map _ _ (by rw [size_map]; exact hi), get_map _ _ hi, get_map _ _ hi, mul_assoc]

theorem Vec.map_one_mul (v : Vec K) : (v.map fun x => 1 * x) = v := by
  refine ext_get (size_map ..) fun i hi => ?_
  rw [size_map] at hi
  rw [get_map _ _ hi, one_mul]

/-! ## One step -/

/-- The residuals of the dynamics and of the inequality rows at a stage. -/
def StageState.feasibility (s : StageState K) : Vec K × Sides (Vec K) :=
  (s.residual.dyn, s.residual.ineq)

/-- The stationarity residual at a stage. -/
def StageState.stationarity (s : StageState K) : Vec K := s.residual.stat

/-- The residuals of the dynamics and of the inequality rows, all scaled by `c`. -/
def scaleFeasibility (c : K) (p : Vec K × Sides (Vec K)) : Vec K × Sides (Vec K) :=
  (p.1.map fun x => c * x, p.2.map fun v => v.map fun x => c * x)

/-- A step along the direction of an evaluated chain scales the residuals of the dynamics and of the
inequality rows at every stage. -/
theorem Evaluated.feasibility_moved {l : List (StageState K)} (he : Evaluated l) (hd : Directed l)
    (hl : HorizonShaped l) {k : Nat} {s : StageState K} (hs : l[k]? = some s) (a : K) :
    ((s.move a).evaluated ((stageBefore none l k).map (StageState.move a))
      (l[k + 1]?.map (StageState.move a))).feasibility =
        scaleFeasibility (1 - a) s.feasibility := by
  refine Prod.ext (he.dyn_moved hd hl hs a) ?_
  show (⟨_, _⟩ : Sides (Vec K)) = ⟨_, _⟩
  rw [Sides.mk.injEq]
  exact ⟨he.lower_moved hd hl hs a _ _, he.upper_moved hd hl hs a _ _⟩

namespace Workspace

theorem residuals_stages_congr {w w' : Workspace K} (h : w'.stages = w.stages) :
    w'.residuals.stages = w.residuals.stages := by
  rw [residuals, residuals, h]

section Step

variable {w : Workspace K} (h : HorizonShaped w.residuals.stages) (mu sigmaMin : K)

include h

omit h in
/-- The residuals after a step, at a stage, in terms of the corrector. -/
theorem moved_residuals_getElem? (k : Nat) :
    (w.residuals.moved mu sigmaMin).residuals.stages[k]? =
      (w.residuals.corrector (w.residuals.target mu sigmaMin)).stages[k]?.map fun s =>
        (s.move (w.residuals.alpha mu sigmaMin)).evaluated
          ((stageBefore none (w.residuals.corrector (w.residuals.target mu sigmaMin)).stages k).map
            (StageState.move (w.residuals.alpha mu sigmaMin)))
          ((w.residuals.corrector (w.residuals.target mu sigmaMin)).stages[k + 1]?.map
            (StageState.move (w.residuals.alpha mu sigmaMin))) := by
  rw [residuals_getElem?]
  show ((List.map _ _)[k]?).map (StageState.evaluated (stageBefore none (List.map _ _) k)
    (List.map _ _)[k + 1]?) = _
  rw [stageBefore_map, List.getElem?_map, List.getElem?_map, Option.map_map, Function.comp_def]

/-- A step scales the residuals of the dynamics and of the inequality rows. -/
theorem feasibility_moved :
    (w.residuals.moved mu sigmaMin).residuals.stages.map StageState.feasibility =
      w.residuals.stages.map fun s =>
        scaleFeasibility (1 - w.residuals.alpha mu sigmaMin) s.feasibility := by
  have hcore := corrector_core h (w.residuals.target mu sigmaMin)
  have he := evaluated_of_base hcore
  have hd := directed_corrector h (w.residuals.target mu sigmaMin)
  have hl := horizonShaped_corrector h (w.residuals.target mu sigmaMin)
  have hscaled : (w.residuals.stages.map fun s =>
      scaleFeasibility (1 - w.residuals.alpha mu sigmaMin) s.feasibility) =
      (w.residuals.corrector (w.residuals.target mu sigmaMin)).stages.map fun s =>
        scaleFeasibility (1 - w.residuals.alpha mu sigmaMin) s.feasibility :=
    (map_map_eq (f := StageState.core)
      (g := fun c => scaleFeasibility (1 - w.residuals.alpha mu sigmaMin) (c.dyn, c.ineq))
      hcore).symm
  rw [hscaled]
  refine List.ext_getElem? fun k => ?_
  rw [List.getElem?_map, List.getElem?_map, moved_residuals_getElem?]
  cases hs : (w.residuals.corrector (w.residuals.target mu sigmaMin)).stages[k]? with
  | none => rfl
  | some s =>
      exact congrArg some (he.feasibility_moved hd hl hs _)

/-- A step scales the stationarity residual as well, up to what the shift of the control block left
unsolved. -/
theorem stat_moved [ExactRoots K] [IsStrictOrderedRing K]
    (hsymm : ∀ s ∈ w.residuals.stages, SymmetricUpTo (s.nu + s.nx) s.data.hess.get)
    (hint : ∀ s ∈ w.residuals.stages, s.Interior) (hok : w.residuals.sweep.failed = none) {k : Nat}
    {s s' : StageState K} (hs : w.residuals.stages[k]? = some s)
    (hs' : (w.residuals.moved mu sigmaMin).residuals.stages[k]? = some s') :
    s'.residual.stat = Vec.ofFn (s.nu + s.nx) fun i =>
      (1 - w.residuals.alpha mu sigmaMin) * s.residual.stat.get i
        - w.residuals.alpha mu sigmaMin *
          if i < s.nu then w.residuals.sweep.shiftAt k * s'.direction.dv.get i else 0 := by
  have hcore := corrector_core h (w.residuals.target mu sigmaMin)
  have hd := directed_corrector h (w.residuals.target mu sigmaMin)
  have hl := horizonShaped_corrector h (w.residuals.target mu sigmaMin)
  rw [moved_residuals_getElem?] at hs'
  obtain ⟨c, hc, rfl⟩ := Option.map_eq_some_iff.1 hs'
  have hcomp : ∀ s ∈ (w.residuals.corrector (w.residuals.target mu sigmaMin)).stages,
      s.CompShaped := by
    intro s hmem
    obtain ⟨j, hj⟩ := List.getElem?_of_mem hmem
    exact compShaped_corrector h hj
  have hrows := newtonRows_of_ground h hsymm (slacks_of_interior h hint) hok hd
    (corrector_ground h (w.residuals.target mu sigmaMin)) hcomp hc
  have hsame : c.core = s.core := by
    obtain ⟨s₁, hs₁, heq⟩ := exists_getElem?_of_map_eq hcore hc
    rw [hs] at hs₁
    rw [heq, Option.some.inj hs₁]
  have hnv : c.nu + c.nx = s.nu + s.nx := congrArg (fun p => p.nu + p.nx) hsame
  have hmove := (hl.chained k c hc).move (w.residuals.alpha mu sigmaMin)
  refine Vec.ext_get ?_ fun i hi => ?_
  · rw [StageState.size_evaluated_stat hmove, Vec.size_ofFn]
    exact hnv
  · rw [StageState.size_evaluated_stat hmove] at hi
    have hi' : i < c.nu + c.nx := hi
    rw [Vec.get_ofFn_of_lt _ (hnv ▸ hi'), (evaluated_of_base hcore).stat_moved hd hl hc _ hrows
      (hcomp c (List.mem_of_getElem? hc)) _ hi', StageState.evaluated_direction,
      show c.nu = s.nu from congrArg StageCore.nu hsame,
      show c.residual.stat = s.residual.stat from congrArg StageCore.stat hsame]
    rfl

/-- Without shifts a step scales the stationarity residual like the others. -/
theorem stat_moved_of_unshifted [ExactRoots K] [IsStrictOrderedRing K]
    (hsymm : ∀ s ∈ w.residuals.stages, SymmetricUpTo (s.nu + s.nx) s.data.hess.get)
    (hint : ∀ s ∈ w.residuals.stages, s.Interior) (hok : w.residuals.sweep.failed = none)
    (hshift : ∀ k, w.residuals.sweep.shiftAt k = 0) :
    (w.residuals.moved mu sigmaMin).residuals.stages.map StageState.stationarity =
      w.residuals.stages.map fun s =>
        s.stationarity.map fun x => (1 - w.residuals.alpha mu sigmaMin) * x := by
  have hfixed : (w.residuals.moved mu sigmaMin).residuals.stages.map StageState.fixed =
      w.residuals.stages.map StageState.fixed := by
    rw [map_fixed_of_base (residuals_base (w.residuals.moved mu sigmaMin)),
      moved_fixed h mu sigmaMin]
  refine List.ext_getElem? fun k => ?_
  rw [List.getElem?_map, List.getElem?_map]
  cases hs' : (w.residuals.moved mu sigmaMin).residuals.stages[k]? with
  | none =>
      rw [getElem?_eq_none_of_map_eq hfixed hs']
      rfl
  | some s' =>
      obtain ⟨s, hs, _⟩ := exists_getElem?_of_map_eq hfixed hs'
      have hshape := h.chained k s hs
      rw [hs]
      refine congrArg some ?_
      show s'.residual.stat = s.residual.stat.map _
      rw [stat_moved h mu sigmaMin hsymm hint hok hs hs']
      refine Vec.ext_get ?_ fun i hi => ?_
      · rw [Vec.size_ofFn, Vec.size_map]
        exact hshape.stat.symm
      · rw [Vec.size_ofFn] at hi
        rw [Vec.get_ofFn_of_lt _ hi, Vec.get_map _ _ (hshape.stat.symm ▸ hi), hshift, zero_mul,
          ite_self, mul_zero, sub_zero]

end Step

omit [Field K] [LinearOrder K] [SquareRoot K] in
/-- A stage with scaled residuals has a stage whose residuals were scaled. -/
theorem exists_scaled {β : Type} {w w' : Workspace K} {f : StageState K → β} {g : β → β}
    (h : w'.stages.map f = w.stages.map fun s => g (f s)) {s' : StageState K}
    (hs' : s' ∈ w'.stages) : ∃ s ∈ w.stages, g (f s) = f s' := by
  have hmem := List.mem_map_of_mem (f := f) hs'
  rw [h] at hmem
  exact List.mem_map.1 hmem

/-- Norms follow the residuals when these are scaled. -/
theorem norms_scaled [IsStrictOrderedRing K] {w w' : Workspace K} {c : K}
    (h : w'.stages.map StageState.feasibility =
      w.stages.map fun s => scaleFeasibility c s.feasibility) :
    w'.residualNorms.dyn ≤ |c| * w.residualNorms.dyn ∧
      w'.residualNorms.ineq ≤ |c| * w.residualNorms.ineq := by
  have hdyn := norms_dyn_le_iff.1 (le_refl w.residualNorms.dyn)
  have hineq := norms_ineq_le_iff.1 (le_refl w.residualNorms.ineq)
  refine ⟨norms_dyn_le_iff.2 ⟨mul_nonneg (abs_nonneg c) hdyn.1, fun s' hs' => ?_⟩,
    norms_ineq_le_iff.2 ⟨mul_nonneg (abs_nonneg c) hineq.1, fun s' hs' => ?_⟩⟩
  · obtain ⟨s, hs, heq⟩ := exists_scaled h hs'
    rw [show s'.residual.dyn = _ from congrArg Prod.fst heq.symm]
    exact Vec.infNorm_scaled_le c (hdyn.2 s hs)
  · obtain ⟨s, hs, heq⟩ := exists_scaled h hs'
    rw [show s'.residual.ineq.lo = _ from congrArg (fun p => p.2.lo) heq.symm,
      show s'.residual.ineq.up = _ from congrArg (fun p => p.2.up) heq.symm]
    exact ⟨Vec.infNorm_scaled_le c (hineq.2 s hs).1, Vec.infNorm_scaled_le c (hineq.2 s hs).2⟩

/-- The same for stationarity. -/
theorem norm_stat_scaled [IsStrictOrderedRing K] {w w' : Workspace K} {c : K}
    (h : w'.stages.map StageState.stationarity =
      w.stages.map fun s => s.stationarity.map fun x => c * x) :
    w'.residualNorms.stat ≤ |c| * w.residualNorms.stat := by
  have hstat := norms_stat_le_iff.1 (le_refl w.residualNorms.stat)
  refine norms_stat_le_iff.2 ⟨mul_nonneg (abs_nonneg c) hstat.1, fun s' hs' => ?_⟩
  obtain ⟨s, hs, heq⟩ := exists_scaled h hs'
  have hscaled : s'.residual.stat = s.residual.stat.map fun x => c * x := heq.symm
  rw [hscaled]
  exact Vec.infNorm_scaled_le c (hstat.2 s hs)

end Workspace

/-! ## A whole run -/

theorem scaleFeasibility_one (p : Vec K × Sides (Vec K)) : scaleFeasibility 1 p = p := by
  rw [scaleFeasibility, Vec.map_one_mul, Sides.map, Vec.map_one_mul, Vec.map_one_mul]

theorem scaleFeasibility_mul (c c' : K) (p : Vec K × Sides (Vec K)) :
    scaleFeasibility c' (scaleFeasibility c p) = scaleFeasibility (c' * c) p := by
  simp only [scaleFeasibility, Sides.map, Vec.map_map_mul]

/-- What the steps on record leave of a residual: the product of their `1 - alpha`. -/
def contraction (stats : List (StepStats K)) : K := (stats.map fun s => 1 - s.alpha).prod

omit [LinearOrder K] [SquareRoot K] in
theorem contraction_nil : contraction ([] : List (StepStats K)) = 1 := List.prod_nil

omit [LinearOrder K] [SquareRoot K] in
theorem contraction_concat (stats : List (StepStats K)) (s : StepStats K) :
    contraction (stats ++ [s]) = (1 - s.alpha) * contraction stats := by
  rw [contraction, contraction, List.map_append, List.prod_append, List.map_singleton,
    List.prod_singleton, mul_comm]

namespace RunState

variable {config : SolverConfig K} {r₀ : RunState K}

/-- A step from a loop head scales the residuals of dynamics and inequality rows. -/
theorem feasibility_next {r : RunState K} (h : HorizonShaped r.workspace.stages) :
    (r.next config).workspace.residuals.stages.map StageState.feasibility =
      r.workspace.residuals.stages.map fun s => scaleFeasibility
        (1 - (r.workspace.residuals.record r.mu config.sigmaMin).alpha) s.feasibility := by
  rw [Workspace.residuals_stages_congr (next_stages config r), Workspace.record_alpha]
  exact Workspace.feasibility_moved (Workspace.horizonShaped_residuals h) r.mu config.sigmaMin

/-- Along a run the residuals of dynamics and inequality rows are those at the start, scaled. -/
theorem Visits.feasibility {r : RunState K} (hr : Visits config r₀ r)
    (h₀ : HorizonShaped r₀.workspace.stages) (hstats : r₀.workspace.stats = []) :
    r.workspace.residuals.stages.map StageState.feasibility =
      r₀.workspace.residuals.stages.map fun s =>
        scaleFeasibility (contraction r.workspace.stats) s.feasibility := by
  refine Visits.induction (P := fun r => r.workspace.residuals.stages.map StageState.feasibility =
    r₀.workspace.residuals.stages.map fun s =>
      scaleFeasibility (contraction r.workspace.stats) s.feasibility) ?_
    (fun r hr ih _ _ => ?_) r hr
  · rw [hstats, contraction_nil]
    exact List.map_congr_left fun s _ => (scaleFeasibility_one _).symm
  · rw [feasibility_next (hr.horizonShaped h₀).1, next_stats, contraction_concat]
    have hmap := congrArg (List.map (scaleFeasibility
      (1 - (r.workspace.residuals.record r.mu config.sigmaMin).alpha))) ih
    rw [List.map_map, List.map_map] at hmap
    exact hmap.trans (List.map_congr_left fun s _ => scaleFeasibility_mul _ _ _)

end RunState

section Run

variable [ExactRoots K] [IsStrictOrderedRing K] {h : Horizon K} {config : SolverConfig K}
  {t : Trajectory K} {w : Workspace K} (hs : h.Solvable config t w) (hw : w.Allocated)

include hs hw

omit [ExactRoots K] [IsStrictOrderedRing K] in
/-- The Hessians that a solve of a symmetric horizon works with are symmetric. -/
theorem Horizon.Symmetric.residuals (hsymm : h.Symmetric) {r : RunState K}
    (hr : RunState.Visits config (RunState.initial h config t w) r) :
    ∀ s ∈ r.workspace.residuals.stages, SymmetricUpTo (s.nu + s.nx) s.data.hess.get :=
  hsymm.hess ((map_fixed_of_base (Workspace.residuals_base r.workspace)).trans
    (hs.visited hw hr).2)

/-- A step without shifts from a loop head of a symmetric horizon scales the stationarity
residual. -/
theorem RunState.stationarity_next (hsymm : h.Symmetric) {r : RunState K}
    (hr : RunState.Visits config (RunState.initial h config t w) r)
    (hok : r.workspace.residuals.sweep.failed = none)
    (hshift : ∀ k, r.workspace.residuals.sweep.shiftAt k = 0) :
    (r.next config).workspace.residuals.stages.map StageState.stationarity =
      r.workspace.residuals.stages.map fun s => s.stationarity.map fun x =>
        (1 - (r.workspace.residuals.record r.mu config.sigmaMin).alpha) * x := by
  rw [Workspace.residuals_stages_congr (RunState.next_stages config r), Workspace.record_alpha]
  exact Workspace.stat_moved_of_unshifted (Workspace.horizonShaped_residuals (hs.visited hw hr).1)
    r.mu config.sigmaMin (hsymm.residuals hs hw hr) (hr.interior hs hw).residuals hok hshift

/-- Along a run on a symmetric horizon without shifts, so is the stationarity residual. -/
theorem RunState.Visits.stationarity (hsymm : h.Symmetric) :
    ∀ r, RunState.Visits config (RunState.initial h config t w) r →
      (∀ k eps, Warning.regularized k eps ∉ r.warnings) →
      r.workspace.residuals.stages.map StageState.stationarity =
        (RunState.initial h config t w).workspace.residuals.stages.map fun s =>
          s.stationarity.map fun x => contraction r.workspace.stats * x := by
  refine RunState.Visits.induction (fun _ => ?_) fun r hr ih _ hok hquiet => ?_
  · have hstats : (RunState.initial h config t w).workspace.stats = [] := rfl
    rw [hstats, contraction_nil]
    exact List.map_congr_left fun s _ => (Vec.map_one_mul _).symm
  · rw [RunState.next_warnings] at hquiet
    have hbefore := ih fun k eps hmem => hquiet k eps (List.mem_append_left _ hmem)
    have hshift := Riccati.Sweep.shiftAt_eq_zero fun k eps hmem =>
      hquiet k eps (List.mem_append_right _ hmem)
    have hmap := congrArg (List.map fun v : Vec K => v.map fun x =>
      (1 - (r.workspace.residuals.record r.mu config.sigmaMin).alpha) * x) hbefore
    rw [List.map_map, List.map_map] at hmap
    rw [RunState.stationarity_next hs hw hsymm hr hok hshift, RunState.next_stats,
      contraction_concat]
    exact hmap.trans (List.map_congr_left fun s _ => Vec.map_map_mul _ _ _)

omit [ExactRoots K] in
/-- The length of a step from a loop head. -/
theorem RunState.alpha_next {r : RunState K}
    (hr : RunState.Visits config (RunState.initial h config t w) r) :
    0 < (r.workspace.residuals.record r.mu config.sigmaMin).alpha ∧
      (r.workspace.residuals.record r.mu config.sigmaMin).alpha ≤ 1 := by
  have hcorrector := Workspace.interior_corrector
    (Workspace.horizonShaped_residuals (hs.visited hw hr).1) (hr.interior hs hw).residuals
    (r.workspace.residuals.target r.mu config.sigmaMin)
  rw [Workspace.record_alpha]
  exact ⟨Workspace.stepLength_pos hcorrector, Workspace.stepLength_le_one⟩

omit [ExactRoots K] in
/-- No step makes the residual norms of dynamics or inequality rows larger. -/
theorem RunState.norms_next {r : RunState K}
    (hr : RunState.Visits config (RunState.initial h config t w) r) :
    (r.next config).workspace.residuals.residualNorms.dyn ≤
        r.workspace.residuals.residualNorms.dyn ∧
      (r.next config).workspace.residuals.residualNorms.ineq ≤
        r.workspace.residuals.residualNorms.ineq := by
  obtain ⟨hdyn, hineq⟩ := Workspace.norms_scaled (RunState.feasibility_next (hs.visited hw hr).1)
  obtain ⟨hpos, hle⟩ := RunState.alpha_next hs hw hr
  have hfactor : |1 - (r.workspace.residuals.record r.mu config.sigmaMin).alpha| ≤ 1 := by
    rw [abs_le]
    constructor
    · linarith
    · linarith
  have hnorms := Workspace.norms_dyn_le_iff.1 (le_refl r.workspace.residuals.residualNorms.dyn)
  have hnorms' := Workspace.norms_ineq_le_iff.1 (le_refl r.workspace.residuals.residualNorms.ineq)
  exact ⟨hdyn.trans (mul_le_of_le_one_left hnorms.1 hfactor),
    hineq.trans (mul_le_of_le_one_left hnorms'.1 hfactor)⟩

omit [ExactRoots K] in
/-- Nor does any number of steps. -/
theorem RunState.Visits.norms_le {r : RunState K}
    (hr : RunState.Visits config (RunState.initial h config t w) r) :
    ∀ r', RunState.Visits config r r' →
      r'.workspace.residuals.residualNorms.dyn ≤ r.workspace.residuals.residualNorms.dyn ∧
        r'.workspace.residuals.residualNorms.ineq ≤ r.workspace.residuals.residualNorms.ineq := by
  refine RunState.Visits.induction ⟨le_rfl, le_rfl⟩ fun r' hr' ih _ _ => ?_
  obtain ⟨hdyn, hineq⟩ := RunState.norms_next hs hw (hr.trans hr')
  exact ⟨hdyn.trans ih.1, hineq.trans ih.2⟩

omit [ExactRoots K] in
/-- A full step leaves no residuals of dynamics and inequality rows, for the rest of the run. -/
theorem RunState.Visits.norms_eq_zero {r : RunState K}
    (hr : RunState.Visits config (RunState.initial h config t w) r)
    (hfull : ∃ stats ∈ r.workspace.stats, stats.alpha = 1) :
    r.workspace.residuals.residualNorms.dyn = 0 ∧
      r.workspace.residuals.residualNorms.ineq = 0 := by
  have hzero : contraction r.workspace.stats = 0 := by
    obtain ⟨stats, hmem, hone⟩ := hfull
    rw [contraction, List.prod_eq_zero_iff, List.mem_map]
    exact ⟨stats, hmem, by rw [hone, sub_self]⟩
  have hscaled := hr.feasibility (Horizon.horizonShaped_initial hs hw) rfl
  obtain ⟨hdyn, hineq⟩ := Workspace.norms_scaled hscaled
  rw [hzero, abs_zero, zero_mul] at hdyn hineq
  exact ⟨le_antisymm hdyn (Workspace.norms_dyn_le_iff.1 le_rfl).1,
    le_antisymm hineq (Workspace.norms_ineq_le_iff.1 le_rfl).1⟩

end Run

/-- **Residuals contract exactly.** At every loop head of a solve the residuals of dynamics and
inequality rows are those at the starting point, times the product of `1 - alpha` over the steps
made. On a symmetric horizon so is the stationarity residual while no control block is shifted, and
with shifts one step leaves `-alpha (shift du)` in its control rows besides. The norms of the first
two kinds never grow from a loop head to a later one, and are zero once a full step has been made.
What a solve returns is the last loop head. -/
theorem residuals_along_run [ExactRoots K] [IsStrictOrderedRing K] {h : Horizon K}
    {config : SolverConfig K} {t : Trajectory K} {w : Workspace K} (hs : h.Solvable config t w)
    (hw : w.InUse) :
    (∀ r, RunState.Visits config (RunState.initial h config t w) r →
      r.workspace.stats.length = r.iters ∧
      (r.workspace.residuals.stages.map StageState.feasibility =
        (RunState.initial h config t w).workspace.residuals.stages.map fun s =>
          scaleFeasibility (contraction r.workspace.stats) s.feasibility) ∧
      (h.Symmetric → (∀ k eps, Warning.regularized k eps ∉ r.warnings) →
        r.workspace.residuals.stages.map StageState.stationarity =
          (RunState.initial h config t w).workspace.residuals.stages.map fun s =>
            s.stationarity.map fun x => contraction r.workspace.stats * x) ∧
      (h.Symmetric → ∀ stats, (r.attempt config).outcome = .ok stats →
        ∀ (k : Nat) (s s' : StageState K), r.workspace.residuals.stages[k]? = some s →
          (r.attempt config).workspace.residuals.stages[k]? = some s' →
          s'.residual.stat = Vec.ofFn (s.nu + s.nx) fun i =>
            (1 - stats.alpha) * s.residual.stat.get i - stats.alpha *
              if i < s.nu then r.workspace.residuals.sweep.shiftAt k * s'.direction.dv.get i
              else 0) ∧
      (∀ r', RunState.Visits config r r' →
        r'.workspace.residuals.residualNorms.dyn ≤ r.workspace.residuals.residualNorms.dyn ∧
        r'.workspace.residuals.residualNorms.ineq ≤ r.workspace.residuals.residualNorms.ineq) ∧
      ((∃ stats ∈ r.workspace.stats, stats.alpha = 1) →
        r.workspace.residuals.residualNorms.dyn = 0 ∧
        r.workspace.residuals.residualNorms.ineq = 0)) ∧
    ∃ res, h.solveIn config t w = .ok res ∧
      res.workspace.stages.map StageState.feasibility =
        (RunState.initial h config t w).workspace.residuals.stages.map fun s =>
          scaleFeasibility (contraction res.report.stats) s.feasibility := by
  have ha := hw.allocated
  have hinitial := Horizon.horizonShaped_initial hs ha
  constructor
  · intro r hr
    refine ⟨hr.length_stats rfl, hr.feasibility hinitial rfl,
      fun hsymm => RunState.Visits.stationarity hs ha hsymm r hr,
      fun hsymm stats hok k s s' hk hk' => ?_, hr.norms_le hs ha, hr.norms_eq_zero hs ha⟩
    obtain ⟨hswept, hworkspace, _, hrecord⟩ := Workspace.of_step_ok hok
    rw [RunState.attempt, hworkspace] at hk'
    rw [hrecord, Workspace.record_alpha]
    exact Workspace.stat_moved (Workspace.horizonShaped_residuals (hs.visited ha hr).1) r.mu
      config.sigmaMin (hsymm.residuals hs ha hr) (hr.interior hs ha).residuals hswept hk hk'
  · obtain ⟨res, hres, r, hr, hfrom⟩ := hs.exists_solveIn
    refine ⟨res, hres, ?_⟩
    rw [hfrom.stats, ← hr.feasibility hinitial rfl]
    exact map_map_eq (f := StageState.core) (g := fun c => (c.dyn, c.ineq)) hfrom.core

/-- For instance on the unit step, after its first step. -/
theorem residuals_along_unitStep : ∃ (w : Workspace ℝ) (r : RunState ℝ), w.InUse ∧
    Horizon.unitStep.Solvable .standard (Trajectory.zeros Horizon.unitStep.sizes) w ∧
    RunState.Visits .standard (RunState.initial Horizon.unitStep .standard
      (Trajectory.zeros Horizon.unitStep.sizes) w) r ∧ r.iters = 1 ∧
    r.workspace.residuals.stages.map StageState.feasibility =
      (RunState.initial Horizon.unitStep .standard (Trajectory.zeros Horizon.unitStep.sizes)
        w).workspace.residuals.stages.map fun s =>
          scaleFeasibility (contraction r.workspace.stats) s.feasibility := by
  obtain ⟨w, _, hw, hs⟩ := Horizon.unitStep.exists_solvable_standard
  obtain ⟨hgo, hok⟩ := Horizon.attempt_unitStep hs hw.allocated
  have hr := RunState.Visits.step .start hgo hok
  exact ⟨w, _, hw, hs, hr, rfl, ((residuals_along_run hs hw).1 _ hr).2.1⟩

end StagedQP
