import StagedQP.Proofs.InteriorPoint
import StagedQP.Proofs.NewtonRows

/-!
# Directions on the factorization of a step

A step factorizes once and seeks two directions. Whatever right-hand side a direction is sought for,
on the factorization of a step it solves the full linearised optimality system, row by row, with the
shifts that the factorization warned about.

## Main results

* `newtonRows_of_ground` — a direction on the factorization of a step.
* `newtonDirection_rows` — every right-hand side, and the two of a step.
-/

namespace StagedQP

open Finset

variable {K : Type} [Field K] [LinearOrder K] [SquareRoot K]

section Step

variable {w : Workspace K} (hl : HorizonShaped w.stages)
  (hsymm : ∀ s ∈ w.stages, SymmetricUpTo (s.nu + s.nx) s.data.hess.get)
  (hslack : ∀ s ∈ w.stages, ∀ i < s.nc, s.point.t.lo.get i ≠ 0 ∧ s.point.t.up.get i ≠ 0)

omit [LinearOrder K] [SquareRoot K] in
theorem symmetric_of_core {l l' : List (StageState K)}
    (hc : l'.map StageState.core = l.map StageState.core)
    (h : ∀ s ∈ l, SymmetricUpTo (s.nu + s.nx) s.data.hess.get) :
    ∀ s ∈ l', SymmetricUpTo (s.nu + s.nx) s.data.hess.get := by
  refine forall_mem_of_map_eq hc (fun s s' heq hs => ?_) h
  rw [show s'.nu = s.nu from congrArg StageCore.nu heq,
    show s'.nx = s.nx from congrArg StageCore.nx heq,
    show s'.data = s.data from congrArg StageCore.data heq]
  exact hs

omit [SquareRoot K] in
/-- In the interior no slack is zero. -/
theorem slacks_of_interior {l : List (StageState K)} (h : HorizonShaped l)
    (hint : ∀ s ∈ l, s.Interior) :
    ∀ s ∈ l, ∀ i < s.nc, s.point.t.lo.get i ≠ 0 ∧ s.point.t.up.get i ≠ 0 := by
  intro s hmem i hi
  obtain ⟨k, hk⟩ := List.getElem?_of_mem hmem
  have hshape := h.chained k s hk
  exact ⟨((hint s hmem).t_lo i (hshape.t_lo.symm ▸ hi)).ne',
    ((hint s hmem).t_up i (hshape.t_up.symm ▸ hi)).ne'⟩

include hl hsymm hslack

/-- Stages that carry the factorization of a step and some direction on it. -/
theorem newtonRows_of_ground [ExactRoots K] [IsStrictOrderedRing K] (hok : w.sweep.failed = none)
    {l : List (StageState K)} (hd : Directed l)
    (hg : l.map StageState.ground = w.sweep.stages.map StageState.ground)
    (hcomp : ∀ s ∈ l, s.CompShaped) {k : Nat} {s : StageState K} (hs : l[k]? = some s) :
    s.NewtonRows (dpiBefore l k) (dxAfter l k) (w.sweep.shiftAt k) := by
  have hcore := (map_core_of_ground hg).trans (Workspace.sweep_core w)
  have hshaped := (Workspace.horizonShaped_sweep hl).of_ground hg
  have hfactorized := (Workspace.factorized_sweep hok).of_ground hg
  have hmem := List.mem_of_getElem? hs
  refine hd.newtonRows hshaped (symmetric_of_core hcore hsymm) hfactorized hs (hcomp s hmem) ?_
  refine forall_mem_of_map_eq hcore (fun s s' heq hs => ?_) hslack s hmem
  rw [StageState.nc, show s'.data = s.data from congrArg StageCore.data heq,
    show s'.point = s.point from congrArg StageCore.point heq]
  exact hs

end Step

/-- **The Riccati solve yields the full Newton direction.** Take a chain with the ends of a horizon,
symmetric Hessians and nonzero slacks, condense it and factorize it; say the factorization does not
fail. Then every stage was factored with no shift or with one of the admissible ones, and a
direction sought on this factorization, whatever the right-hand sides of the complementarity
equations are, solves the full linearised optimality system at every stage. In particular both
directions of a step do, with the same shifts. -/
theorem newtonDirection_rows [ExactRoots K] [IsStrictOrderedRing K] {w : Workspace K}
    (hl : HorizonShaped w.stages)
    (hsymm : ∀ s ∈ w.stages, SymmetricUpTo (s.nu + s.nx) s.data.hess.get)
    (hslack : ∀ s ∈ w.stages, ∀ i < s.nc, s.point.t.lo.get i ≠ 0 ∧ s.point.t.up.get i ≠ 0)
    (hok : w.sweep.failed = none) :
    w.sweep.stages.map StageState.core = w.stages.map StageState.core ∧
    (∀ k, w.sweep.shiftAt k = 0 ∨ ∃ s, w.sweep.stages[k]? = some s ∧
      ∃ eps ∈ ControlFactor.shifts,
        w.sweep.shiftAt k = eps * ControlFactor.scale s.controlBlock) ∧
    (∀ l : List (StageState K), l.map StageState.ground = w.sweep.stages.map StageState.ground →
      (∀ s ∈ l, s.CompShaped) →
      (newtonDirection l).map StageState.aimed = l.map StageState.aimed ∧
      ∀ (k : Nat) (s : StageState K), (newtonDirection l)[k]? = some s →
        s.NewtonRows (dpiBefore (newtonDirection l) k) (dxAfter (newtonDirection l) k)
          (w.sweep.shiftAt k)) ∧
    ∀ mu sigmaMin, (w.step mu sigmaMin).outcome = .ok (w.record mu sigmaMin) ∧
      (w.step mu sigmaMin).workspace.stages = (w.corrector (w.target mu sigmaMin)).stages.map
        (StageState.move (w.alpha mu sigmaMin)) ∧
      (∀ (k : Nat) (s : StageState K), w.predictor.stages[k]? = some s →
        s.residual.comp = s.aimAtZero.residual.comp ∧
        s.NewtonRows (dpiBefore w.predictor.stages k) (dxAfter w.predictor.stages k)
          (w.sweep.shiftAt k)) ∧
      ∀ (k : Nat) (s : StageState K), (w.corrector (w.target mu sigmaMin)).stages[k]? = some s →
        (∃ p, w.predictor.stages[k]? = some p ∧
          s.residual.comp = (p.aimAtTarget (w.target mu sigmaMin)).residual.comp) ∧
        s.NewtonRows (dpiBefore (w.corrector (w.target mu sigmaMin)).stages k)
          (dxAfter (w.corrector (w.target mu sigmaMin)).stages k) (w.sweep.shiftAt k) := by
  refine ⟨Workspace.sweep_core w, fun k => ?_, fun l hg hcomp => ?_, fun mu sigmaMin => ?_⟩
  · rw [Riccati.Sweep.shiftAt]
    rcases Riccati.shiftAt?_factorize hok k with hnone | ⟨s, hs, eps, hmem, hsome⟩
    · left
      rw [show w.sweep.shiftAt? k = none from hnone, Option.getD_none]
    · right
      refine ⟨s, hs, eps, hmem, ?_⟩
      rw [show w.sweep.shiftAt? k = _ from hsome, Option.getD_some]
  · have hshaped := (Workspace.horizonShaped_sweep hl).of_ground hg
    have haimed := newtonDirection_aimed hshaped.first
    refine ⟨haimed, fun k s hs => ?_⟩
    refine newtonRows_of_ground hl hsymm hslack hok (directed_newtonDirection hshaped.first)
      ((map_map_eq (g := Prod.fst) haimed).trans hg) ?_ hs
    refine forall_mem_of_map_eq haimed (fun s s' heq h => ?_) hcomp
    have hnc : s'.nc = s.nc := congrArg (fun p => p.1.1.data.bound.lo.size) heq
    have hrhs : s'.residual.comp = s.residual.comp := congrArg Prod.snd heq
    exact ⟨by rw [hrhs, hnc]; exact h.lo, by rw [hrhs, hnc]; exact h.up⟩
  · refine ⟨?_, ?_, fun k s hs => ⟨Workspace.comp_predictor hl hs, ?_⟩, fun k s hs => ⟨?_, ?_⟩⟩
    · rw [Workspace.step_of_swept hok]
    · rw [Workspace.step_of_swept hok, Workspace.moved]
    · refine newtonRows_of_ground hl hsymm hslack hok (Workspace.directed_predictor hl)
        (Workspace.predictor_ground hl) (fun s hs => ?_) hs
      obtain ⟨j, hj⟩ := List.getElem?_of_mem hs
      exact Workspace.compShaped_predictor hl hj
    · obtain ⟨p, hp, _, hcomp⟩ := Workspace.comp_corrector hl hs
      exact ⟨p, hp, hcomp⟩
    · refine newtonRows_of_ground hl hsymm hslack hok (Workspace.directed_corrector hl _)
        (Workspace.corrector_ground hl _) (fun s hs => ?_) hs
      obtain ⟨j, hj⟩ := List.getElem?_of_mem hs
      exact Workspace.compShaped_corrector hl hj

/-- For instance on the unit step, at the point that a solve starts with. -/
theorem newtonDirection_unitStep : ∃ w : Workspace ℝ, HorizonShaped w.stages ∧
    (∀ s ∈ w.stages, SymmetricUpTo (s.nu + s.nx) s.data.hess.get) ∧
    (∀ s ∈ w.stages, ∀ i < s.nc, s.point.t.lo.get i ≠ 0 ∧ s.point.t.up.get i ≠ 0) ∧
    w.sweep.failed = none ∧
    ∀ (k : Nat) (s : StageState ℝ), w.predictor.stages[k]? = some s →
      s.NewtonRows (dpiBefore w.predictor.stages k) (dxAfter w.predictor.stages k)
        (w.sweep.shiftAt k) := by
  obtain ⟨w, _, hw, hs⟩ := Horizon.unitStep.exists_solvable_standard
  have hl := Horizon.horizonShaped_initial hs hw.allocated
  have hfixed := Horizon.initial_fixed hs hw.allocated
  have hint := (interior_initial hs hw.allocated).stages
  have hsymm := (Horizon.symmetric_oneStep _).hess hfixed
  have hslack := slacks_of_interior hl hint
  have hok := (Horizon.swept_oneStep hl hfixed hint le_rfl zero_le_one).1
  refine ⟨_, hl, hsymm, hslack, hok, fun k s hk => ?_⟩
  obtain ⟨_, _, _, hstep⟩ := newtonDirection_rows hl hsymm hslack hok
  exact ((hstep 1 0).2.2.1 k s hk).2

end StagedQP
