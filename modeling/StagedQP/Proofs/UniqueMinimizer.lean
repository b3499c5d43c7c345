import StagedQP.Proofs.FeasibleSuccess
import StagedQP.Proofs.FeedbackForm
import StagedQP.Proofs.OptimalityCertificate

/-!
# Points without residuals

Where a horizon has no inequality rows and a point leaves no residuals, the cost of any feasible
trajectory is known exactly: it exceeds the cost of the point by half the sum of the Hessian forms
at the difference of the two. The linear part vanishes, since the stationarity residual trades it
for multipliers of the dynamics, and these cancel along the chain.

The difference of two feasible trajectories follows the dynamics without their offsets. On such
differences the sum of the forms is positive definite if the backward sweep at the point needs no
shift, so the point is the one and only minimizer. Nothing is said about the convexity of single
stages.

## Main results

* `Horizon.UniqueMinimizer` — less cost than every other feasible trajectory.
* `Workspace.objective_excess` — the cost of a feasible trajectory about a point without residuals.
* `Workspace.uniqueMinimizer` — such a point is the unique minimizer.
-/

namespace StagedQP

open Finset

variable {K : Type} [Field K] [LinearOrder K] [SquareRoot K]

/-! ## Minimizers -/

/-- The trajectory is feasible, and every other feasible one costs more. -/
structure Horizon.UniqueMinimizer (h : Horizon K) (z : Trajectory K) : Prop where
  /-- It is feasible. -/
  feasible : h.Feasible z
  /-- No feasible trajectory costs less. -/
  least : ∀ z', h.Feasible z' → h.objective z ≤ h.objective z'
  /-- No other one costs the same. -/
  unique : ∀ z', h.Feasible z' → h.objective z' = h.objective z → z' = z

theorem Horizon.UniqueMinimizer.eq {h : Horizon K} {z z' : Trajectory K}
    (hz : h.UniqueMinimizer z) (hz' : h.UniqueMinimizer z') : z' = z :=
  hz.unique z' hz'.feasible (le_antisymm (hz'.least z hz.feasible) (hz.least z' hz'.feasible))

section Entries

variable {sizes : List StageSizes} {z z' : Trajectory K} (hz : z.fits sizes = true)
  (hz' : z'.fits sizes = true)

include hz hz'

omit [LinearOrder K] [SquareRoot K] in
/-- The states are determined by their entries. -/
theorem Trajectory.x_eq (heq : ∀ (k : Nat) (d : StageSizes), sizes[k]? = some d →
    ∀ j < d.nx, z'.state k j = z.state k j) : z'.x = z.x := by
  have hlen : ∀ {z : Trajectory K}, z.fits sizes = true → z.x.length = sizes.length := by
    intro z hz
    rw [fits, Bool.and_eq_true, beq_iff_eq] at hz
    simpa only [List.length_map] using congrArg List.length hz.1
  have hcount := hlen hz
  have hcount' := hlen hz'
  apply List.ext_getElem?
  intro k
  cases hd : sizes[k]? with
  | none =>
      rw [List.getElem?_eq_none_iff] at hd
      rw [List.getElem?_eq_none (by omega), List.getElem?_eq_none (by omega)]
  | some d =>
      obtain ⟨x, hx, hsize⟩ := size_x hz hd
      obtain ⟨x', hx', hsize'⟩ := size_x hz' hd
      rw [hx, hx']
      congr 1
      refine Vec.ext_get (hsize'.trans hsize.symm) fun j hj => ?_
      have hstate := heq k d hd j (hsize' ▸ hj)
      rwa [state, state, hx, hx'] at hstate

omit [LinearOrder K] [SquareRoot K] in
/-- So are the controls. -/
theorem Trajectory.u_eq (heq : ∀ (k : Nat) (d : StageSizes), sizes[k]? = some d →
    ∀ i < d.nu, z'.control k i = z.control k i) : z'.u = z.u := by
  have hlen : ∀ {z : Trajectory K}, z.fits sizes = true → z.u.length = sizes.length - 1 := by
    intro z hz
    rw [fits, Bool.and_eq_true, beq_iff_eq, beq_iff_eq] at hz
    have hmap := congrArg List.length hz.2
    rw [List.length_map, List.length_map, List.length_take] at hmap
    omega
  have hcount := hlen hz
  have hcount' := hlen hz'
  apply List.ext_getElem?
  intro k
  cases hu : z.u[k]? with
  | none =>
      rw [List.getElem?_eq_none_iff] at hu ⊢
      omega
  | some u =>
      have hk := (List.getElem?_eq_some_iff.1 hu).1
      obtain ⟨u', hu'⟩ : ∃ u', z'.u[k]? = some u' := ⟨_, List.getElem?_eq_getElem (by omega)⟩
      obtain ⟨d, hd⟩ : ∃ d, sizes[k]? = some d := ⟨_, List.getElem?_eq_getElem (by omega)⟩
      have hsize := size_u hz hd hu
      have hsize' := size_u hz' hd hu'
      rw [hu']
      congr 1
      refine Vec.ext_get (hsize'.trans hsize.symm) fun i hi => ?_
      have hcontrol := heq k d hd i (hsize' ▸ hi)
      rwa [control, control, hu, hu'] at hcontrol

end Entries

/-- Trajectories of a horizon are equal when their stage vectors are. -/
theorem Horizon.eq_of_vectors {h : Horizon K} {z z' : Trajectory K} (hz : z.fits h.sizes = true)
    (hz' : z'.fits h.sizes = true) (heq : ∀ (k : Nat) (d : Stage K), h.stages[k]? = some d →
      ∀ i < d.sizes.nu + d.sizes.nx, h.vectors z' k i = h.vectors z k i) : z' = z := by
  have hstage : ∀ {k : Nat} {c : StageSizes}, h.sizes[k]? = some c →
      ∃ d, h.stages[k]? = some d ∧ d.sizes = c := by
    intro k c hc
    rw [sizes, List.getElem?_map] at hc
    exact Option.map_eq_some_iff.1 hc
  have hx := Trajectory.x_eq hz hz' fun k c hc j hj => by
    obtain ⟨d, hd, rfl⟩ := hstage hc
    have hstate := heq k d hd (d.sizes.nu + j) (by omega)
    rwa [h.vectors_eq z hd, h.vectors_eq z' hd, stageVector_state, stageVector_state] at hstate
  have hu := Trajectory.u_eq hz hz' fun k c hc i hi => by
    obtain ⟨d, hd, rfl⟩ := hstage hc
    have hcontrol := heq k d hd i (by omega)
    rwa [h.vectors_eq z hd, h.vectors_eq z' hd, stageVector_control _ _ hi,
      stageVector_control _ _ hi] at hcontrol
  cases z
  cases z'
  exact congrArg₂ Trajectory.mk hx hu

/-- The difference of two feasible trajectories follows the dynamics without their offsets. -/
theorem Horizon.Feasible.homogeneous {h : Horizon K} {l : List (StageState K)}
    (hl : l.map StageState.fixed = h.stages.map Stage.fixed) {z z' : Trajectory K}
    (hz : h.Feasible z) (hz' : h.Feasible z') :
    Homogeneous l fun k i => h.vectors z' k i - h.vectors z k i := by
  intro k s next hs hnext i hi
  have hdyn := (hz.packed hl).dynamics k s next hs hnext i hi
  have hdyn' := (hz'.packed hl).dynamics k s next hs hnext i hi
  rw [rowSum_sub]
  linear_combination hdyn - hdyn'

/-! ## The cost about a point without residuals -/

theorem Vec.get_eq_zero_of_infNorm {v : Vec K} [IsStrictOrderedRing K] (h : v.infNorm ≤ 0)
    (i : Nat) : v.get i = 0 := abs_nonpos_iff.1 ((abs_get_le_infNorm v i).trans h)

/-- The cost of a stage without rows, up to what its neighbours make up for. -/
theorem Evaluated.stationary_gap [IsStrictOrderedRing K] {l : List (StageState K)}
    (he : Evaluated l) (hl : HorizonShaped l) {k : Nat} {s : StageState K} (hs : l[k]? = some s)
    (hsymm : SymmetricUpTo (s.nu + s.nx) s.data.hess.get) (hrows : s.nc = 0)
    (hstat : s.residual.stat.infNorm ≤ 0) (hdyn : s.residual.dyn.infNorm ≤ 0)
    {z : Nat → Nat → K} (hz : PackedFeasible l z) :
    s.data.cost (s.nu + s.nx) s.point.v.get - s.data.cost (s.nu + s.nx) (z k) =
      -(1 / 2) * s.data.quadratic (s.nu + s.nx) (fun i => z k i - s.point.v.get i) +
        (coupling l z (k + 1) - coupling l z k) := by
  have hexpand := PackedStage.cost_expansion hsymm s.point.v.get (z k)
  have hslope := he.slope_eq hl hs fun i => z k i - s.point.v.get i
  have hdynamics := he.dynamics_slope hl hs hz
  have hstatic : ∑ i ∈ range (s.nu + s.nx),
      s.residual.stat.get i * (z k i - s.point.v.get i) = 0 := by
    apply sum_eq_zero
    intro i _
    rw [Vec.get_eq_zero_of_infNorm hstat, zero_mul]
  have hmissed : ∑ j ∈ range (nextNx l k), s.residual.dyn.get j * s.point.pi.get j = 0 := by
    apply sum_eq_zero
    intro j _
    rw [Vec.get_eq_zero_of_infNorm hdyn, zero_mul]
  have hcoupling : coupling l z k = ∑ j ∈ range s.nx,
      ((stageBefore none l k).elim 0 fun b => b.point.pi.get j) *
        (z k (s.nu + j) - s.point.v.get (s.nu + j)) := by
    rw [coupling, hs, Option.elim_some]
  rw [hdynamics, ← hcoupling, hstatic, hmissed, hrows, range_zero, sum_empty] at hslope
  linear_combination -hexpand - hslope

section Workspace

variable {h : Horizon K} {w : Workspace K} (hsymm : h.Symmetric) (he : Evaluated w.stages)
  (hw : HorizonShaped w.stages) (hl : w.stages.map StageState.fixed = h.stages.map Stage.fixed)
  (hrows : ∀ s ∈ w.stages, s.nc = 0) (hnorms : w.residualNorms = ⟨0, 0, 0⟩)

include hsymm he hw hl hrows hnorms

/-- A feasible trajectory costs more than a point without residuals by half the Hessian forms at
the difference. -/
theorem Workspace.objective_excess [IsStrictOrderedRing K] {z : Trajectory K} (hz : h.Feasible z) :
    h.objective z - h.objective w.toTrajectory = (indexedSum w.stages fun k s =>
      s.data.quadratic (s.nu + s.nx) fun i => h.vectors z k i - s.point.v.get i) / 2 := by
  have hstat := (norms_stat_le_iff.1 (congrArg ResidualNorms.stat hnorms).le).2
  have hdyn := (norms_dyn_le_iff.1 (congrArg ResidualNorms.dyn hnorms).le).2
  have hgap : h.objective w.toTrajectory - h.objective z = -(1 / 2) *
      indexedSum w.stages fun k s =>
        s.data.quadratic (s.nu + s.nx) fun i => h.vectors z k i - s.point.v.get i := by
    rw [objective_sub hw hl, ← add_zero (-(1 / 2) * _),
      ← indexedSum_coupling hw (h.vectors z), ← indexedSum_mul, ← indexedSum_add]
    refine indexedSum_congr rfl fun k s s' hs hs' => ?_
    obtain rfl := Option.some.inj (hs.symm.trans hs')
    have hmem := List.mem_of_getElem? hs
    exact he.stationary_gap hw hs (hsymm.hess hl s hmem) (hrows s hmem) (hstat s hmem)
      (hdyn s hmem) (hz.packed hl)
  linear_combination -hgap

variable (hok : w.sweep.failed = none)

include hok

/-- The same, by the condensed Hessians of the sweep: without rows there are no barrier terms. -/
theorem Workspace.objective_excess_swept [IsStrictOrderedRing K] {z : Trajectory K}
    (hz : h.Feasible z) : h.objective z - h.objective w.toTrajectory =
      (indexedSum w.sweep.stages fun k s => quadForm s.condensed.hess.get (s.nu + s.nx) fun i =>
        h.vectors z k i - h.vectors w.toTrajectory k i) / 2 := by
  have hcore := sweep_core w
  have hf := factorized_sweep hok
  have hswept := horizonShaped_sweep hw
  have hlen : w.stages.length = w.sweep.stages.length := by
    simpa only [List.length_map] using (congrArg List.length hcore).symm
  rw [objective_excess hsymm he hw hl hrows hnorms hz]
  congr 1
  refine indexedSum_congr hlen fun k s s' hs hs' => ?_
  have heq := apply_eq_of_map_eq hcore hs hs'
  have hnu : s'.nu = s.nu := congrArg StageCore.nu heq
  have hnx : s'.nx = s.nx := congrArg StageCore.nx heq
  have hdata : s'.data = s.data := congrArg StageCore.data heq
  have hnc : s'.nc = 0 := by
    rw [StageState.nc, hdata]
    exact hrows s (List.mem_of_getElem? hs)
  rw [StageState.condensed_hess_form (hswept.chained k s' hs') (hf.hess k s' hs'), hnc,
    range_zero, sum_empty, add_zero, hnu, hnx, hdata]
  refine quadForm_congr _ fun i hi => ?_
  rw [vectors_toTrajectory hw hl hs hi]

/-- **A point without residuals is the unique minimizer**, if a horizon has no rows, its Hessians
are symmetric and the backward sweep at the point needs no shift. -/
theorem Workspace.uniqueMinimizer [ExactRoots K] [IsStrictOrderedRing K]
    (hint : ∀ s ∈ w.stages, s.Interior) (hshift : ∀ k, w.sweep.shiftAt k = 0) :
    h.UniqueMinimizer w.toTrajectory := by
  have hcore := sweep_core w
  have hf := factorized_sweep hok
  have hswept := horizonShaped_sweep hw
  have hsymm' := hf.condensedSymmetric hswept.chained (symmetric_of_core hcore (hsymm.hess hl))
  have hl' := (map_fixed_of_base (map_base_of_core hcore)).trans hl
  -- without shifts nothing is added to the forms
  have hunshifted : ∀ d : Nat → Nat → K, indexedSum w.sweep.stages (fun k s =>
      quadForm s.condensed.hess.get (s.nu + s.nx) (d k) +
        (w.sweep.shiftAt? k).getD 0 * sumSquares s.nu (d k)) =
      indexedSum w.sweep.stages fun k s =>
        quadForm s.condensed.hess.get (s.nu + s.nx) (d k) := by
    intro d
    have hzero : ∀ k, (w.sweep.shiftAt? k).getD 0 = 0 := hshift
    simp only [hzero, zero_mul, add_zero]
  have hfeasible : h.Feasible w.toTrajectory := Horizon.feasibleWithin_zero.1
    (feasibleWithin he hw hl hint (congrArg ResidualNorms.dyn hnorms).le
      (congrArg ResidualNorms.ineq hnorms).le)
  refine ⟨hfeasible, fun z hz => ?_, fun z hz hsame => ?_⟩
  · have hexcess := objective_excess_swept hsymm he hw hl hrows hnorms hok hz
    have hform := hf.sweptChain.form_nonneg hswept hsymm' (hfeasible.homogeneous hl' hz)
    rw [hunshifted] at hform
    linarith
  · have hexcess := objective_excess_swept hsymm he hw hl hrows hnorms hok hz
    have hform : indexedSum w.sweep.stages (fun k s => quadForm s.condensed.hess.get
        (s.nu + s.nx) fun i => h.vectors z k i - h.vectors w.toTrajectory k i) = 0 := by
      linarith
    have hstill := hf.sweptChain.eq_zero_of_form hswept hsymm' (hfeasible.homogeneous hl' hz)
      ((hunshifted _).trans hform)
    refine Horizon.eq_of_vectors hfeasible.fits hz.fits fun k d hd i hi => ?_
    obtain ⟨s, hs, heq⟩ := exists_state_of_fixed hl' hd
    obtain ⟨hnu, hnx, _⟩ := StageState.eq_of_fixed heq
    exact sub_eq_zero.1 (hstill k s hs i (by omega))

end Workspace

end StagedQP
