import StagedQP.Proofs.DirectionSweep

/-!
# The phases of a step

A step factorizes, seeks the predictor, seeks the corrector and moves. The definitions below name
the workspace after each phase; `Workspace.step_of_swept` says that `Workspace.step` runs through
them, so that facts about a step can be stated phase by phase.

Up to the move, every phase keeps the point and its residuals, and both directions are sought on the
factorization made first: this is what the frames `predictor_ground` and `corrector_ground` state.

Nothing here uses a law of arithmetic.

## Main results

* `Workspace.step_of_swept`, `Workspace.step_of_failed` — a step by its phases.
* `Workspace.predictor_ground`, `Workspace.corrector_ground` — one factorization serves both.
* `Workspace.directed_predictor`, `Workspace.directed_corrector` — both are Newton directions.
* `Workspace.comp_predictor`, `Workspace.comp_corrector` — the products they aim at.
-/

namespace StagedQP

variable {α : Type} [Scalar α]

namespace Workspace

/-! ## The phases -/

/-- The factorization of a step. -/
def sweep (w : Workspace α) : Riccati.Sweep α :=
  Riccati.factorize (w.stages.map StageState.condenseHessian)

/-- The workspace with the predictor direction. -/
def predictor (w : Workspace α) : Workspace α :=
  { w with stages := newtonDirection (w.sweep.stages.map StageState.aimAtZero) }

/-- The workspace with the corrector direction for products `target`. -/
def corrector (w : Workspace α) (target : α) : Workspace α :=
  { w.predictor with
    stages := newtonDirection (w.predictor.stages.map (StageState.aimAtTarget target)) }

/-- The products that the corrector of a step aims at. -/
def target (w : Workspace α) (mu sigmaMin : α) : α := (w.predictor.predict mu sigmaMin).2.2 * mu

/-- The length of a step. -/
def alpha (w : Workspace α) (mu sigmaMin : α) : α :=
  (w.corrector (w.target mu sigmaMin)).stepLength

/-- The workspace after a step. -/
def moved (w : Workspace α) (mu sigmaMin : α) : Workspace α :=
  { w.corrector (w.target mu sigmaMin) with
    stages := (w.corrector (w.target mu sigmaMin)).stages.map
      (StageState.move (w.alpha mu sigmaMin)) }

/-- The record of a step. -/
def record (w : Workspace α) (mu sigmaMin : α) : StepStats α where
  sigma := (w.predictor.predict mu sigmaMin).2.2
  alphaAff := (w.predictor.predict mu sigmaMin).1
  muAff := (w.predictor.predict mu sigmaMin).2.1
  alpha := w.alpha mu sigmaMin
  mu := (w.moved mu sigmaMin).duality

theorem record_alpha (w : Workspace α) (mu sigmaMin : α) : (w.record mu sigmaMin).alpha =
    (w.corrector (w.target mu sigmaMin)).stepLength := by
  rw [record, alpha]

theorem record_mu (w : Workspace α) (mu sigmaMin : α) :
    (w.record mu sigmaMin).mu = (w.moved mu sigmaMin).duality := by
  rw [record]

/-- Whether or not there is something to center, the predictor is followed as far as it can be. -/
theorem record_alphaAff (w : Workspace α) (mu sigmaMin : α) :
    (w.record mu sigmaMin).alphaAff = (w.predictor.maxStep (some 1)).getD 1 := by
  rw [record, predict]
  split
  · rfl
  · rfl

theorem step_of_failed {w : Workspace α} {k : Nat} (h : w.sweep.failed = some k)
    (mu sigmaMin : α) : w.step mu sigmaMin =
      ⟨{ w with stages := w.sweep.stages }, w.sweep.warnings, .error k⟩ := by
  have h' : (Riccati.factorize (w.stages.map StageState.condenseHessian)).failed = some k := h
  rw [step]
  simp only [h']
  rfl

theorem step_of_swept {w : Workspace α} (h : w.sweep.failed = none) (mu sigmaMin : α) :
    w.step mu sigmaMin =
      ⟨w.moved mu sigmaMin, w.sweep.warnings, .ok (w.record mu sigmaMin)⟩ := by
  have h' : (Riccati.factorize (w.stages.map StageState.condenseHessian)).failed = none := h
  rw [step]
  simp only [h']
  rfl

/-- A step that was made: the factorization succeeded, and the phases say what came out. -/
theorem of_step_ok {w : Workspace α} {mu sigmaMin : α} {stats : StepStats α}
    (h : (w.step mu sigmaMin).outcome = .ok stats) : w.sweep.failed = none ∧
      (w.step mu sigmaMin).workspace = w.moved mu sigmaMin ∧
      (w.step mu sigmaMin).warnings = w.sweep.warnings ∧ stats = w.record mu sigmaMin := by
  cases hf : w.sweep.failed with
  | some k =>
      rw [step_of_failed hf] at h
      cases h
  | none =>
      rw [step_of_swept hf] at h ⊢
      exact ⟨rfl, rfl, rfl, (Except.ok.inj h).symm⟩

/-- A step that was not made: the workspace holds what the sweep got done. -/
theorem of_step_error {w : Workspace α} {mu sigmaMin : α} {k : Nat}
    (h : (w.step mu sigmaMin).outcome = .error k) :
    (w.step mu sigmaMin).workspace = { w with stages := w.sweep.stages } := by
  cases hf : w.sweep.failed with
  | some j => rw [step_of_failed hf]
  | none =>
      rw [step_of_swept hf] at h
      cases h

/-! ## What the phases leave alone -/

variable {w : Workspace α}

theorem sweep_core (w : Workspace α) :
    w.sweep.stages.map StageState.core = w.stages.map StageState.core := by
  rw [sweep, Riccati.factorize_core, List.map_map]
  rfl

theorem chained_condensed (h : HorizonShaped w.stages) :
    Chained (w.stages.map StageState.condenseHessian) :=
  h.chained.map _ (fun _ => rfl) fun _ _ => StageState.Shaped.condenseHessian

theorem horizonShaped_sweep (h : HorizonShaped w.stages) : HorizonShaped w.sweep.stages :=
  h.of_core (sweep_core w) (Riccati.factorize_chained (chained_condensed h))

omit [Scalar α] in
theorem first_aimed {l : List (StageState α)} (h : HorizonShaped l)
    (f : StageState α → StageState α) (hf : ∀ s, (f s).nx = s.nx) :
    ∀ s, (l.map f)[0]? = some s → s.nx = 0 := by
  intro s hs
  rw [List.getElem?_map] at hs
  obtain ⟨s₀, hs₀, rfl⟩ := Option.map_eq_some_iff.1 hs
  rw [hf]
  exact h.first s₀ hs₀

/-- The predictor is sought for the products as they are. -/
theorem predictor_aimed (h : HorizonShaped w.stages) :
    w.predictor.stages.map StageState.aimed =
      (w.sweep.stages.map StageState.aimAtZero).map StageState.aimed :=
  newtonDirection_aimed (first_aimed (horizonShaped_sweep h) _ fun _ => rfl)

theorem predictor_ground (h : HorizonShaped w.stages) :
    w.predictor.stages.map StageState.ground = w.sweep.stages.map StageState.ground := by
  have hframe := map_map_eq (f := StageState.aimed) (g := Prod.fst) (predictor_aimed h)
  rw [List.map_map] at hframe
  exact hframe

theorem horizonShaped_predictor (h : HorizonShaped w.stages) : HorizonShaped w.predictor.stages :=
  (horizonShaped_sweep h).of_ground (predictor_ground h)

/-- The corrector is sought for the target, with the predictor at hand. -/
theorem corrector_aimed (h : HorizonShaped w.stages) (target : α) :
    (w.corrector target).stages.map StageState.aimed =
      (w.predictor.stages.map (StageState.aimAtTarget target)).map StageState.aimed :=
  newtonDirection_aimed (first_aimed (horizonShaped_predictor h) _ fun _ => rfl)

theorem corrector_ground (h : HorizonShaped w.stages) (target : α) :
    (w.corrector target).stages.map StageState.ground = w.sweep.stages.map StageState.ground := by
  have hframe := map_map_eq (f := StageState.aimed) (g := Prod.fst) (corrector_aimed h target)
  rw [List.map_map] at hframe
  exact hframe.trans (predictor_ground h)

theorem horizonShaped_corrector (h : HorizonShaped w.stages) (target : α) :
    HorizonShaped (w.corrector target).stages :=
  (horizonShaped_sweep h).of_ground (corrector_ground h target)

theorem predictor_core (h : HorizonShaped w.stages) :
    w.predictor.stages.map StageState.core = w.stages.map StageState.core :=
  (map_core_of_ground (predictor_ground h)).trans (sweep_core w)

theorem corrector_core (h : HorizonShaped w.stages) (target : α) :
    (w.corrector target).stages.map StageState.core = w.stages.map StageState.core :=
  (map_core_of_ground (corrector_ground h target)).trans (sweep_core w)

/-! ## Both directions -/

theorem directed_predictor (h : HorizonShaped w.stages) : Directed w.predictor.stages :=
  directed_newtonDirection (first_aimed (horizonShaped_sweep h) _ fun _ => rfl)

theorem directed_corrector (h : HorizonShaped w.stages) (target : α) :
    Directed (w.corrector target).stages :=
  directed_newtonDirection (first_aimed (horizonShaped_predictor h) _ fun _ => rfl)

/-- Both directions rest on the factorization of the step. -/
theorem factorized_sweep (hok : w.sweep.failed = none) :
    Factorized w.sweep.shiftAt? w.sweep.stages := factorized_factorize hok

/-! ## Both right-hand sides -/

/-- Stages that a direction to the products as they are was sought for. -/
theorem comp_of_aimAtZero {l l₀ : List (StageState α)}
    (h : l.map StageState.aimed = (l₀.map StageState.aimAtZero).map StageState.aimed) {k : Nat}
    {s : StageState α} (hs : l[k]? = some s) : s.residual.comp = s.aimAtZero.residual.comp := by
  obtain ⟨s₁, hs₁, haimed⟩ := exists_getElem?_of_map_eq h hs
  rw [List.getElem?_map] at hs₁
  obtain ⟨s₂, _, rfl⟩ := Option.map_eq_some_iff.1 hs₁
  have hpoint : s.point = s₂.point := congrArg (fun p => p.1.1.point) haimed
  rw [show s.residual.comp = s₂.aimAtZero.residual.comp from congrArg Prod.snd haimed,
    StageState.aimAtZero, StageState.aimAtZero, hpoint]

/-- Stages that a direction to the target was sought for, with the predictor `l₀` at hand. -/
theorem comp_of_aimAtTarget {l l₀ : List (StageState α)} {target : α}
    (h : l.map StageState.aimed = (l₀.map (StageState.aimAtTarget target)).map StageState.aimed)
    {k : Nat} {s : StageState α} (hs : l[k]? = some s) : ∃ p, l₀[k]? = some p ∧
      s.core = p.core ∧ s.residual.comp = (p.aimAtTarget target).residual.comp := by
  obtain ⟨s₁, hs₁, haimed⟩ := exists_getElem?_of_map_eq h hs
  rw [List.getElem?_map] at hs₁
  obtain ⟨p, hp, rfl⟩ := Option.map_eq_some_iff.1 hs₁
  exact ⟨p, hp, congrArg (fun q => q.1.1) haimed, congrArg Prod.snd haimed⟩

theorem compShaped_of_aimAtZero {s : StageState α} {n : Nat} (hs : s.Shaped n)
    (h : s.residual.comp = s.aimAtZero.residual.comp) : s.CompShaped := by
  constructor
  · rw [h]
    exact (Vec.size_zipWith ..).trans hs.lam_lo
  · rw [h]
    exact (Vec.size_zipWith ..).trans hs.lam_up

theorem compShaped_of_aimAtTarget {s p : StageState α} {n : Nat} {target : α} (hp : p.Shaped n)
    (hcore : s.core = p.core) (h : s.residual.comp = (p.aimAtTarget target).residual.comp) :
    s.CompShaped := by
  have hnc : s.nc = p.nc := congrArg (fun c => c.data.bound.lo.size) hcore
  constructor
  · rw [h, hnc]
    exact (Vec.size_ofFn ..).trans hp.lam_lo
  · rw [h, hnc]
    exact (Vec.size_ofFn ..).trans hp.lam_up

/-- The predictor aims at the products as they are. -/
theorem comp_predictor (h : HorizonShaped w.stages) {k : Nat} {s : StageState α}
    (hs : w.predictor.stages[k]? = some s) :
    s.residual.comp = s.aimAtZero.residual.comp :=
  comp_of_aimAtZero (predictor_aimed h) hs

/-- The corrector aims at the target, with the second-order error of the predictor added. -/
theorem comp_corrector (h : HorizonShaped w.stages) {target : α} {k : Nat} {s : StageState α}
    (hs : (w.corrector target).stages[k]? = some s) : ∃ p, w.predictor.stages[k]? = some p ∧
      s.core = p.core ∧ s.residual.comp = (p.aimAtTarget target).residual.comp :=
  comp_of_aimAtTarget (corrector_aimed h target) hs

theorem compShaped_predictor (h : HorizonShaped w.stages) {k : Nat} {s : StageState α}
    (hs : w.predictor.stages[k]? = some s) : s.CompShaped :=
  compShaped_of_aimAtZero ((horizonShaped_predictor h).chained k s hs) (comp_predictor h hs)

theorem compShaped_corrector (h : HorizonShaped w.stages) {target : α} {k : Nat}
    {s : StageState α} (hs : (w.corrector target).stages[k]? = some s) : s.CompShaped := by
  obtain ⟨p, hp, hcore, hcomp⟩ := comp_corrector h hs
  exact compShaped_of_aimAtTarget ((horizonShaped_predictor h).chained k p hp) hcore hcomp

end Workspace

end StagedQP
