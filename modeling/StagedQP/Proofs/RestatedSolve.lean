import StagedQP.Proofs.IterateSequence
import StagedQP.Proofs.RestatedStage

/-!
# The way an inequality is written does not matter

Two horizons with the same cost and dynamics and the same inequality rows, written differently, are
solved side by side. At every stage the two workspaces hold the same point, up to the order of the
rows and up to which side of a row is the lower one. The sweep over the matrices reads the condensed
Hessians, in which no row is left, so both sweeps agree and fail together. The same holds of the
condensed gradients, so both directions of the stage vectors agree, and the slacks and multipliers
move along with their rows. Step lengths, centering and the duality measure are minima and sums over
all rows.

## Main results

* `Directed.restated` — two directions.
* `Workspace.Restated.step_outcome`, `Workspace.Restated.moved_points` — two steps.
* `restated_rows_solve_alike` — two solves.
-/

namespace StagedQP

/-! ## Two chains -/

/-- What is equal at all places of two lists is equal throughout. -/
theorem map_eq_of_forall₂ {β γ δ : Type} {R : β → γ → Prop} {f : β → δ} {g : γ → δ} {l : List β}
    {l' : List γ} (h : List.Forall₂ R l l') (hR : ∀ b c, R b c → g c = f b) :
    l'.map g = l.map f := by
  induction h with
  | nil => rfl
  | cons hhead _ ih => rw [List.map_cons, List.map_cons, hR _ _ hhead, ih]

/-- The same for lists zipped with a third. -/
theorem map_zip_of_map_eq {β γ δ ε : Type} {f : β → γ} {g : β × δ → ε}
    (hg : ∀ b b' d, f b' = f b → g (b', d) = g (b, d)) (l : List β) :
    ∀ (l' : List β) (ds : List δ), l'.map f = l.map f → (l'.zip ds).map g = (l.zip ds).map g := by
  induction l with
  | nil =>
      intro l' ds h
      obtain rfl := List.map_eq_nil_iff.1 h
      rfl
  | cons b l ih =>
      intro l' ds h
      cases l' with
      | nil => cases h
      | cons b' l' =>
          obtain ⟨hhead, htail⟩ := List.cons.inj h
          cases ds with
          | nil => rfl
          | cons d ds =>
              rw [List.zip_cons_cons, List.zip_cons_cons, List.map_cons, List.map_cons,
                hg b b' d hhead, ih l' ds htail]

variable {α : Type}

/-- Stages at one place of two chains have buffers of the same size and are related, for some way of
matching their rows. -/
def Paired (R : RowMap → StageState α → StageState α → Prop) (l l' : List (StageState α)) : Prop :=
  List.Forall₂ (fun s s' => ∃ m n, s.Shaped n ∧ s'.Shaped n ∧ R m s s') l l'

namespace Paired

variable {R : RowMap → StageState α → StageState α → Prop} {l l' : List (StageState α)}

theorem mono {R' : RowMap → StageState α → StageState α → Prop} (h : Paired R l l')
    (hR : ∀ m s s', R m s s' → R' m s s') : Paired R' l l' := by
  refine List.Forall₂.imp ?_ h
  rintro s s' ⟨m, n, hs, hs', hr⟩
  exact ⟨m, n, hs, hs', hR m s s' hr⟩

/-- What is equal at all pairs is equal throughout. -/
theorem map_eq {β : Type} {f : StageState α → β} (h : Paired R l l')
    (hf : ∀ m n s s', s.Shaped n → s'.Shaped n → R m s s' → f s' = f s) :
    l'.map f = l.map f := by
  refine map_eq_of_forall₂ h ?_
  rintro s s' ⟨m, n, hs, hs', hr⟩
  exact hf m n s s' hs hs' hr

/-- What holds of both or of neither at all pairs holds throughout both chains or neither. -/
theorem forall_iff {P : StageState α → Prop} (h : Paired R l l')
    (hP : ∀ m n s s', s.Shaped n → s'.Shaped n → R m s s' → (P s' ↔ P s)) :
    (∀ s ∈ l', P s) ↔ ∀ s ∈ l, P s := by
  induction h with
  | nil => exact Iff.rfl
  | cons hhead _ ih =>
      obtain ⟨m, n, hs, hs', hr⟩ := hhead
      rw [List.forall_mem_cons, List.forall_mem_cons, hP m n _ _ hs hs' hr, ih]

/-- A stage of the second chain has its counterpart in the first. -/
theorem exists_getElem? (h : Paired R l l') {k : Nat} {s' : StageState α}
    (hs' : l'[k]? = some s') :
    ∃ s, l[k]? = some s ∧ ∃ m n, s.Shaped n ∧ s'.Shaped n ∧ R m s s' := by
  induction h generalizing k with
  | nil => cases hs'
  | cons hhead _ ih =>
      cases k with
      | zero =>
          obtain rfl := Option.some.inj hs'
          exact ⟨_, rfl, hhead⟩
      | succ k => exact ih hs'

/-- Two chains of one length, in buffers that fit, are paired if their stages are. -/
theorem of_chained (hl : Chained l) (hl' : Chained l')
    (hnx : l'.map StageState.nx = l.map StageState.nx)
    (hR : ∀ (k : Nat) (s s' : StageState α), l[k]? = some s → l'[k]? = some s' → ∃ m, R m s s') :
    Paired R l l' := by
  have hlen : l.length = l'.length := by
    simpa only [List.length_map] using (congrArg List.length hnx).symm
  refine List.forall₂_iff_get.2 ⟨hlen, fun k hk hk' => ?_⟩
  have hs := List.getElem?_eq_getElem hk
  have hs' := List.getElem?_eq_getElem hk'
  obtain ⟨m, hr⟩ := hR k _ _ hs hs'
  refine ⟨m, nextNx l k, hl k _ hs, ?_, hr⟩
  rw [← nextNx_of_map_eq hnx]
  exact hl' k _ hs'

end Paired

variable {K : Type} [Field K] [LinearOrder K] [SquareRoot K]

section Chain

open StageState

variable {l l' : List (StageState K)}

omit [LinearOrder K] [SquareRoot K] in
theorem Paired.map_nx (h : Paired SamePoint l l') : l'.map StageState.nx = l.map StageState.nx :=
  h.map_eq fun _ _ _ _ _ _ hr => hr.nx

/-- Two directions on the same factors, for right-hand sides that are the same row by row, are the
same row by row. -/
theorem Directed.restated (h : Directed l) (h' : Directed l') (hl : HorizonShaped l)
    (hl' : HorizonShaped l') (hcomp : ∀ s ∈ l, s.CompShaped) (hcomp' : ∀ s ∈ l', s.CompShaped)
    (hfactors : l'.map StageState.factors = l.map StageState.factors) (haim : Paired SameAim l l') :
    l'.map StageState.posed = l.map StageState.posed ∧ Paired SameDirection l l' := by
  have hpoint : Paired SamePoint l l' := haim.mono fun _ _ _ hr => hr.toSamePoint
  have hposed : l'.map StageState.posed = l.map StageState.posed := by
    refine List.ext_getElem? fun k => ?_
    rw [List.getElem?_map, List.getElem?_map]
    cases hs' : l'[k]? with
    | none => rw [getElem?_eq_none_of_map_eq hfactors hs']
    | some s' =>
        obtain ⟨s, hs, m, n, hshape, hshape', hr⟩ := haim.exists_getElem? hs'
        have hgrad : s'.condensed.grad = s.condensed.grad := by
          rw [h'.condensed k s' hs', h.condensed k s hs]
          exact hr.condensed_grad hshape hshape' (hcomp s (List.mem_of_getElem? hs))
            (hcomp' s' (List.mem_of_getElem? hs'))
        rw [hs, Option.map_some, Option.map_some, StageState.posed, StageState.posed, hgrad, hr.nx,
          hr.nu, hr.matrix, hr.dyn, apply_eq_of_map_eq hfactors hs hs']
  refine ⟨hposed, .of_chained hl.chained hl'.chained hpoint.map_nx fun k s s' hs hs' => ?_⟩
  obtain ⟨s₁, hs₁, m, n, hshape, hshape', hr⟩ := haim.exists_getElem? hs'
  obtain rfl := Option.some.inj (hs.symm.trans hs₁)
  exact ⟨m, hr.direction hshape hshape' (hcomp s (List.mem_of_getElem? hs))
    (hcomp' s' (List.mem_of_getElem? hs')) (h.agree_dv h' hposed hl.last hs hs')
    (h.slack k s hs) (h'.slack k s' hs') (h.multiplier k s hs) (h'.multiplier k s' hs')⟩

end Chain

/-! ## Two workspaces -/

namespace Workspace

open StageState

variable {w w' : Workspace K}

omit [LinearOrder K] [SquareRoot K] in
theorem pairs_of_restated (h : Paired SamePoint w.stages w'.stages) : w'.pairs = w.pairs := by
  rw [pairs, pairs, h.map_eq fun _ _ s s' _ _ hr => congrArg (2 * ·) hr.nc]

/-- The duality measure is a sum over all rows. -/
theorem duality_of_restated (h : Paired SamePoint w.stages w'.stages) : w'.duality = w.duality := by
  rw [duality, duality, pairs_of_restated h, foldl_add_eq_sum, foldl_add_eq_sum,
    h.map_eq fun _ _ _ _ hs hs' hr => hr.products_eq hs hs']

/-- Norms are maxima over all rows. -/
theorem residualNorms_of_restated [IsStrictOrderedRing K]
    (h : Paired SameCore w.stages w'.stages) : w'.residualNorms = w.residualNorms := by
  have hstat : w'.residualNorms.stat = w.residualNorms.stat := eq_of_forall_ge_iff fun b => by
    rw [norms_stat_le_iff, norms_stat_le_iff,
      h.forall_iff fun _ _ s s' _ _ hr => by rw [hr.stat]]
  have hdyn : w'.residualNorms.dyn = w.residualNorms.dyn := eq_of_forall_ge_iff fun b => by
    rw [norms_dyn_le_iff, norms_dyn_le_iff, h.forall_iff fun _ _ s s' _ _ hr => by rw [hr.dyn]]
  have hineq : w'.residualNorms.ineq = w.residualNorms.ineq := eq_of_forall_ge_iff fun b => by
    rw [norms_ineq_le_iff, norms_ineq_le_iff]
    exact and_congr_right fun hb => h.forall_iff fun _ _ s s' hs hs' hr => hr.ineq_norms hs hs' hb
  show (⟨w'.residualNorms.stat, w'.residualNorms.dyn, w'.residualNorms.ineq⟩ : ResidualNorms K) = _
  rw [hstat, hdyn, hineq]

section Direction

variable [IsStrictOrderedRing K] (h : Paired SameDirection w.stages w'.stages)

include h

/-- The limit of a step is a minimum over all rows. -/
theorem maxStep_of_restated (cap : Option K) : w'.maxStep cap = w.maxStep cap := by
  refine eq_of_allows_iff fun a => ?_
  rw [allows_maxStep, allows_maxStep]
  exact and_congr_right fun _ => h.forall_iff fun _ _ _ _ hs hs' hr => hr.passes_iff hs hs' a

theorem stepLength_of_restated : w'.stepLength = w.stepLength := by
  rw [stepLength, stepLength, maxStep_of_restated h]

/-- Both predictors lead as far, to the same duality measure. -/
theorem predict_of_restated (mu sigmaMin : K) : w'.predict mu sigmaMin = w.predict mu sigmaMin := by
  have hpairs : w'.pairs = w.pairs := pairs_of_restated (h.mono fun _ _ _ hr => hr.toSamePoint)
  have htrial : ∀ a, w'.trialDuality a = w.trialDuality a := by
    intro a
    rw [trialDuality, trialDuality, hpairs, foldl_add_eq_sum, foldl_add_eq_sum,
      h.map_eq fun _ _ _ _ hs hs' hr => hr.trialProducts_eq hs hs' a]
  simp only [predict, hpairs, maxStep_of_restated h, htrial]

end Direction

/-- Two workspaces that hold one point of two horizons with the same rows, written differently. -/
structure Restated (w w' : Workspace K) : Prop where
  /-- The first is settled. -/
  left : w.Settled
  /-- So is the second. -/
  right : w'.Settled
  /-- Sizes, data and point of the stages. -/
  points : Paired SamePoint w.stages w'.stages
  /-- The records. -/
  stats : w'.stats = w.stats

/-- The residuals are the same. -/
theorem Restated.core_residuals (h : w.Restated w') :
    Paired SameCore w.residuals.stages w'.residuals.stages := by
  have hnx : ∀ v : Workspace K, v.residuals.stages.map StageState.nx = v.stages.map StageState.nx :=
    fun v => map_map_eq (f := StageState.base) (g := fun b => b.1.1) (residuals_base v)
  refine .of_chained (chained_residuals h.left.shaped.chained)
    (chained_residuals h.right.shaped.chained) ?_ fun k r r' hr hr' => ?_
  · rw [hnx, hnx, h.points.map_nx]
  · rw [residuals_getElem?] at hr hr'
    obtain ⟨s, hs, rfl⟩ := Option.map_eq_some_iff.1 hr
    obtain ⟨s', hs', rfl⟩ := Option.map_eq_some_iff.1 hr'
    obtain ⟨s₁, hs₁, m, n, hshape, hshape', hsame⟩ := h.points.exists_getElem? hs'
    obtain rfl := Option.some.inj (hs.symm.trans hs₁)
    have hpi := h.points.map_eq (f := fun s => s.point.pi) fun _ _ _ _ _ _ hp => hp.pi
    have hstates := h.points.map_eq (f := StageState.states) fun _ _ a a' _ _ hp => by
      rw [StageState.states, StageState.states, hp.v, hp.nu, hp.nx]
    have hbefore : (stageBefore none w'.stages k).map (fun b => b.point.pi) =
        (stageBefore none w.stages k).map fun b => b.point.pi := by
      cases k with
      | zero => rfl
      | succ k =>
          have hk := congrArg (fun l => l[k]?) hpi
          rwa [List.getElem?_map, List.getElem?_map] at hk
    have hafter : w'.stages[k + 1]?.map StageState.states =
        w.stages[k + 1]?.map StageState.states := by
      have hk := congrArg (fun l => l[k + 1]?) hstates
      rwa [List.getElem?_map, List.getElem?_map] at hk
    exact ⟨m, hsame.evaluated hshape hshape' hbefore hafter⟩

theorem Restated.residuals (h : w.Restated w') : w.residuals.Restated w'.residuals where
  left := h.left.residuals
  right := h.right.residuals
  points := h.core_residuals.mono fun _ _ _ hr => hr.toSamePoint
  stats := h.stats

/-! ## One step -/

section Step

variable (h : w.Restated w')

include h

/-- Both workspaces are swept alike: no row is left in the condensed Hessians. -/
theorem Restated.sweep : w.sweep.Agrees w'.sweep := by
  have houtline : (w'.stages.map condenseHessian).map outline =
      (w.stages.map condenseHessian).map outline := by
    rw [List.map_map, List.map_map]
    refine h.points.map_eq fun m n s s' hs hs' hr => ?_
    show ((s'.nx, s'.nu), s'.data.dyn, s'.condenseHessian.condensed.hess) =
      ((s.nx, s.nu), s.data.dyn, s.condenseHessian.condensed.hess)
    rw [hr.nx, hr.nu, hr.matrix, hr.condensed_hess hs hs']
  refine Riccati.agree_factorizeFrom _ _ 0 houtline h.left.condensed_tidy h.right.condensed_tidy
    fun k s hs hnone => ?_
  rw [List.getElem?_map] at hs hnone
  obtain ⟨s₀, hs₀, rfl⟩ := Option.map_eq_some_iff.1 hs
  exact h.left.shaped.last k s₀ hs₀ (Option.map_eq_none_iff.1 hnone)

variable (hcore : Paired SameCore w.stages w'.stages)

include hcore

/-- What phases keep of the stages stays the same row by row. -/
theorem Restated.core_of_frame {l l' : List (StageState K)}
    (hl : l.map StageState.core = w.stages.map StageState.core)
    (hl' : l'.map StageState.core = w'.stages.map StageState.core) (hshaped : Chained l)
    (hshaped' : Chained l') : Paired SameCore l l' := by
  refine .of_chained hshaped hshaped' ?_ fun k s s' hs hs' => ?_
  · rw [map_nx_of_core hl, map_nx_of_core hl', h.points.map_nx]
  · obtain ⟨s₀, hs₀, heq⟩ := exists_getElem?_of_map_eq hl hs
    obtain ⟨s₀', hs₀', heq'⟩ := exists_getElem?_of_map_eq hl' hs'
    obtain ⟨s₁, hs₁, m, n, _, _, hr⟩ := hcore.exists_getElem? hs₀'
    obtain rfl := Option.some.inj (hs₀.symm.trans hs₁)
    exact ⟨m, hr.of_core heq heq'⟩

variable (hok : w.sweep.failed = none)

include hok

/-- Directions on the factorizations of both workspaces are the same row by row, if their
right-hand sides are. -/
theorem Restated.directed {l l' : List (StageState K)} (hd : Directed l) (hd' : Directed l')
    (hg : l.map StageState.ground = w.sweep.stages.map StageState.ground)
    (hg' : l'.map StageState.ground = w'.sweep.stages.map StageState.ground)
    (hcomp : ∀ (k : Nat) (s : StageState K), l[k]? = some s → s.CompShaped)
    (hcomp' : ∀ (k : Nat) (s : StageState K), l'[k]? = some s → s.CompShaped)
    (haim : ∀ (k : Nat) (s s' : StageState K), l[k]? = some s → l'[k]? = some s' →
      ∀ m n, s.Shaped n → s'.Shaped n → SameCore m s s' → ∃ m, SameAim m s s') :
    l'.map StageState.posed = l.map StageState.posed ∧ Paired SameDirection l l' := by
  have hl := (horizonShaped_sweep h.left.shaped).of_ground hg
  have hl' := (horizonShaped_sweep h.right.shaped).of_ground hg'
  have hkept := h.core_of_frame hcore ((map_core_of_ground hg).trans (sweep_core w))
    ((map_core_of_ground hg').trans (sweep_core w')) hl.chained hl'.chained
  have hswept : l.map StageState.factors = w.sweep.stages.map StageState.factors :=
    map_map_eq (f := StageState.ground) (g := Prod.snd) hg
  have hswept' : l'.map StageState.factors = w'.sweep.stages.map StageState.factors :=
    map_map_eq (f := StageState.ground) (g := Prod.snd) hg'
  have hfactors : l'.map StageState.factors = l.map StageState.factors := by
    rw [hswept', hswept, h.sweep.factors hok]
  have hmem : ∀ {l : List (StageState K)}, (∀ (k : Nat) (s : StageState K), l[k]? = some s →
      s.CompShaped) → ∀ s ∈ l, s.CompShaped := by
    intro l hl s hs
    obtain ⟨k, hk⟩ := List.getElem?_of_mem hs
    exact hl k s hk
  refine hd.restated hd' hl hl' (hmem hcomp) (hmem hcomp') hfactors ?_
  refine .of_chained hl.chained hl'.chained
    (hkept.mono fun _ _ _ hr => hr.toSamePoint).map_nx fun k s s' hs hs' => ?_
  obtain ⟨s₁, hs₁, m, n, hshape, hshape', hr⟩ := hkept.exists_getElem? hs'
  obtain rfl := Option.some.inj (hs.symm.trans hs₁)
  exact haim k s s' hs hs' m n hshape hshape' hr

/-- Both predictors are the same row by row. -/
theorem Restated.predictor : Paired SameDirection w.predictor.stages w'.predictor.stages := by
  have hleft := h.left.shaped
  have hright := h.right.shaped
  refine (h.directed hcore hok (directed_predictor hleft) (directed_predictor hright)
    (predictor_ground hleft) (predictor_ground hright) (fun _ _ => compShaped_predictor hleft)
    (fun _ _ => compShaped_predictor hright) fun k s s' hs hs' m n hshape hshape' hr => ?_).2
  exact ⟨m, hr.aim_zero hshape hshape' (comp_predictor hleft hs) (comp_predictor hright hs')⟩

/-- Both correctors are the same row by row. -/
theorem Restated.corrector (target : K) :
    (w'.corrector target).stages.map StageState.posed =
        (w.corrector target).stages.map StageState.posed ∧
      Paired SameDirection (w.corrector target).stages (w'.corrector target).stages := by
  have hleft := h.left.shaped
  have hright := h.right.shaped
  have hpredictor := h.predictor hcore hok
  refine h.directed hcore hok (directed_corrector hleft target) (directed_corrector hright target)
    (corrector_ground hleft target) (corrector_ground hright target)
    (fun _ _ => compShaped_corrector hleft) (fun _ _ => compShaped_corrector hright)
    fun k s s' hs hs' _ _ _ _ _ => ?_
  obtain ⟨p, hp, heq, hc⟩ := comp_corrector hleft hs
  obtain ⟨p', hp', heq', hc'⟩ := comp_corrector hright hs'
  obtain ⟨p₁, hp₁, m, n, hshape, hshape', hr⟩ := hpredictor.exists_getElem? hp'
  obtain rfl := Option.some.inj (hp.symm.trans hp₁)
  exact ⟨m, hr.aim_target hshape hshape' heq heq' hc hc'⟩

variable [IsStrictOrderedRing K] (mu sigmaMin : K)

/-- Both steps have the same length. -/
theorem Restated.alpha : w'.alpha mu sigmaMin = w.alpha mu sigmaMin ∧
    w'.target mu sigmaMin = w.target mu sigmaMin := by
  have htarget : w'.target mu sigmaMin = w.target mu sigmaMin := by
    rw [Workspace.target, Workspace.target, predict_of_restated (h.predictor hcore hok)]
  refine ⟨?_, htarget⟩
  rw [Workspace.alpha, Workspace.alpha, htarget,
    stepLength_of_restated (h.corrector hcore hok (w.target mu sigmaMin)).2]

/-- Both workspaces move to the same point. -/
theorem Restated.moved_points :
    Paired SamePoint (w.moved mu sigmaMin).stages (w'.moved mu sigmaMin).stages := by
  obtain ⟨halpha, htarget⟩ := h.alpha hcore hok mu sigmaMin
  obtain ⟨hposed, hdirection⟩ := h.corrector hcore hok (w.target mu sigmaMin)
  have hshaped := horizonShaped_corrector h.left.shaped (w.target mu sigmaMin)
  have hdirected := directed_corrector h.left.shaped (w.target mu sigmaMin)
  have hdirected' := directed_corrector h.right.shaped (w.target mu sigmaMin)
  refine .of_chained (horizonShaped_moved h.left.shaped mu sigmaMin).chained
    (horizonShaped_moved h.right.shaped mu sigmaMin).chained ?_ fun k r r' hr hr' => ?_
  · have hnx : ∀ {v : Workspace K}, HorizonShaped v.stages →
        (v.moved mu sigmaMin).stages.map StageState.nx = v.stages.map StageState.nx :=
      fun hv => map_map_eq (f := StageState.fixed) (g := fun p => p.1.1)
        (moved_fixed hv mu sigmaMin)
    rw [hnx h.left.shaped, hnx h.right.shaped, h.points.map_nx]
  · rw [moved, List.getElem?_map] at hr hr'
    rw [htarget] at hr'
    obtain ⟨s, hs, rfl⟩ := Option.map_eq_some_iff.1 hr
    obtain ⟨s', hs', rfl⟩ := Option.map_eq_some_iff.1 hr'
    obtain ⟨s₁, hs₁, m, n, hshape, hshape', hsame⟩ := hdirection.exists_getElem? hs'
    obtain rfl := Option.some.inj (hs.symm.trans hs₁)
    rw [halpha]
    exact ⟨m, hsame.move hshape hshape' _ (hdirected.agree_pi hdirected' hposed hshaped.last
      hshaped.chained hs hs' hsame.pi _)⟩

/-- Both steps have the same record. -/
theorem Restated.record : w'.record mu sigmaMin = w.record mu sigmaMin := by
  rw [Workspace.record, Workspace.record, predict_of_restated (h.predictor hcore hok),
    (h.alpha hcore hok mu sigmaMin).1, duality_of_restated (h.moved_points hcore hok mu sigmaMin)]

omit hok

/-- Both steps come out alike. -/
theorem Restated.step_outcome : (w'.step mu sigmaMin).outcome = (w.step mu sigmaMin).outcome := by
  have hfailed := h.sweep.failed
  cases hf : w.sweep.failed with
  | some k => rw [step_of_failed hf, step_of_failed (hfailed.trans hf)]
  | none => rw [step_of_swept hf, step_of_swept (hfailed.trans hf), h.record hcore hf]

end Step

end Workspace

/-! ## Two runs -/

/-- Two states of runs that hold one point of two horizons with the same rows, written
differently. -/
structure RunState.Restated (r r' : RunState K) : Prop where
  /-- The workspaces. -/
  workspace : r.workspace.Restated r'.workspace
  /-- The duality measure. -/
  mu : r'.mu = r.mu
  /-- The number of steps. -/
  iters : r'.iters = r.iters

namespace RunState

variable [IsStrictOrderedRing K] {r r' : RunState K} (h : r.Restated r')
  (config : SolverConfig K)

include h

/-- Both loop heads are judged alike. -/
theorem Restated.verdict : r'.verdict config = r.verdict config := by
  rw [RunState.verdict, RunState.verdict, Workspace.gap, Workspace.gap, h.mu, h.iters,
    Workspace.residualNorms_of_restated h.workspace.core_residuals]

/-- Both attempts to step come out alike. -/
theorem Restated.attempt : (r'.attempt config).outcome = (r.attempt config).outcome := by
  rw [RunState.attempt, RunState.attempt, h.mu]
  exact h.workspace.residuals.step_outcome h.workspace.core_residuals r.mu config.sigmaMin

omit [IsStrictOrderedRing K] h in
theorem settled_next (hr : r.workspace.Settled) : (r.next config).workspace.Settled := by
  rw [RunState.next]
  exact (hr.residuals.moved r.mu config.sigmaMin).withStats _

/-- Both steps lead to states that are related again. -/
theorem Restated.next {stats : StepStats K} (hok : (r.attempt config).outcome = .ok stats) :
    (r.next config).Restated (r'.next config) := by
  have hswept := (accept_eq_next hok).1
  have hcore := h.workspace.core_residuals
  have hpoints := h.workspace.residuals.moved_points hcore hswept r.mu config.sigmaMin
  have hrecord := h.workspace.residuals.record hcore hswept r.mu config.sigmaMin
  refine ⟨⟨settled_next config h.workspace.left, settled_next config h.workspace.right, ?_, ?_⟩, ?_,
    ?_⟩
  · rw [next_stages, next_stages, h.mu]
    exact hpoints
  · rw [next_stats, next_stats, h.mu, h.workspace.stats, hrecord]
  · rw [next_mu, next_mu, h.mu, Workspace.duality_of_restated hpoints]
  · rw [RunState.next, RunState.next, h.iters]

end RunState

/-! ## Two solves -/

namespace Horizon.Restates

variable {h h' : Horizon K} (hh : h.Restates h')

include hh

/-- Stages at one place restate each other. -/
theorem stage {k : Nat} {d d' : Stage K} (hd : h.stages[k]? = some d)
    (hd' : h'.stages[k]? = some d') : d.Restates d' := by
  obtain ⟨hk, rfl⟩ := List.getElem?_eq_some_iff.1 hd
  obtain ⟨hk', rfl⟩ := List.getElem?_eq_some_iff.1 hd'
  exact (List.forall₂_iff_get.1 hh).2 k hk hk'

/-- The initial barrier is taken from the cost alone. -/
theorem startingBarrier_eq (config : SolverConfig K) :
    startingBarrier h' config = startingBarrier h config := by
  have hcost : h'.stages.map (fun d => (d.Q, d.S, d.R, d.q, d.r)) =
      h.stages.map fun d => (d.Q, d.S, d.R, d.q, d.r) := by
    refine map_eq_of_forall₂ hh fun d d' hd => ?_
    rw [hd.model.Q, hd.model.S, hd.model.R, hd.model.q, hd.model.r]
  have hbarrier : h'.defaultBarrier = h.defaultBarrier := by
    refine foldl_eq_of_map_eq hcost (fun acc d d' heq => ?_) _
    rw [show d'.Q = d.Q from congrArg (fun p => p.1) heq,
      show d'.S = d.S from congrArg (fun p => p.2.1) heq,
      show d'.R = d.R from congrArg (fun p => p.2.2.1) heq,
      show d'.q = d.q from congrArg (fun p => p.2.2.2.1) heq,
      show d'.r = d.r from congrArg (fun p => p.2.2.2.2) heq]
  rw [startingBarrier, startingBarrier, hbarrier]

/-- Workspaces for both have the same size in bytes. -/
theorem byteSize_eq (maxIter : Nat) :
    Workspace.byteSize h'.sizes maxIter = Workspace.byteSize h.sizes maxIter := by
  have hcounts : h'.sizes.map StageSizes.counts = h.sizes.map StageSizes.counts := by
    rw [sizes, sizes, List.map_map, List.map_map]
    refine map_eq_of_forall₂ hh fun d d' hd => ?_
    obtain ⟨m, hrows⟩ := hd.rows
    show (d'.sizes.nx, d'.sizes.nu, d'.sizes.nc) = (d.sizes.nx, d.sizes.nu, d.sizes.nc)
    rw [hd.model.sizes.1, hd.model.sizes.2, hrows.count]
  have hnext : nextStates h'.sizes = nextStates h.sizes := by
    have hnx := map_map_eq (f := StageSizes.counts) (g := Prod.fst) hcounts
    show (h'.sizes.drop 1).map (Prod.fst ∘ StageSizes.counts) ++ [0] =
      (h.sizes.drop 1).map (Prod.fst ∘ StageSizes.counts) ++ [0]
    rw [List.map_drop, List.map_drop, hnx]
  have hvalues : valueCounts h'.sizes = valueCounts h.sizes := by
    rw [valueCounts, valueCounts, hnext]
    refine map_zip_of_map_eq (f := StageSizes.counts) (fun d d' n heq => ?_) _ _ _ hcounts
    simp only [StageState.valueCount, StageSizes.nv,
      show d'.nx = d.nx from congrArg Prod.fst heq,
      show d'.nu = d.nu from congrArg (fun p => p.2.1) heq,
      show d'.nc = d.nc from congrArg (fun p => p.2.2) heq]
  rw [Workspace.byteSize, Workspace.byteSize, hvalues]

variable {config : SolverConfig K} {t : Trajectory K} {w w' : Workspace K}
  (hs : h.Solvable config t w) (hs' : h'.Solvable config t w') (hw : w.Settled)
  (hw' : w'.Settled)

include hs hs' hw hw'

/-- Both solves start from the same point. -/
theorem initial :
    (RunState.initial h config t w).Restated (RunState.initial h' config t w') := by
  have hleft := hw.initial hs
  have hright := hw'.initial hs'
  have hnx : (RunState.initial h' config t w').workspace.stages.map StageState.nx =
      (RunState.initial h config t w).workspace.stages.map StageState.nx := by
    have hfixed := congrArg (List.map fun p => p.1.1) (initial_fixed hs hw.allocated)
    have hfixed' := congrArg (List.map fun p => p.1.1) (initial_fixed hs' hw'.allocated)
    rw [List.map_map, List.map_map] at hfixed hfixed'
    exact hfixed'.trans ((map_eq_of_forall₂ hh fun d d' hd => hd.model.sizes.1).trans hfixed.symm)
  have hpoints : Paired StageState.SamePoint (RunState.initial h config t w).workspace.stages
      (RunState.initial h' config t w').workspace.stages := by
    refine .of_chained hleft.shaped.chained hright.shaped.chained hnx fun k s s' hk hk' => ?_
    have hshape := hleft.shaped.chained k s hk
    have hshape' := hright.shaped.chained k s' hk'
    obtain ⟨s₀, d, hd, halloc, _, rfl⟩ := hs.initial_getElem? hw.allocated hk
    obtain ⟨s₀', d', hd', halloc', _, rfl⟩ := hs'.initial_getElem? hw'.allocated hk'
    obtain ⟨hmodel, m, hrows⟩ := hh.stage hd hd'
    rw [nextNx_of_map_eq hnx] at hshape'
    rw [hh.startingBarrier_eq] at hshape' ⊢
    refine ⟨m, StageState.SameData.start ?_ hshape hshape' ?_⟩
    · exact StageState.sameData_of_fixed (h.consistent.shaped d (List.mem_of_getElem? hd))
        (h'.consistent.shaped d' (List.mem_of_getElem? hd')) hmodel hrows
        ⟨halloc.nx, halloc.nu, rfl⟩ ⟨halloc'.nx, halloc'.nu, rfl⟩
    · show startVector config t k d' = startVector config t k d
      rw [startVector, startVector, hmodel.nv]
  exact ⟨⟨hleft, hright, hpoints, rfl⟩, Workspace.duality_of_restated hpoints, rfl⟩

end Horizon.Restates

/-- The size in bytes that a solve reports. -/
theorem SolveResult.bytes_eq {h : Horizon K} {config : SolverConfig K} {t : Trajectory K}
    {w : Workspace K} {res : SolveResult K} (hres : h.solveIn config t w = .ok res) :
    res.report.bytes = Workspace.byteSize h.sizes w.maxIter := by
  have hs := Horizon.solvable_of_solveIn hres
  have hbytes : res.report.bytes = res.workspace.bytes := by
    obtain rfl := Except.ok.inj (hres.symm.trans hs.solveIn_eq)
    rfl
  rw [hbytes, Workspace.bytes, Workspace.solved_sizes hres, Workspace.solved_maxIter hres,
    hs.sizes_eq]

omit [Field K] [LinearOrder K] [SquareRoot K] in
/-- Reports on one point differ in nothing but the size of the workspace. -/
theorem SolveResult.SamePoint.report_eq {res res' : SolveResult K} (h : res.SamePoint res')
    (hbytes : res'.report.bytes = res.report.bytes) : res'.report = res.report := by
  show (⟨res'.report.iters, res'.report.mu, res'.report.norms, res'.report.bytes,
    res'.report.stats⟩ : SolveReport K) = _
  rw [h.iters, h.mu, h.norms, h.stats, hbytes]

/-- States that hold one point of both horizons are reported alike. -/
theorem SolveResult.From.samePoint_of_restated [IsStrictOrderedRing K] {config : SolverConfig K}
    {r r' : RunState K} {res res' : SolveResult K} (hfrom : res.From config r)
    (hfrom' : res'.From config r') (h : r.Restated r') : res.SamePoint res' where
  trajectory := by
    have hpoints := h.workspace.points
    rw [hfrom.trajectory, hfrom'.trajectory, Workspace.toTrajectory, Workspace.toTrajectory,
      List.map_dropLast, List.map_dropLast,
      hpoints.map_eq (f := StageState.states) fun _ _ s s' _ _ hp => by
        rw [StageState.states, StageState.states, hp.v, hp.nu, hp.nx],
      hpoints.map_eq (f := StageState.controls) fun _ _ s s' _ _ hp => by
        rw [StageState.controls, StageState.controls, hp.v, hp.nu]]
  iters := by rw [hfrom.iters, hfrom'.iters, h.iters]
  mu := by rw [hfrom.mu, hfrom'.mu, h.mu]
  norms := by
    rw [hfrom.norms, hfrom'.norms,
      Workspace.residualNorms_of_restated h.workspace.core_residuals]
  stats := by rw [hfrom.stats, hfrom'.stats, h.workspace.stats]

/-- **The way an inequality is written does not matter.** Take two horizons with the same cost and
dynamics whose stages have the same inequality rows: in another order, as box rows or as general
rows with a unit vector for coefficients, or negated with their bounds exchanged. From one starting
point and under one configuration, in workspaces that fit, both solves end alike: with the same
outcome, trajectory, number of steps, records, duality measure and residual norms. If the workspaces
were made for the same cap, the reports are equal, the size in bytes included. -/
theorem restated_rows_solve_alike [IsStrictOrderedRing K] {h h' : Horizon K}
    {config : SolverConfig K} {t : Trajectory K} {w w' : Workspace K} (hh : h.Restates h')
    (hs : h.Solvable config t w) (hs' : h'.Solvable config t w') (hw : w.Reached)
    (hw' : w'.Reached) :
    ∃ res res', h.solveIn config t w = .ok res ∧ h'.solveIn config t w' = .ok res' ∧
      res'.status = res.status ∧ res.SamePoint res' ∧
      (w'.maxIter = w.maxIter → res'.report = res.report) := by
  have hstart := hh.initial hs hs' (hw.settled hs.sizes_eq.symm) (hw'.settled hs'.sizes_eq.symm)
  obtain ⟨hstatus, r, r', hr, hends, hends'⟩ :=
    RunState.run_pair (R := RunState.Restated) (fun _ _ hr => hr.verdict config)
      (fun _ _ hr => hr.attempt config) (fun _ _ hr _ hok => hr.next config hok) config.maxIter _ _
      hstart
  have hsame := (SolveResult.from_conclude hends).samePoint_of_restated
    (SolveResult.from_conclude hends') hr
  refine ⟨_, _, hs.solveIn_eq, hs'.solveIn_eq, hstatus, hsame, fun hcap => ?_⟩
  apply hsame.report_eq
  rw [SolveResult.bytes_eq hs.solveIn_eq, SolveResult.bytes_eq hs'.solveIn_eq, hh.byteSize_eq,
    hcap]

/-- The raised step with the bounds of its control written as bounds on the negated control, in a
general row. -/
def Horizon.lowered : Horizon ℚ where
  templates := [⟨0, ((Stage.bounded 1 (1 / 2) 1).unbox 0).negate fun _ => true⟩, ⟨1, .final 1⟩]
  accepted := by
    have hcheck : (check [((Stage.bounded (1 : ℚ) (1 / 2) 1).unbox 0).negate fun _ => true,
      .final 1]).toOption.map (fun _ => true) = some true := by decide +kernel
    obtain ⟨_, hok, _⟩ := exists_of_evaluated hcheck
    exact hok

theorem Horizon.restates_lowered : Horizon.raised.Restates Horizon.lowered := by
  have hunbox : (Stage.bounded (1 : ℚ) (1 / 2) 1).Restates ((Stage.bounded 1 (1 / 2) 1).unbox 0) :=
    Stage.restates_unbox _ (Nat.zero_le _)
  have hnegate : ((Stage.bounded (1 : ℚ) (1 / 2) 1).unbox 0).Restates
      (((Stage.bounded 1 (1 / 2) 1).unbox 0).negate fun _ => true) :=
    Stage.restates_negate _ fun i hi => absurd hi (Nat.not_lt_zero i)
  show List.Forall₂ Stage.Restates [Stage.bounded (1 : ℚ) (1 / 2) 1, .final 1]
    [((Stage.bounded 1 (1 / 2) 1).unbox 0).negate fun _ => true, .final 1]
  exact .cons (hunbox.trans hnegate) (.cons (.refl _) .nil)

/-- For instance on the raised step: its solve succeeds after two steps, and so it does with the
bounds on the negated control, at the same trajectory and with the same report. -/
theorem restated_rows_solve_alike_raised : ∃ (w w' : Workspace ℚ) (res res' : SolveResult ℚ),
    Horizon.raised.solveIn .coarse (Trajectory.zeros Horizon.raised.sizes) w = .ok res ∧
    Horizon.lowered.solveIn .coarse (Trajectory.zeros Horizon.raised.sizes) w' = .ok res' ∧
    res'.status = .success ∧ res'.report.iters = 2 ∧ res'.trajectory = res.trajectory ∧
    res'.report = res.report := by
  obtain ⟨w, res, hnew, hres, hsuccess, hiters⟩ := Horizon.exists_solved_raised
  have hs := Horizon.solvable_of_solveIn hres
  have hzeros : (Trajectory.zeros Horizon.lowered.sizes : Trajectory ℚ) =
    Trajectory.zeros Horizon.raised.sizes := rfl
  obtain ⟨w', hnew', _, hs'⟩ := Horizon.lowered.exists_solvable hs.valid (by decide)
  rw [hzeros] at hs'
  obtain ⟨res₁, res', hres₁, hres', hstatus, hsame, hreport⟩ :=
    restated_rows_solve_alike Horizon.restates_lowered hs hs' (.new hnew) (.new hnew')
  obtain rfl := Except.ok.inj (hres.symm.trans hres₁)
  have hcap : w'.maxIter = w.maxIter := by
    rw [Workspace.maxIter_of? hnew', Workspace.maxIter_of? hnew]
  exact ⟨w, w', res, res', hres, hres', hstatus.trans hsuccess, hsame.iters.trans hiters,
    hsame.trajectory, hreport hcap⟩

end StagedQP
