import StagedQP.Proofs.StageChain

/-!
# Residuals, stage by stage

`Workspace.residuals` evaluates every stage on its own and then couples the stages along the chain.
Here the result is read off at an index: a stage is coupled with the multipliers of the stage before
and the states of the stage after. It follows that residuals are a function of sizes, data and
point, whatever else a workspace holds.

Nothing here uses a law of arithmetic.

## Main results

* `Workspace.residuals_getElem?` — the residuals of a stage.
* `Workspace.residuals_core_of_base` — residuals depend on sizes, data and point alone.
* `Workspace.chained_residuals` — they have the sizes that were allocated for them.
-/

namespace StagedQP

variable {α : Type} [Scalar α]

/-! ## Coupling at an index -/

/-- The stage before stage `k`; `before` is the stage before the first. -/
def stageBefore (before : Option (StageState α)) (l : List (StageState α)) :
    Nat → Option (StageState α)
  | 0 => before
  | k + 1 => l[k]?

omit [Scalar α] in
theorem stageBefore_map (f : StageState α → StageState α) (l : List (StageState α)) (k : Nat) :
    stageBefore none (l.map f) k = (stageBefore none l k).map f := by
  cases k with
  | zero => rfl
  | succ k => exact List.getElem?_map ..

namespace StageState

/-- A stage coupled with its neighbours. -/
def coupled (before after : Option (StageState α)) (s : StageState α) : StageState α :=
  after.elim (before.elim s fun b => s.coupleBefore b.point.pi)
    fun next => (before.elim s fun b => s.coupleBefore b.point.pi).coupleAfter next.states

/-- The residuals of a stage with these neighbours. -/
def evaluated (before after : Option (StageState α)) (s : StageState α) : StageState α :=
  s.ownResiduals.coupled before after

end StageState

namespace Workspace

theorem couple_getElem? (l : List (StageState α)) : ∀ (before : Option (StageState α)) (k : Nat),
    (couple before l)[k]? = l[k]?.map (StageState.coupled (stageBefore before l k) l[k + 1]?) := by
  induction l with
  | nil => intro before k; rfl
  | cons s rest ih =>
      intro before k
      cases k with
      | zero =>
          cases before with
          | none =>
              cases rest with
              | nil => rfl
              | cons next rest => rfl
          | some b =>
              cases rest with
              | nil => rfl
              | cons next rest => rfl
      | succ k =>
          have hbefore : stageBefore (some s) rest k = stageBefore before (s :: rest) (k + 1) := by
            cases k with
            | zero => rfl
            | succ k => rfl
          show (couple (some s) rest)[k]? = _
          rw [ih, hbefore]
          rfl

/-- The residuals of the current point at a stage. -/
theorem residuals_getElem? (w : Workspace α) (k : Nat) : w.residuals.stages[k]? =
    w.stages[k]?.map (StageState.evaluated (stageBefore none w.stages k) w.stages[k + 1]?) := by
  have hcoupled : ∀ (before after : Option (StageState α)) (s : StageState α),
      s.ownResiduals.coupled (before.map StageState.ownResiduals)
        (after.map StageState.ownResiduals) = s.evaluated before after := by
    intro before after s
    cases before with
    | none =>
        cases after with
        | none => rfl
        | some a => rfl
    | some b =>
        cases after with
        | none => rfl
        | some a => rfl
  show (couple none (w.stages.map StageState.ownResiduals))[k]? = _
  rw [couple_getElem?, stageBefore_map, List.getElem?_map, List.getElem?_map, Option.map_map]
  congr 1
  funext s
  exact hcoupled _ _ s

end Workspace

/-! ## What residuals depend on -/

/-- Sizes, data and point of a stage: what residuals are evaluated from. -/
def StageState.base (s : StageState α) : (Nat × Nat) × PackedStage α × StagePoint α :=
  ((s.nx, s.nu), s.data, s.point)

omit [Scalar α] in
theorem map_base_of_core {l l' : List (StageState α)}
    (h : l'.map StageState.core = l.map StageState.core) :
    l'.map StageState.base = l.map StageState.base :=
  map_map_eq (f := StageState.core) (g := fun c => ((c.nx, c.nu), c.data, c.point)) h

namespace StageState

theorem base_evaluated (before after : Option (StageState α)) (s : StageState α) :
    (s.evaluated before after).base = s.base := by
  cases before with
  | none =>
      cases after with
      | none => rfl
      | some a => rfl
  | some b =>
      cases after with
      | none => rfl
      | some a => rfl

theorem evaluated_dyn (before after : Option (StageState α)) (s : StageState α) :
    (s.evaluated before after).residual.dyn = after.elim s.ownResiduals.residual.dyn
      fun next => s.ownResiduals.residual.dyn.sub next.states := by
  cases before with
  | none =>
      cases after with
      | none => rfl
      | some a => rfl
  | some b =>
      cases after with
      | none => rfl
      | some a => rfl

theorem evaluated_ineq (before after : Option (StageState α)) (s : StageState α) :
    (s.evaluated before after).residual.ineq = s.ownResiduals.residual.ineq := by
  cases before with
  | none =>
      cases after with
      | none => rfl
      | some a => rfl
  | some b =>
      cases after with
      | none => rfl
      | some a => rfl

theorem evaluated_stat (before after : Option (StageState α)) (s : StageState α) :
    (s.evaluated before after).residual.stat = before.elim s.ownResiduals.residual.stat
      fun b => (s.ownResiduals.coupleBefore b.point.pi).residual.stat := by
  cases before with
  | none =>
      cases after with
      | none => rfl
      | some a => rfl
  | some b =>
      cases after with
      | none => rfl
      | some a => rfl

theorem evaluated_direction (before after : Option (StageState α)) (s : StageState α) :
    (s.evaluated before after).direction = s.direction := by
  cases before with
  | none =>
      cases after with
      | none => rfl
      | some a => rfl
  | some b =>
      cases after with
      | none => rfl
      | some a => rfl

theorem core_coupleBefore {s s' : StageState α} (h : s'.core = s.core) (pi : Vec α) :
    (s'.coupleBefore pi).core = (s.coupleBefore pi).core := by
  simp only [core, StageCore.mk.injEq] at h ⊢
  obtain ⟨hnx, hnu, hdata, hpoint, hstat, hdyn, hineq⟩ := h
  refine ⟨hnx, hnu, hdata, hpoint, ?_, hdyn, hineq⟩
  simp only [coupleBefore, hstat, hnu]

theorem core_coupleAfter {s s' : StageState α} (h : s'.core = s.core) (states : Vec α) :
    (s'.coupleAfter states).core = (s.coupleAfter states).core := by
  simp only [core, StageCore.mk.injEq] at h ⊢
  obtain ⟨hnx, hnu, hdata, hpoint, hstat, hdyn, hineq⟩ := h
  refine ⟨hnx, hnu, hdata, hpoint, hstat, ?_, hineq⟩
  simp only [coupleAfter, hdyn]

/-- The residuals of a stage are a function of the sizes, data and point of the stage, the
multipliers of the stage before and the states of the stage after. -/
theorem core_evaluated {before before' after after' : Option (StageState α)} {s s' : StageState α}
    (hs : s'.base = s.base)
    (hb : before'.map (fun b => b.point.pi) = before.map fun b => b.point.pi)
    (ha : after'.map StageState.states = after.map StageState.states) :
    (s'.evaluated before' after').core = (s.evaluated before after).core := by
  have hnx : s'.nx = s.nx := congrArg (fun p => p.1.1) hs
  have hnu : s'.nu = s.nu := congrArg (fun p => p.1.2) hs
  have hdata : s'.data = s.data := congrArg (fun p => p.2.1) hs
  have hpoint : s'.point = s.point := congrArg (fun p => p.2.2) hs
  have hown : s'.ownResiduals.core = s.ownResiduals.core := by
    simp only [core, ownResiduals, hnx, hnu, hdata, hpoint]
  have hbefore :
      (before'.elim s'.ownResiduals fun b => s'.ownResiduals.coupleBefore b.point.pi).core =
        (before.elim s.ownResiduals fun b => s.ownResiduals.coupleBefore b.point.pi).core := by
    cases before' with
    | none =>
        cases before with
        | none => exact hown
        | some b => cases hb
    | some b' =>
        cases before with
        | none => cases hb
        | some b =>
            have hpi : b'.point.pi = b.point.pi := Option.some.inj hb
            rw [Option.elim_some, Option.elim_some, hpi]
            exact core_coupleBefore hown b.point.pi
  cases after' with
  | none =>
      cases after with
      | none => exact hbefore
      | some a => cases ha
  | some a' =>
      cases after with
      | none => cases ha
      | some a =>
          have hstates : a'.states = a.states := Option.some.inj ha
          rw [evaluated, evaluated, coupled, coupled, Option.elim_some, Option.elim_some, hstates]
          exact core_coupleAfter hbefore a.states

end StageState

namespace Workspace

theorem residuals_base (w : Workspace α) :
    w.residuals.stages.map StageState.base = w.stages.map StageState.base := by
  refine List.ext_getElem? fun k => ?_
  rw [List.getElem?_map, List.getElem?_map, residuals_getElem?, Option.map_map]
  congr 1
  funext s
  exact StageState.base_evaluated _ _ s

/-- Residuals depend on sizes, data and point alone. -/
theorem residuals_core_of_base {w w' : Workspace α}
    (h : w'.stages.map StageState.base = w.stages.map StageState.base) :
    w'.residuals.stages.map StageState.core = w.residuals.stages.map StageState.core := by
  have hget : ∀ k : Nat,
      w'.stages[k]?.map StageState.base = w.stages[k]?.map StageState.base := by
    intro k
    rw [← List.getElem?_map, h, List.getElem?_map]
  have hpi : ∀ k, (stageBefore none w'.stages k).map (fun b => b.point.pi) =
      (stageBefore none w.stages k).map fun b => b.point.pi := by
    intro k
    cases k with
    | zero => rfl
    | succ k =>
        have hk := congrArg (Option.map fun b => b.2.2.pi) (hget k)
        rwa [Option.map_map, Option.map_map] at hk
  have hstates : ∀ k : Nat,
      w'.stages[k]?.map StageState.states = w.stages[k]?.map StageState.states := by
    intro k
    have hk := congrArg (Option.map fun b => b.2.2.v.slice b.1.2 b.1.1) (hget k)
    rwa [Option.map_map, Option.map_map] at hk
  refine List.ext_getElem? fun k => ?_
  rw [List.getElem?_map, List.getElem?_map, residuals_getElem?, residuals_getElem?]
  have hk := hget k
  cases hs' : w'.stages[k]? with
  | none =>
      cases hs : w.stages[k]? with
      | none => rfl
      | some s =>
          rw [hs', hs] at hk
          cases hk
  | some s' =>
      cases hs : w.stages[k]? with
      | none =>
          rw [hs', hs] at hk
          cases hk
      | some s =>
          rw [hs', hs] at hk
          exact congrArg some
            (StageState.core_evaluated (Option.some.inj hk) (hpi k) (hstates (k + 1)))

/-! ## Sizes -/

/-- Residuals have the sizes that were allocated for them. -/
theorem chained_residuals {w : Workspace α} (h : Chained w.stages) :
    Chained w.residuals.stages := by
  have hnx : w.residuals.stages.map StageState.nx = w.stages.map StageState.nx :=
    map_map_eq (f := StageState.base) (g := fun b => b.1.1) (residuals_base w)
  refine h.of_stages hnx fun k s' hs' => ?_
  rw [residuals_getElem?] at hs'
  obtain ⟨s, hs, rfl⟩ := Option.map_eq_some_iff.1 hs'
  refine ⟨s, hs, fun n hshape => ?_⟩
  have hown : s.ownResiduals.Shaped n := by
    refine { hshape with stat := ?_, dyn := ?_, ineq_lo := ?_, ineq_up := ?_ }
    · show (Mat.subTrMulVec _ _ _).size = _
      rw [Mat.size_subTrMulVec, Mat.size_addTrMulVec, Mat.size_addMulVec]
      exact hshape.grad
    · exact (Mat.size_addMulVec ..).trans hshape.off
    · show ((Vec.sub _ _).sub _).size = _
      rw [Vec.size_sub, Vec.size_sub, Mat.size_mulVec]
      exact hshape.jac_rows
    · show ((Vec.sub _ _).sub _).size = _
      rw [Vec.size_sub, Vec.size_sub]
      exact hshape.bound_up
  have hbefore : ∀ pi, (s.ownResiduals.coupleBefore pi).Shaped n := by
    intro pi
    exact { hown with stat := (Vec.size_ofFn ..).trans hown.stat }
  have hafter : ∀ (t : StageState α) states, t.Shaped n → (t.coupleAfter states).Shaped n := by
    intro t states ht
    exact { ht with dyn := (Vec.size_sub ..).trans ht.dyn }
  rw [StageState.evaluated, StageState.coupled]
  cases stageBefore none w.stages k with
  | none =>
      cases w.stages[k + 1]? with
      | none => exact hown
      | some a => exact hafter _ _ hown
  | some b =>
      cases w.stages[k + 1]? with
      | none => exact hbefore _
      | some a => exact hafter _ _ (hbefore _)

end Workspace

end StagedQP
