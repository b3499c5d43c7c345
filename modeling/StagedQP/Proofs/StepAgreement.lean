import StagedQP.Proofs.ReachedWorkspace

/-!
# What a step depends on

Two workspaces that hold the same data and the same point may differ in every other buffer: in the
condensed systems, the recursion, the directions and the right-hand sides that earlier steps left.
A step reads many of those buffers, but each of them only after it has written it, so both
workspaces make the same step, or break down at the same stage with the same warnings.

Each phase is taken in turn. For the matrix sweep the agreement is by recursion on the chain; the
buffers that it reads without writing are the ones of which `StageState.Tidy` says what they hold.
For the two directions it follows from the local equations of `Directed`: they leave no choice but
one, the multipliers of the dynamics of the last stage, of which there are none.

Nothing here uses a law of arithmetic.

## Main results

* `Riccati.agree_factorizeFrom` — two sweeps of the same condensed Hessians.
* `Directed.agree` — two directions for the same right-hand side on the same factorization.
* `Workspace.Agrees.step` — two steps from the same point.
-/

namespace StagedQP

variable {α : Type} [Scalar α]

/-! ## The sweep over the matrices -/

/-- Sizes, data and the condensed Hessian of a stage. -/
def StageState.sweptFrom (s : StageState α) : ((Nat × Nat) × PackedStage α) × Mat α :=
  (s.fixed, s.condensed.hess)

/-- What the sweep over the matrices reads at a stage before it writes: sizes, the matrix of the
dynamics and the condensed Hessian. The inequality rows show in the latter alone. -/
def StageState.outline (s : StageState α) : (Nat × Nat) × Mat α × Mat α :=
  ((s.nx, s.nu), s.data.dyn, s.condensed.hess)

namespace Riccati

variable {s s' : StageState α}

/-- The gain and the cost-to-go are made from the total Hessian and the factor, or are empty. -/
theorem factors_closeLoop (hfrom : s'.outline = s.outline)
    (htotal : s'.riccati.total = s.riccati.total) (hfactor : s'.riccati.factor = s.riccati.factor)
    (hs : s.Tidy) (hs' : s'.Tidy) : s'.closeLoop.factors = s.closeLoop.factors := by
  have hhess : s'.condensed.hess = s.condensed.hess := congrArg (fun p => p.2.2) hfrom
  have hnx : s'.nx = s.nx := congrArg (fun p => p.1.1) hfrom
  have hnu : s'.nu = s.nu := congrArg (fun p => p.1.2) hfrom
  have hcross : s'.crossBlock = s.crossBlock := by
    rw [StageState.crossBlock, StageState.crossBlock, htotal, hnu, hnx]
  rw [StageState.closeLoop_eq, StageState.closeLoop_eq]
  simp only [StageState.factors, StageFactors.mk.injEq]
  refine ⟨hhess, htotal, ?_, ?_, hfactor⟩
  · by_cases h0 : s.nx = 0
    · rw [if_pos h0, if_pos (hnx.trans h0), hs.cost h0, hs'.cost (hnx.trans h0)]
    · rw [if_neg h0, if_neg (hnx ▸ h0), htotal, hfactor, hcross, hnu, hnx]
  · by_cases h0 : s.nx = 0
    · rw [if_pos h0, if_pos (hnx.trans h0), hs.gain (.inr h0), hs'.gain (.inr (hnx.trans h0)),
        hnu, hnx]
    · rw [if_neg h0, if_neg (hnx ▸ h0), hfactor, hcross]

/-- Two sweeps report the same, and leave the same factors unless they failed. -/
structure Sweep.Agrees (w w' : Sweep α) : Prop where
  /-- They fail at the same stage. -/
  failed : w'.failed = w.failed
  /-- They warn of the same shifts. -/
  warnings : w'.warnings = w.warnings
  /-- If they do not fail, they leave the same factors. -/
  factors : w.failed = none → w'.stages.map StageState.factors = w.stages.map StageState.factors

/-- One stage of the sweep. -/
theorem agree_factorStage (k : Nat) (hfrom : s'.outline = s.outline)
    (htotal : s'.riccati.total = s.riccati.total) (hs : s.Tidy) (hs' : s'.Tidy) :
    (factorStage k s).Agrees (factorStage k s') := by
  have hnu : s'.nu = s.nu := congrArg (fun p => p.1.2) hfrom
  have hblock : s'.controlBlock = s.controlBlock := by
    rw [StageState.controlBlock, StageState.controlBlock, htotal, hnu]
  by_cases h0 : s.nu = 0
  · have h0' : s'.nu = 0 := hnu.trans h0
    have hfactor : s'.riccati.factor = s.riccati.factor := by rw [hs.factor h0, hs'.factor h0']
    rw [factorStage_of_no_control h0, factorStage_of_no_control h0']
    exact ⟨rfl, rfl, fun _ => congrArg ([·]) (factors_closeLoop hfrom htotal hfactor hs hs')⟩
  · have h0' : s'.nu ≠ 0 := hnu ▸ h0
    cases hof : ControlFactor.of? s.controlBlock with
    | none =>
        rw [factorStage_of_none h0 hof, factorStage_of_none h0' (hblock ▸ hof)]
        exact ⟨rfl, rfl, fun h => absurd h (Option.some_ne_none k)⟩
    | some c =>
        rw [factorStage_of_some h0 hof, factorStage_of_some h0' (hblock ▸ hof)]
        exact ⟨rfl, rfl, fun _ => congrArg ([·]) (factors_closeLoop hfrom htotal rfl
          (hs.setFactor h0 _) (hs'.setFactor h0' _))⟩

/-- The last stage of the sweep: without controls, its gain and its factor are empty. -/
theorem factors_closeCost (hfrom : s'.outline = s.outline) (hnu : s.nu = 0) (hs : s.Tidy)
    (hs' : s'.Tidy) : s'.closeCost.factors = s.closeCost.factors := by
  have hhess : s'.condensed.hess = s.condensed.hess := congrArg (fun p => p.2.2) hfrom
  have hnx : s'.nx = s.nx := congrArg (fun p => p.1.1) hfrom
  have hnu' : s'.nu = s.nu := congrArg (fun p => p.1.2) hfrom
  simp only [StageState.factors, StageState.closeCost, StageFactors.mk.injEq]
  refine ⟨hhess, hhess, ?_, ?_, ?_⟩
  · rw [hhess, hnu', hnx]
  · rw [hs.gain (.inl hnu), hs'.gain (.inl (hnu'.trans hnu)), hnu', hnx]
  · rw [hs.factor hnu, hs'.factor (hnu'.trans hnu)]

/-- Two sweeps over more than one stage agree if they agree on the stages after the first. -/
theorem Sweep.Agrees.cons {k : Nat} {next next' : StageState α} {rest rest' : List (StageState α)}
    (hafter : (factorizeFrom (k + 1) (next :: rest)).Agrees
      (factorizeFrom (k + 1) (next' :: rest')))
    (hfrom : s'.outline = s.outline) (hs : s.Tidy) (hs' : s'.Tidy) :
    (factorizeFrom k (s :: next :: rest)).Agrees (factorizeFrom k (s' :: next' :: rest')) := by
  cases hf : (factorizeFrom (k + 1) (next :: rest)).failed with
  | some j =>
      rw [factorizeFrom_of_failed s hf, factorizeFrom_of_failed s' (hafter.failed.trans hf)]
      exact ⟨hafter.failed, hafter.warnings, fun h => nomatch hf.symm.trans h⟩
  | none =>
      obtain ⟨done, after, hdone⟩ := exists_done (k + 1) next rest
      obtain ⟨done', after', hdone'⟩ := exists_done (k + 1) next' rest'
      have hfactors := hafter.factors hf
      rw [hdone, hdone', List.map_cons, List.map_cons] at hfactors
      have hcost : done'.riccati.cost = done.riccati.cost :=
        congrArg StageFactors.cost (List.cons.inj hfactors).1
      have hdyn : s'.data.dyn = s.data.dyn := congrArg (fun p => p.2.1) hfrom
      have hhess : s'.condensed.hess = s.condensed.hess := congrArg (fun p => p.2.2) hfrom
      have htotal : (s'.pullCost done'.riccati.cost).riccati.total =
          (s.pullCost done.riccati.cost).riccati.total := by
        simp only [StageState.pullCost, hcost, hdyn, hhess]
      have hpulled : (s'.pullCost done'.riccati.cost).outline =
          (s.pullCost done.riccati.cost).outline := hfrom
      have hown := agree_factorStage k hpulled htotal (hs.pullCost _) (hs'.pullCost _)
      rw [factorizeFrom_of_done s hf hdone,
        factorizeFrom_of_done s' (hafter.failed.trans hf) hdone']
      refine ⟨hown.failed, ?_, fun h => ?_⟩
      · show _ ++ _ = _ ++ _
        rw [hafter.warnings, hown.warnings]
      · rw [List.map_append, List.map_append, hown.factors h, List.map_cons, List.map_cons,
          hfactors]

/-- Two sweeps of chains that agree on what a sweep reads. The recursion is that of the sweep; each
stage needs of the stages after it only the cost-to-go that they leave. -/
theorem agree_factorizeFrom (l : List (StageState α)) : ∀ (l' : List (StageState α)) (k : Nat),
    l'.map StageState.outline = l.map StageState.outline →
    (∀ s ∈ l, s.Tidy) → (∀ s ∈ l', s.Tidy) →
    (∀ (j : Nat) (s : StageState α), l[j]? = some s → l[j + 1]? = none → s.nu = 0) →
    (factorizeFrom k l).Agrees (factorizeFrom k l') := by
  induction l with
  | nil =>
      intro l' k hl _ _ _
      obtain rfl := List.map_eq_nil_iff.1 hl
      exact ⟨rfl, rfl, fun _ => rfl⟩
  | cons s rest ih =>
      intro l' k hl ht ht' hlast
      cases l' with
      | nil => cases hl
      | cons s' rest' =>
          obtain ⟨hhead, htail⟩ := List.cons.inj hl
          have hs := ht s List.mem_cons_self
          have hs' := ht' s' List.mem_cons_self
          cases rest with
          | nil =>
              obtain rfl := List.map_eq_nil_iff.1 htail
              have hclose := factors_closeCost hhead (hlast 0 s rfl rfl) hs hs'
              exact ⟨rfl, rfl, fun _ => congrArg ([·]) hclose⟩
          | cons next rest =>
              cases rest' with
              | nil => cases htail
              | cons next' rest' =>
                  have hafter := ih (next' :: rest') (k + 1) htail
                    (fun s h => ht s (List.mem_cons_of_mem _ h))
                    (fun s h => ht' s (List.mem_cons_of_mem _ h))
                    fun j s h => hlast (j + 1) s h
                  exact hafter.cons hhead hs hs'

end Riccati

/-! ## The sweeps over the vectors -/

namespace StageState

variable {s s' : StageState α}

/-- The condensed gradient is made from the core and the right-hand side. -/
theorem condenseGradient_of_aimed (h : s'.aimed = s.aimed) :
    s'.condenseGradient.condensed.grad = s.condenseGradient.condensed.grad := by
  have hdata : s'.data = s.data := congrArg (fun p => p.1.1.data) h
  have hpoint : s'.point = s.point := congrArg (fun p => p.1.1.point) h
  have hstat : s'.residual.stat = s.residual.stat := congrArg (fun p => p.1.1.stat) h
  have hineq : s'.residual.ineq = s.residual.ineq := congrArg (fun p => p.1.1.ineq) h
  have hcomp : s'.residual.comp = s.residual.comp := congrArg Prod.snd h
  simp only [condenseGradient, hdata, hpoint, hstat, hineq, hcomp]

/-- The directions of slacks and inequality multipliers are made from the core, the right-hand side
and the direction of the stage vector. -/
theorem expand_of_aimed (h : s'.aimed = s.aimed) (hdv : s'.direction.dv = s.direction.dv) :
    s'.expand.direction.dt = s.expand.direction.dt ∧
      s'.expand.direction.dlam = s.expand.direction.dlam := by
  have hdata : s'.data = s.data := congrArg (fun p => p.1.1.data) h
  have hpoint : s'.point = s.point := congrArg (fun p => p.1.1.point) h
  have hineq : s'.residual.ineq = s.residual.ineq := congrArg (fun p => p.1.1.ineq) h
  have hcomp : s'.residual.comp = s.residual.comp := congrArg Prod.snd h
  simp only [expand, hdata, hpoint, hineq, hcomp, hdv, and_self]

/-- The linear-quadratic problem that a direction solves at a stage: sizes, dynamics, factors and
the condensed gradient. -/
def posed (s : StageState α) : (Nat × Nat) × Mat α × Vec α × StageFactors α × Vec α :=
  ((s.nx, s.nu), s.data.dyn, s.residual.dyn, s.factors, s.condensed.grad)

/-- The gradient of the cost-to-go and the feedforward control are made from those of the stage
after. -/
theorem Pulled.agree {next next' : RiccatiData α} (h : s.Pulled next) (h' : s'.Pulled next')
    (hposed : s'.posed = s.posed) (hcost : next'.cost = next.cost)
    (hvec : next'.costVec = next.costVec) :
    s'.riccati.costVec = s.riccati.costVec ∧ s'.riccati.feed = s.riccati.feed := by
  have hnx : s'.nx = s.nx := congrArg (fun p => p.1.1) hposed
  have hnu : s'.nu = s.nu := congrArg (fun p => p.1.2) hposed
  have hmatrix : s'.data.dyn = s.data.dyn := congrArg (fun p => p.2.1) hposed
  have hdyn : s'.residual.dyn = s.residual.dyn := congrArg (fun p => p.2.2.1) hposed
  have htotal : s'.riccati.total = s.riccati.total :=
    congrArg (fun p => p.2.2.2.1.total) hposed
  have hfactor : s'.riccati.factor = s.riccati.factor :=
    congrArg (fun p => p.2.2.2.1.factor) hposed
  have hgrad : s'.condensed.grad = s.condensed.grad := congrArg (fun p => p.2.2.2.2) hposed
  have htotalVec : s'.riccati.totalVec = s.riccati.totalVec := by
    rw [h'.total, h.total, hgrad, hmatrix, hdyn, hcost, hvec]
  have hfeed : s'.riccati.feed = s.riccati.feed := by
    rw [h'.feed, h.feed, hfactor, htotalVec, hnu]
  refine ⟨?_, hfeed⟩
  rw [h'.cost, h.cost, htotalVec, hfeed, crossBlock, crossBlock, htotal, hnu, hnx]

end StageState

/-- Core and factors of a stage, and where its direction leads; all but the multipliers of the
dynamics. -/
def StageState.heading (s : StageState α) :
    (StageCore α × StageFactors α) × Vec α × Sides (Vec α) × Sides (Vec α) :=
  (s.ground, s.direction.dv, s.direction.dt, s.direction.dlam)

namespace Directed

variable {l l' : List (StageState α)} (h : Directed l) (h' : Directed l')
  (hposed : l'.map StageState.posed = l.map StageState.posed)

include h h' hposed

/-- The gradients of the costs-to-go, from the last stage backward: `m` counts the stages after. -/
theorem agree_costVec : ∀ (m k : Nat) (s s' : StageState α), k + m + 1 = l.length →
    l[k]? = some s → l'[k]? = some s' → s'.riccati.costVec = s.riccati.costVec := by
  have hlen : l'.length = l.length := by
    simpa only [List.length_map] using congrArg List.length hposed
  intro m
  induction m with
  | zero =>
      intro k s s' hk hs hs'
      have hnext : l[k + 1]? = none := List.getElem?_eq_none (by omega)
      have hnext' : l'[k + 1]? = none := List.getElem?_eq_none (by omega)
      have heq := apply_eq_of_map_eq hposed hs hs'
      rw [h'.pulled.last k s' hs' hnext', h.pulled.last k s hs hnext,
        show s'.condensed.grad = s.condensed.grad from congrArg (fun p => p.2.2.2.2) heq,
        show s'.nu = s.nu from congrArg (fun p => p.1.2) heq,
        show s'.nx = s.nx from congrArg (fun p => p.1.1) heq]
  | succ m ih =>
      intro k s s' hk hs hs'
      obtain ⟨next, hnext⟩ : ∃ next, l[k + 1]? = some next :=
        ⟨_, List.getElem?_eq_getElem (by omega)⟩
      obtain ⟨next', hnext'⟩ : ∃ next', l'[k + 1]? = some next' :=
        ⟨_, List.getElem?_eq_getElem (by omega)⟩
      have heq := apply_eq_of_map_eq hposed hs hs'
      have heqNext := apply_eq_of_map_eq hposed hnext hnext'
      exact ((h.pulled.inner k s next hs hnext).agree (h'.pulled.inner k s' next' hs' hnext')
        heq (congrArg (fun p => p.2.2.2.1.cost) heqNext)
        (ih (k + 1) next next' (by omega) hnext hnext')).1

theorem agree_costVec_getElem? {k : Nat} {s s' : StageState α} (hs : l[k]? = some s)
    (hs' : l'[k]? = some s') : s'.riccati.costVec = s.riccati.costVec := by
  have hk := (List.getElem?_eq_some_iff.1 hs).1
  exact agree_costVec h h' hposed (l.length - k - 1) k s s' (by omega) hs hs'

variable (hlast : ∀ (k : Nat) (s : StageState α), l[k]? = some s → l[k + 1]? = none → s.nu = 0)

include hlast

/-- Stages whose states move alike move alike. -/
theorem agree_dv_of_entering {k : Nat} {s s' : StageState α} (hs : l[k]? = some s)
    (hs' : l'[k]? = some s') (hentering : entering Vec.empty l' k = entering Vec.empty l k) :
    s'.direction.dv = s.direction.dv := by
  have heq := apply_eq_of_map_eq hposed hs hs'
  cases hnext' : l'[k + 1]? with
  | none =>
      have hnext := getElem?_eq_none_of_map_eq hposed hnext'
      have hnu : s.nu = 0 := hlast k s hs hnext
      have hnu' : s'.nu = s.nu := congrArg (fun p => p.1.2) heq
      obtain ⟨dv, hdv⟩ := h.rolled.last k s hs hnext
      obtain ⟨dv', hdv'⟩ := h'.rolled.last k s' hs' hnext'
      rw [hdv', hdv, hnu', hnu, hentering]
      rfl
  | some next' =>
      obtain ⟨next, hnext, heqNext⟩ := exists_getElem?_of_map_eq hposed hnext'
      have hgain : s'.riccati.gain = s.riccati.gain := congrArg (fun p => p.2.2.2.1.gain) heq
      have hfeed := ((h.pulled.inner k s next hs hnext).agree
        (h'.pulled.inner k s' next' hs' hnext') heq (congrArg (fun p => p.2.2.2.1.cost) heqNext)
        (agree_costVec_getElem? h h' hposed hnext hnext')).2
      rw [(h'.rolled.inner k s' next' hs' hnext').1, (h.rolled.inner k s next hs hnext).1,
        hentering, StageState.feedback, StageState.feedback, hgain, hfeed]

/-- The directions of the states, from the first stage forward. -/
theorem agree_entering (k : Nat) : entering Vec.empty l' k = entering Vec.empty l k := by
  induction k with
  | zero => rfl
  | succ k ih =>
      cases hs' : l'[k]? with
      | none =>
          rw [entering, entering, hs', getElem?_eq_none_of_map_eq hposed hs']
      | some s' =>
          obtain ⟨s, hs, heq⟩ := exists_getElem?_of_map_eq hposed hs'
          have hmatrix : s'.data.dyn = s.data.dyn := congrArg (fun p => p.2.1) heq
          have hdyn : s'.residual.dyn = s.residual.dyn := congrArg (fun p => p.2.2.1) heq
          rw [entering_succ _ hs', entering_succ _ hs, StageState.leaving, StageState.leaving,
            hmatrix, hdyn, agree_dv_of_entering h h' hposed hlast hs hs' ih]

theorem agree_dv {k : Nat} {s s' : StageState α} (hs : l[k]? = some s) (hs' : l'[k]? = some s') :
    s'.direction.dv = s.direction.dv :=
  agree_dv_of_entering h h' hposed hlast hs hs' (agree_entering h h' hposed hlast k)

/-- The multipliers of dynamics that lead somewhere move alike. -/
theorem agree_dpi {k : Nat} {s s' next : StageState α} (hs : l[k]? = some s)
    (hs' : l'[k]? = some s') (hnext : l[k + 1]? = some next) :
    s'.direction.dpi = s.direction.dpi := by
  obtain ⟨next', hnext', heqNext⟩ := exists_getElem?_of_map_eq hposed.symm hnext
  have hcost : next.riccati.cost = next'.riccati.cost :=
    congrArg (fun p => p.2.2.2.1.cost) heqNext
  have hleaving : s'.leaving = s.leaving := by
    rw [← entering_succ Vec.empty hs, ← entering_succ Vec.empty hs',
      agree_entering h h' hposed hlast]
  rw [(h'.rolled.inner k s' next' hs' hnext').2, (h.rolled.inner k s next hs hnext).2, hleaving,
    hcost, agree_costVec_getElem? h h' hposed hnext hnext']

/-- So all multipliers of dynamics move to the same point: those of the last stage may have
different directions, but there are none. -/
theorem agree_pi (hl : Chained l) {k : Nat} {s s' : StageState α} (hs : l[k]? = some s)
    (hs' : l'[k]? = some s') (hpi : s'.point.pi = s.point.pi) (a : α) :
    s'.point.pi.advance a s'.direction.dpi = s.point.pi.advance a s.direction.dpi := by
  rw [hpi]
  cases hnext : l[k + 1]? with
  | some next => rw [agree_dpi h h' hposed hlast hs hs' hnext]
  | none =>
      have hsize : s.point.pi.size = 0 := by
        rw [(hl k s hs).pi, nextNx, hnext]
        rfl
      refine Vec.ext_get ?_ fun i hi => ?_
      · rw [Vec.size_advance, Vec.size_advance]
      · rw [Vec.size_advance, hsize] at hi
        exact absurd hi (Nat.not_lt_zero i)

omit hposed hlast in
/-- Two directions for one right-hand side on one factorization solve one problem. -/
theorem posed_of_aimed (haimed : l'.map StageState.aimed = l.map StageState.aimed) :
    l'.map StageState.posed = l.map StageState.posed := by
  refine List.ext_getElem? fun k => ?_
  rw [List.getElem?_map, List.getElem?_map]
  cases hs' : l'[k]? with
  | none => rw [getElem?_eq_none_of_map_eq haimed hs']
  | some s' =>
      obtain ⟨s, hs, heq⟩ := exists_getElem?_of_map_eq haimed hs'
      have hgrad : s'.condensed.grad = s.condensed.grad := by
        rw [h'.condensed k s' hs', h.condensed k s hs]
        exact StageState.condenseGradient_of_aimed heq
      have hcore : s'.core = s.core := congrArg (fun p => p.1.1) heq
      rw [hs, Option.map_some, Option.map_some, StageState.posed, StageState.posed, hgrad,
        show s'.nx = s.nx from congrArg StageCore.nx hcore,
        show s'.nu = s.nu from congrArg StageCore.nu hcore,
        show s'.data = s.data from congrArg StageCore.data hcore,
        show s'.residual.dyn = s.residual.dyn from congrArg StageCore.dyn hcore,
        show s'.factors = s.factors from congrArg (fun p => p.1.2) heq]

omit hposed in
/-- Everything but the multipliers of the dynamics moves alike at every stage. -/
theorem agree (haimed : l'.map StageState.aimed = l.map StageState.aimed) :
    l'.map StageState.heading = l.map StageState.heading := by
  have hposed := posed_of_aimed h h' haimed
  refine List.ext_getElem? fun k => ?_
  rw [List.getElem?_map, List.getElem?_map]
  cases hs' : l'[k]? with
  | none => rw [getElem?_eq_none_of_map_eq haimed hs']
  | some s' =>
      obtain ⟨s, hs, heq⟩ := exists_getElem?_of_map_eq haimed hs'
      have hdv := agree_dv h h' hposed hlast hs hs'
      obtain ⟨hdt, hdlam⟩ := StageState.expand_of_aimed heq hdv
      rw [hs, Option.map_some, Option.map_some, StageState.heading, StageState.heading, hdv,
        h'.slack k s' hs', h'.multiplier k s' hs', hdt, hdlam, ← h.slack k s hs,
        ← h.multiplier k s hs, show s'.ground = s.ground from congrArg Prod.fst heq]

end Directed

/-! ## What a direction leads to -/

namespace StageState

variable {s s' : StageState α}

theorem stepLimit_of_heading (limit : Option α) (h : s'.heading = s.heading) :
    s'.stepLimit limit = s.stepLimit limit := by
  have hpoint : s'.point = s.point := congrArg (fun p => p.1.1.point) h
  have hdt : s'.direction.dt = s.direction.dt := congrArg (fun p => p.2.2.1) h
  have hdlam : s'.direction.dlam = s.direction.dlam := congrArg (fun p => p.2.2.2) h
  simp only [stepLimit, hpoint, hdt, hdlam]

theorem trialProducts_of_heading (a : α) (h : s'.heading = s.heading) :
    s'.trialProducts a = s.trialProducts a := by
  have hpoint : s'.point = s.point := congrArg (fun p => p.1.1.point) h
  have hdt : s'.direction.dt = s.direction.dt := congrArg (fun p => p.2.2.1) h
  have hdlam : s'.direction.dlam = s.direction.dlam := congrArg (fun p => p.2.2.2) h
  have hrows : ∀ n, s'.trialProductsUpTo a n = s.trialProductsUpTo a n := by
    intro n
    induction n with
    | zero => rfl
    | succ n ih => simp only [trialProductsUpTo, ih, hpoint, hdt, hdlam]
  rw [trialProducts, trialProducts, hrows, hpoint]

/-- The right-hand side of the corrector is made from the point and the predictor. -/
theorem aimed_aimAtTarget (target : α) (h : s'.heading = s.heading) :
    (s'.aimAtTarget target).aimed = (s.aimAtTarget target).aimed := by
  have hpoint : s'.point = s.point := congrArg (fun p => p.1.1.point) h
  have hdt : s'.direction.dt = s.direction.dt := congrArg (fun p => p.2.2.1) h
  have hdlam : s'.direction.dlam = s.direction.dlam := congrArg (fun p => p.2.2.2) h
  have hground : s'.ground = s.ground := congrArg Prod.fst h
  refine Prod.ext hground ?_
  simp only [aimed, aimAtTarget, hpoint, hdt, hdlam]

/-- The point that a step leads to. -/
theorem base_move {a : α} (h : s'.heading = s.heading)
    (hpi : s'.point.pi.advance a s'.direction.dpi = s.point.pi.advance a s.direction.dpi) :
    (s'.move a).base = (s.move a).base := by
  have hnx : s'.nx = s.nx := congrArg (fun p => p.1.1.nx) h
  have hnu : s'.nu = s.nu := congrArg (fun p => p.1.1.nu) h
  have hdata : s'.data = s.data := congrArg (fun p => p.1.1.data) h
  have hpoint : s'.point = s.point := congrArg (fun p => p.1.1.point) h
  have hdv : s'.direction.dv = s.direction.dv := congrArg (fun p => p.2.1) h
  have hdt : s'.direction.dt = s.direction.dt := congrArg (fun p => p.2.2.1) h
  have hdlam : s'.direction.dlam = s.direction.dlam := congrArg (fun p => p.2.2.2) h
  simp only [base, move, hnx, hnu, hdata, hpi, hdv, hdt, hdlam]
  rw [hpoint]

end StageState

namespace Workspace

variable {w w' : Workspace α}

section Heading

variable (h : w'.stages.map StageState.heading = w.stages.map StageState.heading)

include h

theorem maxStep_of_heading (cap : Option α) : w'.maxStep cap = w.maxStep cap :=
  foldl_eq_of_map_eq h (fun limit _ _ heq => StageState.stepLimit_of_heading limit heq) cap

theorem stepLength_of_heading : w'.stepLength = w.stepLength := by
  rw [stepLength, stepLength, maxStep_of_heading h]

omit [Scalar α] in
theorem base_of_heading : w'.stages.map StageState.base = w.stages.map StageState.base :=
  map_base_of_core (map_map_eq (f := StageState.heading) (g := fun p => p.1.1) h)

theorem predict_of_heading (mu sigmaMin : α) : w'.predict mu sigmaMin = w.predict mu sigmaMin := by
  have hpairs : w'.pairs = w.pairs := (duality_of_base (base_of_heading h)).1
  have htrial : ∀ a, w'.trialDuality a = w.trialDuality a := by
    intro a
    rw [trialDuality, trialDuality, hpairs, foldl_eq_of_map_eq h fun acc s s' heq =>
      congrArg (acc + ·) (StageState.trialProducts_of_heading a heq)]
  simp only [predict, hpairs, maxStep_of_heading h, htrial]

end Heading

end Workspace

/-! ## One step -/

namespace Workspace

/-- What is condensed in a settled workspace is tidy. -/
theorem Settled.condensed_tidy {w : Workspace α} (hw : w.Settled) :
    ∀ s ∈ w.stages.map StageState.condenseHessian, s.Tidy := by
  refine tidy_of_map_recursion ?_ hw.tidy
  rw [List.map_map]
  rfl

/-- The sweep of a settled workspace is that of any tidy chain with the same sizes, data and
condensed Hessians. -/
theorem Settled.agree_sweep {w : Workspace α} (hw : w.Settled) {l : List (StageState α)}
    (hfrom : l.map StageState.sweptFrom =
      (w.stages.map StageState.condenseHessian).map StageState.sweptFrom)
    (ht : ∀ s ∈ l, s.Tidy) : w.sweep.Agrees (Riccati.factorize l) := by
  have houtline : l.map StageState.outline =
      (w.stages.map StageState.condenseHessian).map StageState.outline :=
    map_map_eq (f := StageState.sweptFrom) (g := fun p => (p.1.1, p.1.2.dyn, p.2)) hfrom
  refine Riccati.agree_factorizeFrom _ _ 0 houtline hw.condensed_tidy ht fun k s hs hnone => ?_
  rw [List.getElem?_map] at hs hnone
  obtain ⟨s₀, hs₀, rfl⟩ := Option.map_eq_some_iff.1 hs
  exact hw.shaped.last k s₀ hs₀ (Option.map_eq_none_iff.1 hnone)

/-- Two workspaces hold the same data, the same point and the same records; what else they hold is
what their histories left. -/
structure Agrees (w w' : Workspace α) : Prop where
  /-- The first is settled. -/
  left : w.Settled
  /-- So is the second. -/
  right : w'.Settled
  /-- Sizes, data and point. -/
  base : w'.stages.map StageState.base = w.stages.map StageState.base
  /-- Records. -/
  stats : w'.stats = w.stats
  /-- The sizes they were made for. -/
  sizes : w'.sizes = w.sizes

variable {w w' : Workspace α}

theorem Agrees.residuals (h : w.Agrees w') : w.residuals.Agrees w'.residuals where
  left := h.left.residuals
  right := h.right.residuals
  base := ((residuals_base w').trans h.base).trans (residuals_base w).symm
  stats := h.stats
  sizes := h.sizes

section Step

variable (h : w.Agrees w') (hcore : w'.stages.map StageState.core = w.stages.map StageState.core)

include h hcore

/-- Both workspaces are swept alike. -/
theorem Agrees.sweep : w.sweep.Agrees w'.sweep := by
  refine h.left.agree_sweep ?_ h.right.condensed_tidy
  rw [List.map_map, List.map_map]
  exact map_eq_of_map_eq hcore fun s s' heq =>
    Prod.ext (congrArg (fun c => ((c.nx, c.nu), c.data)) heq)
      (StageState.condenseHessian_of_core heq)

variable (hok : w.sweep.failed = none)

include hok

theorem Agrees.sweep_ground :
    w'.sweep.stages.map StageState.ground = w.sweep.stages.map StageState.ground :=
  map_ground_of_core ((sweep_core w').trans (hcore.trans (sweep_core w).symm))
    ((h.sweep hcore).factors hok)

/-- Both workspaces have the same predictor. -/
theorem Agrees.predictor :
    w'.predictor.stages.map StageState.heading = w.predictor.stages.map StageState.heading := by
  have hshaped := h.left.shaped
  have hshaped' := h.right.shaped
  have haimed : (w'.sweep.stages.map StageState.aimAtZero).map StageState.aimed =
      (w.sweep.stages.map StageState.aimAtZero).map StageState.aimed := by
    rw [List.map_map, List.map_map]
    refine map_eq_of_map_eq (h.sweep_ground hcore hok) fun s s' heq => Prod.ext heq ?_
    have hpoint : s'.point = s.point := congrArg (fun p => p.1.point) heq
    simp only [Function.comp, StageState.aimed, StageState.aimAtZero, hpoint]
  refine Directed.agree (directed_predictor hshaped) (directed_predictor hshaped')
    (horizonShaped_predictor hshaped).last ?_
  rw [predictor_aimed hshaped, predictor_aimed hshaped', haimed]

/-- Both workspaces aim at the same products. -/
theorem Agrees.target (mu sigmaMin : α) : w'.target mu sigmaMin = w.target mu sigmaMin := by
  rw [Workspace.target, Workspace.target, predict_of_heading (h.predictor hcore hok)]

theorem Agrees.corrector_aimed (target : α) :
    (w'.corrector target).stages.map StageState.aimed =
      (w.corrector target).stages.map StageState.aimed := by
  rw [Workspace.corrector_aimed h.left.shaped, Workspace.corrector_aimed h.right.shaped,
    List.map_map, List.map_map]
  exact map_eq_of_map_eq (h.predictor hcore hok)
    fun s s' heq => StageState.aimed_aimAtTarget target heq

/-- Both workspaces have the same corrector. -/
theorem Agrees.corrector (target : α) :
    (w'.corrector target).stages.map StageState.heading =
      (w.corrector target).stages.map StageState.heading :=
  Directed.agree (directed_corrector h.left.shaped target)
    (directed_corrector h.right.shaped target) (horizonShaped_corrector h.left.shaped target).last
    (h.corrector_aimed hcore hok target)

/-- Both steps have the same length. -/
theorem Agrees.alpha (mu sigmaMin : α) : w'.alpha mu sigmaMin = w.alpha mu sigmaMin := by
  rw [Workspace.alpha, Workspace.alpha, h.target hcore hok,
    stepLength_of_heading (h.corrector hcore hok _)]

/-- Both workspaces move to the same point. -/
theorem Agrees.moved_base (mu sigmaMin : α) :
    (w'.moved mu sigmaMin).stages.map StageState.base =
      (w.moved mu sigmaMin).stages.map StageState.base := by
  rw [moved, moved, h.alpha hcore hok, h.target hcore hok, List.map_map, List.map_map]
  have hheading := h.corrector hcore hok (w.target mu sigmaMin)
  have haimed := h.corrector_aimed hcore hok (w.target mu sigmaMin)
  have hshaped := horizonShaped_corrector h.left.shaped (w.target mu sigmaMin)
  have hdirected := directed_corrector h.left.shaped (w.target mu sigmaMin)
  have hdirected' := directed_corrector h.right.shaped (w.target mu sigmaMin)
  generalize (w.corrector (w.target mu sigmaMin)).stages = l at *
  generalize (w'.corrector (w.target mu sigmaMin)).stages = l' at *
  refine List.ext_getElem? fun k => ?_
  rw [List.getElem?_map, List.getElem?_map]
  cases hs' : l'[k]? with
  | none => rw [getElem?_eq_none_of_map_eq hheading hs']
  | some s' =>
      obtain ⟨s, hs, heq⟩ := exists_getElem?_of_map_eq hheading hs'
      rw [hs]
      exact congrArg some (StageState.base_move heq (hdirected.agree_pi hdirected'
        (hdirected.posed_of_aimed hdirected' haimed) hshaped.last hshaped.chained hs hs'
        (congrArg (fun p => p.1.1.point.pi) heq) _))

/-- Both steps have the same record. -/
theorem Agrees.record (mu sigmaMin : α) : w'.record mu sigmaMin = w.record mu sigmaMin := by
  rw [Workspace.record, Workspace.record, predict_of_heading (h.predictor hcore hok),
    h.alpha hcore hok, (duality_of_base (h.moved_base hcore hok mu sigmaMin)).2]

end Step

/-- What two workspaces that agree make of a step: the same outcome with the same warnings, and
workspaces that agree again. -/
theorem Agrees.step (h : w.Agrees w')
    (hcore : w'.stages.map StageState.core = w.stages.map StageState.core) (mu sigmaMin : α) :
    (w'.step mu sigmaMin).outcome = (w.step mu sigmaMin).outcome ∧
      (w'.step mu sigmaMin).warnings = (w.step mu sigmaMin).warnings ∧
      (w.step mu sigmaMin).workspace.Agrees (w'.step mu sigmaMin).workspace := by
  have hsweep := h.sweep hcore
  have hleft := h.left.step mu sigmaMin
  have hright := h.right.step mu sigmaMin
  cases hf : w.sweep.failed with
  | some k =>
      have hbase : w'.sweep.stages.map StageState.base = w.sweep.stages.map StageState.base := by
        rw [map_base_of_core (sweep_core w'), map_base_of_core (sweep_core w), h.base]
      rw [step_of_failed hf] at hleft ⊢
      rw [step_of_failed (hsweep.failed.trans hf)] at hright ⊢
      exact ⟨rfl, hsweep.warnings, hleft, hright, hbase, h.stats, h.sizes⟩
  | none =>
      have hbase := h.moved_base hcore hf mu sigmaMin
      rw [step_of_swept hf] at hleft ⊢
      rw [step_of_swept (hsweep.failed.trans hf)] at hright ⊢
      exact ⟨congrArg Except.ok (h.record hcore hf mu sigmaMin), hsweep.warnings, hleft, hright,
        hbase, h.stats, h.sizes⟩

end Workspace

end StagedQP
