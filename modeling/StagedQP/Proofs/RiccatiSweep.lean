import StagedQP.Proofs.StageChain

/-!
# The backward sweep of the Riccati recursion, stage by stage

The backward sweep over the matrices runs along the whole chain and may stop on the way. It is
described here by a *local equation*: what the swept list holds at an index, in terms of the
cost-to-go at the next index. The inductions over the chain are done in this module; everything
after it argues at one stage.

Nothing here uses a law of arithmetic.

## Main results

* `Riccati.swept_of_factorize` — after a sweep that did not fail, every stage with a successor is
  `StageState.Swept`: its total Hessian, factor, gain and cost-to-go are made from the cost-to-go of
  the stage after, with the shift that the warnings name.
* `Riccati.cost_last_of_factorize` — the last stage holds its own cost.
* `Riccati.factorizeFrom_frame`, `Riccati.factorize_chained` — what the sweep leaves alone, wherever
  it stops.
* `Factorized.of_ground` — both facts survive whatever leaves core and factors alone.
-/

namespace StagedQP

variable {α : Type} [Scalar α]

/-! ## Shifts -/

/-- The shift that a warning reports for stage `k`. -/
def Warning.shiftAt? (k : Nat) : Warning α → Option α
  | .regularized stage shift => if stage = k then some shift else none
  | _ => none

/-- The shift that a sweep used on stage `k`, if it used one. -/
def Riccati.Sweep.shiftAt? (w : Riccati.Sweep α) (k : Nat) : Option α :=
  w.warnings.findSome? (Warning.shiftAt? k)

/-- The shift that a sweep used on stage `k`, zero if the control block was factored as it is. -/
def Riccati.Sweep.shiftAt (w : Riccati.Sweep α) (k : Nat) : α := (w.shiftAt? k).getD 0

/-- A sweep that warns about no shift used none. -/
theorem Riccati.Sweep.shiftAt_eq_zero {w : Riccati.Sweep α}
    (h : ∀ k eps, Warning.regularized k eps ∉ w.warnings) (k : Nat) : w.shiftAt k = 0 := by
  have hnone : w.shiftAt? k = none := by
    rw [Sweep.shiftAt?, List.findSome?_eq_none_iff]
    intro warning hmem
    cases warning with
    | regularized stage shift => exact absurd hmem (h stage shift)
    | shortStep a minStep iters => rfl
    | breakdown stage iters => rfl
    | notFinite iters => rfl
  rw [shiftAt, hnone, Option.getD_none]

/-! ## One stage of the backward sweep -/

/-- A matrix of right-hand sides solved by a factor; without a factor it is left as it is. -/
def solveWith (f : Option (Cholesky α)) (b : Mat α) : Mat α :=
  match f with
  | none => b
  | some c => c.solve b

/-- A right-hand side solved by a factor; without a factor it is left as it is. -/
def solveVecWith (f : Option (Cholesky α)) (b : Vec α) : Vec α :=
  match f with
  | none => b
  | some c => c.solveVec b

/-- The backward sweep has passed the stage: `next` is the cost-to-go of the stage after, and
`shift` what was added to the diagonal of the control block. -/
structure StageState.Swept (next : Mat α) (shift : Option α) (s : StageState α) : Prop where
  /-- The total Hessian. -/
  total : s.riccati.total = Mat.addMul s.condensed.hess (s.data.dyn.trMul next) s.data.dyn
  /-- Without controls there is nothing to factor. -/
  unfactored : s.nu = 0 → shift = none
  /-- The control block is factored with the first shift that will do. -/
  factored : s.nu ≠ 0 → ∃ c, ControlFactor.of? s.controlBlock = some c ∧
    s.riccati.factor = some c.factor ∧ c.shift = shift
  /-- The feedback gain. -/
  gain : s.nx ≠ 0 → s.riccati.gain = (solveWith s.riccati.factor s.crossBlock).neg
  /-- The cost-to-go. -/
  cost : s.nx ≠ 0 → s.riccati.cost =
    (Mat.addTrMul (s.riccati.total.block s.nu s.nu s.nx s.nx) s.crossBlock
      s.riccati.gain).symmetrize

/-- The size of a factor is that of the factored matrix. -/
theorem Cholesky.size_of_factor {m : Mat α} {c : Cholesky α} (h : factor m = some c) :
    c.size = m.rows := by
  obtain ⟨a, _, rfl⟩ := Option.map_eq_some_iff.1 h
  rfl

namespace ControlFactor

theorem factor_of_tryFactor {scale : α} {m : Mat α} {c : Cholesky α}
    (h : tryFactor scale m = some c) : Cholesky.factor m = some c := by
  rw [tryFactor, Option.filter_eq_some_iff] at h
  exact h.1

theorem factor_of_firstShifted {scale : α} {m : Mat α} {c : ControlFactor α} (l : List α)
    (h : firstShifted scale m l = some c) : ∃ eps ∈ l, c.shift = some (eps * scale) ∧
      Cholesky.factor (shifted m (eps * scale)) = some c.factor := by
  induction l with
  | nil => simp [firstShifted] at h
  | cons eps rest ih =>
      rw [firstShifted] at h
      split at h
      · rename_i f hf
        cases h
        exact ⟨eps, List.mem_cons_self .., rfl, factor_of_tryFactor hf⟩
      · obtain ⟨eps', hmem, hshift, hfactor⟩ := ih h
        exact ⟨eps', List.mem_cons_of_mem _ hmem, hshift, hfactor⟩

/-- A control block is factored as it is or with one of the admissible shifts. -/
theorem factor_of_of? {m : Mat α} {c : ControlFactor α} (h : of? m = some c) :
    (c.shift = none ∧ Cholesky.factor m = some c.factor) ∨
      ∃ eps ∈ shifts, c.shift = some (eps * scale m) ∧
        Cholesky.factor (shifted m (eps * scale m)) = some c.factor := by
  rw [of?] at h
  split at h
  · rename_i f hf
    cases h
    exact .inl ⟨rfl, factor_of_tryFactor hf⟩
  · exact .inr (factor_of_firstShifted _ h)

/-- The factor of a control block has the size of the block. -/
theorem size_of_of? {m : Mat α} {c : ControlFactor α} (h : of? m = some c) :
    c.factor.size = m.rows := by
  rcases factor_of_of? h with ⟨_, hfactor⟩ | ⟨eps, _, _, hfactor⟩
  · exact Cholesky.size_of_factor hfactor
  · have hsize := Cholesky.size_of_factor hfactor
    exact hsize

end ControlFactor

namespace StageState

/-- Closing the loop changes the gain and the cost-to-go only. -/
theorem closeLoop_eq (s : StageState α) :
    s.closeLoop = { s with
      riccati.gain := if s.nx = 0 then s.riccati.gain
        else (solveWith s.riccati.factor s.crossBlock).neg
      riccati.cost := if s.nx = 0 then s.riccati.cost
        else (Mat.addTrMul (s.riccati.total.block s.nu s.nu s.nx s.nx) s.crossBlock
          (solveWith s.riccati.factor s.crossBlock).neg).symmetrize } := by
  rw [closeLoop]
  split
  · rfl
  · rfl

/-- Closing the loop keeps a shaped stage shaped, if the factor has the size of the controls. -/
theorem Shaped.closeLoop {s : StageState α} {n : Nat} (h : s.Shaped n) : s.closeLoop.Shaped n := by
  have hsolve : (solveWith s.riccati.factor s.crossBlock).rows = s.nu ∧
      (solveWith s.riccati.factor s.crossBlock).cols = s.nx := by
    cases hf : s.riccati.factor with
    | none => exact ⟨rfl, rfl⟩
    | some c => exact ⟨h.factor c hf, rfl⟩
  rw [closeLoop_eq]
  refine { h with cost_rows := ?_, cost_cols := ?_, gain_rows := ?_, gain_cols := ?_ }
  · show (if s.nx = 0 then s.riccati.cost else _).rows = s.nx
    split
    · exact h.cost_rows
    · rfl
  · show (if s.nx = 0 then s.riccati.cost else _).cols = s.nx
    split
    · exact h.cost_cols
    · rfl
  · show (if s.nx = 0 then s.riccati.gain else _).rows = s.nu
    split
    · exact h.gain_rows
    · exact hsolve.1
  · show (if s.nx = 0 then s.riccati.gain else _).cols = s.nx
    split
    · exact h.gain_cols
    · exact hsolve.2

theorem Shaped.closeCost {s : StageState α} {n : Nat} (h : s.Shaped n) : s.closeCost.Shaped n :=
  { h with cost_rows := rfl, cost_cols := rfl }

theorem Shaped.pullCost {s : StageState α} {n : Nat} (next : Mat α) (h : s.Shaped n) :
    (s.pullCost next).Shaped n := { h with }

omit [Scalar α] in
/-- A stage with its recursion replaced. -/
def setRiccati (m : RiccatiData α) (s : StageState α) : StageState α := { s with riccati := m }

theorem setRiccati_closeLoop (m : RiccatiData α) (s : StageState α) :
    s.closeLoop.setRiccati m = s.setRiccati m := by
  rw [closeLoop_eq]
  rfl

end StageState

namespace Riccati

/-- What the backward sweep leaves alone at a stage: the core and the condensed system. -/
def kept (s : StageState α) : StageCore α × Condensed α := (s.core, s.condensed)

theorem kept_closeLoop (s : StageState α) : kept s.closeLoop = kept s := by
  rw [StageState.closeLoop_eq]
  rfl

/-- A stage with its factor replaced. -/
def setFactor (f : Option (Cholesky α)) (s : StageState α) : StageState α :=
  { s with riccati.factor := f }

theorem factorStage_of_no_control {k : Nat} {s : StageState α} (h : s.nu = 0) :
    factorStage k s = ⟨[s.closeLoop], [], none⟩ := if_pos h

theorem factorStage_of_none {k : Nat} {s : StageState α} (h : s.nu ≠ 0)
    (hof : ControlFactor.of? s.controlBlock = none) :
    factorStage k s = ⟨[setFactor none s], [], some k⟩ := by
  rw [factorStage, if_neg h, hof]
  rfl

theorem factorStage_of_some {k : Nat} {s : StageState α} {c : ControlFactor α} (h : s.nu ≠ 0)
    (hof : ControlFactor.of? s.controlBlock = some c) :
    factorStage k s = ⟨[(setFactor (some c.factor) s).closeLoop],
      c.shift.toList.map (Warning.regularized k), none⟩ := by
  rw [factorStage, if_neg h, hof]
  rfl

/-- A stage with its control block factored is one stage again, shaped if it was. -/
theorem exists_factorStage (k : Nat) (s : StageState α) :
    ∃ s', (factorStage k s).stages = [s'] ∧ kept s' = kept s ∧
      ∀ n, s.Shaped n → s'.Shaped n := by
  by_cases h0 : s.nu = 0
  · rw [factorStage_of_no_control h0]
    exact ⟨s.closeLoop, rfl, kept_closeLoop s, fun n h => h.closeLoop⟩
  · cases hof : ControlFactor.of? s.controlBlock with
    | none =>
        rw [factorStage_of_none h0 hof]
        refine ⟨setFactor none s, rfl, rfl, fun n h => { h with factor := ?_ }⟩
        intro c hc
        cases hc
    | some c =>
        rw [factorStage_of_some h0 hof]
        refine ⟨_, rfl, kept_closeLoop _, fun n h => ?_⟩
        refine StageState.Shaped.closeLoop { h with factor := ?_ }
        intro c' hc'
        cases hc'
        exact ControlFactor.size_of_of? hof

/-- Whether or not its control block can be factored, a stage stays one stage, and only its
recursion changes. -/
theorem factorStage_frame (m : RiccatiData α) (k : Nat) (s : StageState α) :
    (factorStage k s).stages.map (StageState.setRiccati m) = [s.setRiccati m] := by
  by_cases h0 : s.nu = 0
  · rw [factorStage_of_no_control h0]
    exact congrArg (fun s' => [s']) (StageState.setRiccati_closeLoop m s)
  · cases hof : ControlFactor.of? s.controlBlock with
    | none =>
        rw [factorStage_of_none h0 hof]
        rfl
    | some c =>
        rw [factorStage_of_some h0 hof]
        exact congrArg (fun s' => [s']) (StageState.setRiccati_closeLoop m _)

/-- Closing the loop of a stage that holds its total Hessian and its factor completes the sweep. -/
theorem swept_closeLoop {s : StageState α} {next : Mat α} {shift : Option α}
    (htotal : s.riccati.total = Mat.addMul s.condensed.hess (s.data.dyn.trMul next) s.data.dyn)
    (hzero : s.nu = 0 → shift = none)
    (hpos : s.nu ≠ 0 → ∃ c, ControlFactor.of? s.controlBlock = some c ∧
      s.riccati.factor = some c.factor ∧ c.shift = shift) :
    s.closeLoop.Swept next shift := by
  rw [StageState.closeLoop_eq]
  refine ⟨htotal, hzero, hpos, fun h => if_neg h, fun h => ?_⟩
  show (if s.nx = 0 then _ else _) = (Mat.addTrMul _ _ (if s.nx = 0 then _ else _)).symmetrize
  rw [if_neg h, if_neg h]
  rfl

omit [Scalar α] in
/-- The shift of a stage's only warning. -/
theorem findSome?_shiftAt? (k : Nat) (shift : Option α) :
    (shift.toList.map (Warning.regularized k)).findSome? (Warning.shiftAt? k) = shift := by
  cases shift with
  | none => rfl
  | some a => simp [Warning.shiftAt?]

/-- A stage whose cost was pulled back from `next` and whose control block could be factored is
swept, with the shift of its only warning. -/
theorem swept_of_factorStage {k : Nat} {s s' : StageState α} (next : Mat α)
    (hok : (factorStage k (s.pullCost next)).failed = none)
    (hs : (factorStage k (s.pullCost next)).stages = [s']) :
    s'.Swept next ((factorStage k (s.pullCost next)).warnings.findSome? (Warning.shiftAt? k)) := by
  have htotal : (s.pullCost next).riccati.total =
      Mat.addMul (s.pullCost next).condensed.hess ((s.pullCost next).data.dyn.trMul next)
        (s.pullCost next).data.dyn := rfl
  generalize s.pullCost next = p at hok hs htotal
  by_cases h0 : p.nu = 0
  · rw [factorStage_of_no_control h0] at hs ⊢
    obtain rfl := (List.cons.inj hs).1
    exact swept_closeLoop htotal (fun _ => rfl) fun h => absurd h0 h
  · cases hof : ControlFactor.of? p.controlBlock with
    | none =>
        rw [factorStage_of_none h0 hof] at hok
        cases hok
    | some c =>
        rw [factorStage_of_some h0 hof] at hs ⊢
        obtain rfl := (List.cons.inj hs).1
        rw [findSome?_shiftAt?]
        exact swept_closeLoop (s := setFactor (some c.factor) p) htotal
          (fun h => absurd h h0) fun _ => ⟨c, hof, rfl, rfl⟩

/-! ## The backward sweep over the matrices -/

/-- The sweep past the last stage. -/
theorem factorizeFrom_cons_cons (k : Nat) (s next : StageState α) (rest : List (StageState α)) :
    (∃ done after, (factorizeFrom (k + 1) (next :: rest)).failed = none ∧
      (factorizeFrom (k + 1) (next :: rest)).stages = done :: after ∧
      factorizeFrom k (s :: next :: rest) =
        ⟨(factorStage k (s.pullCost done.riccati.cost)).stages ++ done :: after,
          (factorizeFrom (k + 1) (next :: rest)).warnings ++
            (factorStage k (s.pullCost done.riccati.cost)).warnings,
          (factorStage k (s.pullCost done.riccati.cost)).failed⟩) ∨
    (((factorizeFrom (k + 1) (next :: rest)).failed ≠ none ∨
        (factorizeFrom (k + 1) (next :: rest)).stages = []) ∧
      factorizeFrom k (s :: next :: rest) =
        { factorizeFrom (k + 1) (next :: rest) with
          stages := s :: (factorizeFrom (k + 1) (next :: rest)).stages }) := by
  rw [factorizeFrom]
  generalize factorizeFrom (k + 1) (next :: rest) = w
  obtain ⟨stages, warnings, failed⟩ := w
  cases failed with
  | some j => exact .inr ⟨.inl (Option.some_ne_none j), rfl⟩
  | none =>
      cases stages with
      | nil => exact .inr ⟨.inr rfl, rfl⟩
      | cons done after => exact .inl ⟨done, after, rfl, rfl, rfl⟩

/-- Wherever a sweep stops, it has changed nothing but the recursion. -/
theorem factorizeFrom_frame (m : RiccatiData α) (l : List (StageState α)) : ∀ k,
    (factorizeFrom k l).stages.map (StageState.setRiccati m) =
      l.map (StageState.setRiccati m) := by
  induction l with
  | nil => intro k; rfl
  | cons s rest ih =>
      intro k
      cases rest with
      | nil => rfl
      | cons next rest =>
          have hrest := ih (k + 1)
          rcases factorizeFrom_cons_cons k s next rest with ⟨done, after, _, hs, heq⟩ | ⟨_, heq⟩
          · have hown := factorStage_frame m k (s.pullCost done.riccati.cost)
            rw [heq, List.map_append, hown, ← hs, hrest]
            rfl
          · rw [heq, List.map_cons, hrest]
            rfl

/-- What does not depend on the recursion is the same after a sweep. -/
theorem factorizeFrom_map {β : Type} {g : StageState α → β}
    (hg : ∀ m s, g (s.setRiccati m) = g s) (k : Nat) (l : List (StageState α)) :
    (factorizeFrom k l).stages.map g = l.map g := by
  cases l with
  | nil => rfl
  | cons s rest =>
      have hframe := map_eq_of_map_eq (g := g) (factorizeFrom_frame s.riccati (s :: rest) k)
      refine hframe fun b b' heq => ?_
      rw [← hg s.riccati b, ← hg s.riccati b', heq]

/-- The sweep keeps core and condensed system of every stage. -/
theorem factorizeFrom_kept (l : List (StageState α)) (k : Nat) :
    (factorizeFrom k l).stages.map kept = l.map kept := factorizeFrom_map (fun _ _ => rfl) k l

/-- The sweep keeps the shape of every stage. -/
theorem factorizeFrom_shaped (l : List (StageState α)) :
    ∀ (k j : Nat) (s' : StageState α), (factorizeFrom k l).stages[j]? = some s' →
      ∃ s, l[j]? = some s ∧ ∀ n, s.Shaped n → s'.Shaped n := by
  induction l with
  | nil =>
      intro k j s' h
      simp [factorizeFrom] at h
  | cons s rest ih =>
      intro k j s' h
      cases rest with
      | nil =>
          cases j with
          | zero =>
              obtain rfl := Option.some.inj h
              exact ⟨s, rfl, fun n hs => hs.closeCost⟩
          | succ j => simp [factorizeFrom] at h
      | cons next rest =>
          rcases factorizeFrom_cons_cons k s next rest with ⟨done, after, _, hs, heq⟩ | ⟨_, heq⟩
          · obtain ⟨s₁, hstage, _, hshape⟩ := exists_factorStage k (s.pullCost done.riccati.cost)
            rw [heq, hstage, List.singleton_append, ← hs] at h
            cases j with
            | zero =>
                obtain rfl := Option.some.inj h
                exact ⟨s, rfl, fun n hs => hshape n (hs.pullCost _)⟩
            | succ j => exact ih (k + 1) j s' h
          · rw [heq] at h
            cases j with
            | zero =>
                obtain rfl := Option.some.inj h
                exact ⟨s, rfl, fun n hs => hs⟩
            | succ j => exact ih (k + 1) j s' h

/-- The warnings of a stage are about that stage. -/
theorem shiftAt?_factorStage {k j : Nat} {s : StageState α} (hjk : k ≠ j) :
    (factorStage k s).warnings.findSome? (Warning.shiftAt? j) = none := by
  by_cases h0 : s.nu = 0
  · rw [factorStage_of_no_control h0]
    rfl
  · cases hof : ControlFactor.of? s.controlBlock with
    | none =>
        rw [factorStage_of_none h0 hof]
        rfl
    | some c =>
        rw [factorStage_of_some h0 hof]
        cases c.shift with
        | none => rfl
        | some a => simp [Warning.shiftAt?, hjk]

/-- The warnings of a sweep are about the stages it sweeps. -/
theorem shiftAt?_factorizeFrom (l : List (StageState α)) :
    ∀ k j, j < k → (factorizeFrom k l).shiftAt? j = none := by
  induction l with
  | nil => intro k j _; rfl
  | cons s rest ih =>
      intro k j hjk
      cases rest with
      | nil => rfl
      | cons next rest =>
          have hrest := ih (k + 1) j (by omega)
          rcases factorizeFrom_cons_cons k s next rest with ⟨done, after, _, _, heq⟩ | ⟨_, heq⟩
          · rw [Sweep.shiftAt?] at hrest
            rw [Sweep.shiftAt?, heq, List.findSome?_append, hrest,
              shiftAt?_factorStage (by omega)]
            rfl
          · rw [heq]
            exact hrest

/-- No warning is about the last stage, or about a stage that does not exist. -/
theorem shiftAt?_factorizeFrom_last (l : List (StageState α)) :
    ∀ k j, l.length ≤ j + 1 → (factorizeFrom k l).shiftAt? (k + j) = none := by
  induction l with
  | nil => intro k j _; rfl
  | cons s rest ih =>
      intro k j hj
      cases rest with
      | nil => rfl
      | cons next rest =>
          obtain ⟨i, rfl⟩ : ∃ i, j = i + 1 := ⟨j - 1, by simp only [List.length_cons] at hj; omega⟩
          have hrest := ih (k + 1) i (by simp only [List.length_cons] at hj ⊢; omega)
          rw [show k + 1 + i = k + (i + 1) by omega] at hrest
          rcases factorizeFrom_cons_cons k s next rest with ⟨done, after, _, _, heq⟩ | ⟨_, heq⟩
          · rw [Sweep.shiftAt?] at hrest
            rw [Sweep.shiftAt?, heq, List.findSome?_append, hrest,
              shiftAt?_factorStage (by omega)]
            rfl
          · rw [heq]
            exact hrest

theorem length_factorizeFrom (k : Nat) (l : List (StageState α)) :
    (factorizeFrom k l).stages.length = l.length := by
  simpa only [List.length_map] using congrArg List.length (factorizeFrom_kept l k)

/-- A sweep that failed after the first stage stops there. -/
theorem factorizeFrom_of_failed {k j : Nat} {next : StageState α} {rest : List (StageState α)}
    (s : StageState α) (hfail : (factorizeFrom (k + 1) (next :: rest)).failed = some j) :
    factorizeFrom k (s :: next :: rest) =
      { factorizeFrom (k + 1) (next :: rest) with
        stages := s :: (factorizeFrom (k + 1) (next :: rest)).stages } := by
  rw [factorizeFrom]
  simp only [hfail]

/-- A sweep that did not fail after the first stage goes on to it. -/
theorem factorizeFrom_of_done {k : Nat} {next done : StageState α}
    {rest after : List (StageState α)} (s : StageState α)
    (hok : (factorizeFrom (k + 1) (next :: rest)).failed = none)
    (hdone : (factorizeFrom (k + 1) (next :: rest)).stages = done :: after) :
    factorizeFrom k (s :: next :: rest) =
      ⟨(factorStage k (s.pullCost done.riccati.cost)).stages ++ done :: after,
        (factorizeFrom (k + 1) (next :: rest)).warnings ++
          (factorStage k (s.pullCost done.riccati.cost)).warnings,
        (factorStage k (s.pullCost done.riccati.cost)).failed⟩ := by
  rw [factorizeFrom]
  simp only [hok, hdone]

theorem exists_done (k : Nat) (next : StageState α) (rest : List (StageState α)) :
    ∃ done after, (factorizeFrom k (next :: rest)).stages = done :: after := by
  have hlen := length_factorizeFrom k (next :: rest)
  cases hst : (factorizeFrom k (next :: rest)).stages with
  | nil =>
      rw [hst] at hlen
      cases hlen
  | cons done after => exact ⟨done, after, rfl⟩

/-- A sweep over more than one stage that did not fail: the stages after the first were swept
without failing, and the first by what came out of them. -/
theorem factorizeFrom_of_ok {k : Nat} {s next : StageState α} {rest : List (StageState α)}
    (hok : (factorizeFrom k (s :: next :: rest)).failed = none) :
    ∃ s' done after, (factorizeFrom (k + 1) (next :: rest)).failed = none ∧
      (factorizeFrom (k + 1) (next :: rest)).stages = done :: after ∧
      (factorizeFrom k (s :: next :: rest)).stages = s' :: done :: after ∧
      s'.Swept done.riccati.cost ((factorizeFrom k (s :: next :: rest)).shiftAt? k) ∧
      ∀ j, k < j → (factorizeFrom k (s :: next :: rest)).shiftAt? j =
        (factorizeFrom (k + 1) (next :: rest)).shiftAt? j := by
  rcases factorizeFrom_cons_cons k s next rest with ⟨done, after, hf, hs, heq⟩ | ⟨hbad, heq⟩
  · rw [heq] at hok
    obtain ⟨s', hstage, _, _⟩ := exists_factorStage k (s.pullCost done.riccati.cost)
    refine ⟨s', done, after, hf, hs, by rw [heq, hstage]; rfl, ?_, ?_⟩
    · have hnone := shiftAt?_factorizeFrom (next :: rest) (k + 1) k (by omega)
      rw [Sweep.shiftAt?] at hnone
      rw [Sweep.shiftAt?, heq, List.findSome?_append, hnone, Option.none_or]
      exact swept_of_factorStage _ hok hstage
    · intro j hj
      rw [Sweep.shiftAt?, heq, List.findSome?_append, shiftAt?_factorStage (by omega),
        Option.or_none]
      rfl
  · exfalso
    rw [heq] at hok
    rcases hbad with hfail | hnil
    · exact hfail hok
    · have hlen := length_factorizeFrom (k + 1) (next :: rest)
      simp [hnil] at hlen

/-- After a sweep that did not fail, a stage with a successor is swept with its cost-to-go. -/
theorem swept_of_factorizeFrom (l : List (StageState α)) :
    ∀ k, (factorizeFrom k l).failed = none → ∀ (j : Nat) (s next : StageState α),
      (factorizeFrom k l).stages[j]? = some s →
      (factorizeFrom k l).stages[j + 1]? = some next →
      s.Swept next.riccati.cost ((factorizeFrom k l).shiftAt? (k + j)) := by
  induction l with
  | nil =>
      intro k _ j s next hs
      simp [factorizeFrom] at hs
  | cons s₀ rest ih =>
      intro k hok j s next hs hnext
      cases rest with
      | nil =>
          cases j with
          | zero => simp [factorizeFrom] at hnext
          | succ j => simp [factorizeFrom] at hs
      | cons next₀ rest =>
          obtain ⟨s', done, after, hf, hdone, hstages, hswept, hshift⟩ := factorizeFrom_of_ok hok
          rw [hstages] at hs hnext
          cases j with
          | zero =>
              obtain rfl := Option.some.inj hs
              obtain rfl := Option.some.inj hnext
              exact hswept
          | succ j =>
              rw [hshift (k + (j + 1)) (by omega), show k + (j + 1) = k + 1 + j by omega]
              refine ih (k + 1) hf j s next ?_ ?_
              · rwa [hdone]
              · rwa [hdone]

/-- After a sweep that did not fail, the cost-to-go of the last stage is its own cost. -/
theorem cost_last_of_factorizeFrom (l : List (StageState α)) :
    ∀ k, (factorizeFrom k l).failed = none → ∀ (j : Nat) (s : StageState α),
      (factorizeFrom k l).stages[j]? = some s →
      (factorizeFrom k l).stages[j + 1]? = none →
      s.riccati.cost = s.condensed.hess.block s.nu s.nu s.nx s.nx := by
  induction l with
  | nil =>
      intro k _ j s hs
      simp [factorizeFrom] at hs
  | cons s₀ rest ih =>
      intro k hok j s hs hnext
      cases rest with
      | nil =>
          cases j with
          | zero =>
              obtain rfl := Option.some.inj hs
              rfl
          | succ j => simp [factorizeFrom] at hs
      | cons next₀ rest =>
          obtain ⟨s', done, after, hf, hdone, hstages, _, _⟩ := factorizeFrom_of_ok hok
          rw [hstages] at hs hnext
          cases j with
          | zero => simp at hnext
          | succ j =>
              refine ih (k + 1) hf j s ?_ ?_
              · rwa [hdone]
              · rwa [hdone]

/-! ## The sweep over a whole chain -/

theorem factorize_core (l : List (StageState α)) :
    (factorize l).stages.map StageState.core = l.map StageState.core :=
  map_map_eq (g := Prod.fst) (factorizeFrom_kept l 0)

theorem factorize_chained {l : List (StageState α)} (h : Chained l) :
    Chained (factorize l).stages :=
  h.of_stages (map_nx_of_core (factorize_core l)) (factorizeFrom_shaped l 0)

/-- After a sweep that did not fail, a stage with a successor is swept with its cost-to-go. -/
theorem swept_of_factorize {l : List (StageState α)} (hok : (factorize l).failed = none) {j : Nat}
    {s next : StageState α} (hs : (factorize l).stages[j]? = some s)
    (hnext : (factorize l).stages[j + 1]? = some next) :
    s.Swept next.riccati.cost ((factorize l).shiftAt? j) := by
  have h := swept_of_factorizeFrom l 0 hok j s next hs hnext
  rwa [Nat.zero_add] at h

/-- A sweep that did not fail used no shift on a stage, or an admissible one. -/
theorem shiftAt?_factorize {l : List (StageState α)} (hok : (factorize l).failed = none) (k : Nat) :
    (factorize l).shiftAt? k = none ∨ ∃ s, (factorize l).stages[k]? = some s ∧
      ∃ eps ∈ ControlFactor.shifts,
        (factorize l).shiftAt? k = some (eps * ControlFactor.scale s.controlBlock) := by
  have hlen := length_factorizeFrom 0 l
  by_cases hk : k + 1 < l.length
  · obtain ⟨s, hs⟩ : ∃ s, (factorize l).stages[k]? = some s :=
      ⟨_, List.getElem?_eq_getElem (show k < (factorizeFrom 0 l).stages.length by omega)⟩
    obtain ⟨next, hnext⟩ : ∃ next, (factorize l).stages[k + 1]? = some next :=
      ⟨_, List.getElem?_eq_getElem (show k + 1 < (factorizeFrom 0 l).stages.length by omega)⟩
    have hswept := swept_of_factorize hok hs hnext
    by_cases hnu : s.nu = 0
    · exact .inl (hswept.unfactored hnu)
    · obtain ⟨c, hof, _, hshift⟩ := hswept.factored hnu
      rcases ControlFactor.factor_of_of? hof with ⟨hnone, _⟩ | ⟨eps, hmem, hsome, _⟩
      · exact .inl (hshift.symm.trans hnone)
      · exact .inr ⟨s, hs, eps, hmem, hshift.symm.trans hsome⟩
  · have hnone := shiftAt?_factorizeFrom_last l 0 k (by omega)
    rw [Nat.zero_add] at hnone
    exact .inl hnone

/-- After a sweep that did not fail, the cost-to-go of the last stage is its own cost. -/
theorem cost_last_of_factorize {l : List (StageState α)} (hok : (factorize l).failed = none)
    {j : Nat} {s : StageState α} (hs : (factorize l).stages[j]? = some s)
    (hnext : (factorize l).stages[j + 1]? = none) :
    s.riccati.cost = s.condensed.hess.block s.nu s.nu s.nx s.nx :=
  cost_last_of_factorizeFrom l 0 hok j s hs hnext

end Riccati

/-! ## A factorized chain -/

/-- The chain has been swept backward, with the shifts `shift k`. -/
structure Factorized (shift : Nat → Option α) (l : List (StageState α)) : Prop where
  /-- The condensed Hessian is that of the current point. -/
  hess : ∀ (k : Nat) (s : StageState α), l[k]? = some s →
    s.condensed.hess = s.condenseHessian.condensed.hess
  /-- A stage with a successor. -/
  inner : ∀ (k : Nat) (s next : StageState α), l[k]? = some s → l[k + 1]? = some next →
    s.Swept next.riccati.cost (shift k)
  /-- The last stage. -/
  last : ∀ (k : Nat) (s : StageState α), l[k]? = some s → l[k + 1]? = none →
    s.riccati.cost = s.condensed.hess.block s.nu s.nu s.nx s.nx

theorem StageState.condenseHessian_of_core {s s' : StageState α} (h : s'.core = s.core) :
    s'.condenseHessian.condensed.hess = s.condenseHessian.condensed.hess := by
  have hdata : s'.data = s.data := congrArg StageCore.data h
  have hpoint : s'.point = s.point := congrArg StageCore.point h
  simp only [condenseHessian, hdata, hpoint]

/-- A chain whose Hessians were condensed and which was then swept without failing. -/
theorem factorized_factorize {l : List (StageState α)}
    (hok : (Riccati.factorize (l.map StageState.condenseHessian)).failed = none) :
    Factorized (Riccati.factorize (l.map StageState.condenseHessian)).shiftAt?
      (Riccati.factorize (l.map StageState.condenseHessian)).stages := by
  refine ⟨?_, fun k s next => Riccati.swept_of_factorize hok,
    fun k s => Riccati.cost_last_of_factorize hok⟩
  intro k s hs
  obtain ⟨s₁, hs₁, hkept⟩ := exists_getElem?_of_map_eq
    (Riccati.factorizeFrom_kept (l.map StageState.condenseHessian) 0) hs
  rw [List.getElem?_map] at hs₁
  obtain ⟨s₀, _, rfl⟩ := Option.map_eq_some_iff.1 hs₁
  have hcore : s.core = s₀.core := congrArg Prod.fst hkept
  rw [StageState.condenseHessian_of_core hcore]
  exact congrArg (fun p => p.2.hess) hkept

/-- The sweep is a fact about core and factors. -/
theorem StageState.Swept.of_ground {s s' : StageState α} {next next' : Mat α} {shift : Option α}
    (hg : s'.ground = s.ground) (hnext : next' = next) (h : s.Swept next shift) :
    s'.Swept next' shift := by
  have hnu : s'.nu = s.nu := congrArg (fun p => p.1.nu) hg
  have hnx : s'.nx = s.nx := congrArg (fun p => p.1.nx) hg
  have hdata : s'.data = s.data := congrArg (fun p => p.1.data) hg
  have hhess : s'.condensed.hess = s.condensed.hess := congrArg (fun p => p.2.hess) hg
  have htotal : s'.riccati.total = s.riccati.total := congrArg (fun p => p.2.total) hg
  have hcost : s'.riccati.cost = s.riccati.cost := congrArg (fun p => p.2.cost) hg
  have hgain : s'.riccati.gain = s.riccati.gain := congrArg (fun p => p.2.gain) hg
  have hfactor : s'.riccati.factor = s.riccati.factor := congrArg (fun p => p.2.factor) hg
  subst hnext
  constructor
  · rw [htotal, hhess, hdata]
    exact h.total
  · rw [hnu]
    exact h.unfactored
  · rw [hnu, controlBlock, htotal, hnu, hfactor]
    exact h.factored
  · rw [hnx, hgain, hfactor, crossBlock, htotal, hnu, hnx]
    exact h.gain
  · rw [hnx, hcost, htotal, hgain, crossBlock, htotal, hnu, hnx]
    exact h.cost

theorem Factorized.of_ground {shift : Nat → Option α} {l l' : List (StageState α)}
    (h : Factorized shift l) (hg : l'.map StageState.ground = l.map StageState.ground) :
    Factorized shift l' := by
  refine ⟨?_, ?_, ?_⟩
  · intro k s' hs'
    obtain ⟨s, hs, heq⟩ := exists_getElem?_of_map_eq hg hs'
    rw [StageState.condenseHessian_of_core (congrArg Prod.fst heq), ← h.hess k s hs]
    exact congrArg (fun p => p.2.hess) heq
  · intro k s' next' hs' hnext'
    obtain ⟨s, hs, heq⟩ := exists_getElem?_of_map_eq hg hs'
    obtain ⟨next, hnext, heqNext⟩ := exists_getElem?_of_map_eq hg hnext'
    exact (h.inner k s next hs hnext).of_ground heq (congrArg (fun p => p.2.cost) heqNext)
  · intro k s' hs' hnone
    obtain ⟨s, hs, heq⟩ := exists_getElem?_of_map_eq hg hs'
    rw [show s'.riccati.cost = s.riccati.cost from congrArg (fun p => p.2.cost) heq,
      show s'.condensed.hess = s.condensed.hess from congrArg (fun p => p.2.hess) heq,
      show s'.nu = s.nu from congrArg (fun p => p.1.nu) heq,
      show s'.nx = s.nx from congrArg (fun p => p.1.nx) heq]
    exact h.last k s hs (getElem?_eq_none_of_map_eq hg hnone)

end StagedQP
