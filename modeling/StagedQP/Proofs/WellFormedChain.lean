import StagedQP.Proofs.WellFormedStage

/-!
# What a horizon accepts

A chain of stages makes a horizon when there are sizes for which every stage is well formed and
which fit together: the first stage has no states, the last no controls, and each stage leads to the
states of the stage after it. `Horizon.check` finds these sizes and looks at nothing else.

A stage is well formed on its own if there are sizes for it. When a single stage of a chain is not,
its number is the one that the error names.

## Main results

* `Horizon.LaidOut.check_eq_ok_iff` — once the sizes fit, only bounds are left to check.
* `Horizon.check_eq_ok_iff` — a chain of stages.
* `Horizon.of?_accepts_wellFormed` — what makes a horizon, and which stage is to blame otherwise.
-/

namespace StagedQP

variable {α : Type}

namespace Horizon

/-! ## Sizes that fit together -/

/-- There are two stages at least, each laid out for its sizes; the first has no states, the last no
controls, and the dynamics lead from stage to stage and end after the last. -/
structure LaidOut (l : List (Stage α)) (d : Nat → StageSizes) : Prop where
  length : 2 ≤ l.length
  first : (d 0).nx = 0
  lastControls : (d (l.length - 1)).nu = 0
  afterLast : (d l.length).nx = 0
  stage : ∀ (k : Nat) (s : Stage α), l[k]? = some s → s.LaidOut (d k) (d (k + 1)).nx

/-- There are sizes for which the chain is laid out and each of its stages is well formed. -/
def WellFormed [Scalar α] (l : List (Stage α)) : Prop :=
  ∃ d, LaidOut l d ∧ ∀ (k : Nat) (s : Stage α), l[k]? = some s →
    s.WellFormedFor (d k) (d (k + 1)).nx

/-- The sizes that the stages of a chain declare, and none past its end. -/
def declaredSizes (l : List (Stage α)) (k : Nat) : StageSizes :=
  l[k]?.elim ⟨0, 0, 0, 0⟩ Stage.sizes

/-- A consistent chain of stages with distinct positions is laid out. -/
theorem Consistent.laidOut {l : List (Stage α)} (h : Consistent l)
    (hdistinct : ∀ s ∈ l, s.idxb.Nodup) : LaidOut l (declaredSizes l) := by
  have hsizes : ∀ {k : Nat} {s : Stage α}, l[k]? = some s → declaredSizes l k = s.sizes := by
    intro k s hs
    unfold declaredSizes
    rw [hs, Option.elim_some]
  have hnone : ∀ {k : Nat}, l[k]? = none → (declaredSizes l k).nx = 0 := by
    intro k hk
    unfold declaredSizes
    rw [hk, Option.elim_none]
  have hlength := h.length
  have hfirst : l[0]? = some l[0] := List.getElem?_eq_getElem _
  have hlast : l[l.length - 1]? = some l[l.length - 1] := List.getElem?_eq_getElem _
  have hend : l[l.length - 1 + 1]? = none := List.getElem?_eq_none (by omega)
  refine ⟨hlength, ?_, ?_, hnone (List.getElem?_eq_none le_rfl), fun k s hs => ?_⟩
  · rw [hsizes hfirst]
    exact h.first _ hfirst
  · rw [hsizes hlast]
    exact (h.last _ _ hlast hend).1
  · have hmem := List.mem_of_getElem? hs
    have hnext : (declaredSizes l (k + 1)).nx = s.nxNext := by
      cases hk : l[k + 1]? with
      | none => rw [hnone hk, (h.last k s hs hk).2]
      | some next => rw [hsizes hk, h.link k s next hs hk]
    rw [hsizes hs, hnext]
    exact Stage.laidOut_iff.2 ⟨h.shaped s hmem, hdistinct s hmem, h.positions s hmem⟩

/-! ### The checks of a chain -/

theorem checkLinks_eq_ok {l : List (Stage α)} : ∀ (k : Nat),
    (∀ (j : Nat) (s next : Stage α), l[j]? = some s → l[j + 1]? = some next →
      s.nxNext = next.sizes.nx) → checkLinks k l = .ok () := by
  induction l with
  | nil =>
      intro k _
      rfl
  | cons s rest ih =>
      intro k h
      cases rest with
      | nil => rfl
      | cons next rest =>
          rw [checkLinks, if_pos (h 0 s next rfl rfl)]
          exact ih (k + 1) fun j s' next' hs' hnext' => h (j + 1) s' next' hs' hnext'

/-- The checks of how the stages of a chain fit together pass when it is laid out. -/
theorem LaidOut.checkCoupling {l : List (Stage α)} {d : Nat → StageSizes} (h : LaidOut l d) :
    checkFirst l = .ok () ∧ checkLinks 0 l = .ok () ∧
      ∀ last, l.getLast? = some last → checkLast (l.length - 1) last = .ok () := by
  refine ⟨?_, checkLinks_eq_ok 0 fun j s next hs hnext => ?_, fun last hlast => ?_⟩
  · cases l with
    | nil => rfl
    | cons s rest =>
        have hnx : s.sizes.nx = 0 := by
          rw [(h.stage 0 s rfl).sizes_eq.1]
          exact h.first
        rw [checkFirst, if_pos hnx]
  · rw [(h.stage j s hs).sizes_eq.2, (h.stage (j + 1) next hnext).sizes_eq.1]
  · rw [List.getLast?_eq_getElem?] at hlast
    obtain ⟨hsizes, hnext⟩ := (h.stage _ last hlast).sizes_eq
    have hend : l.length - 1 + 1 = l.length := by
      have := h.length
      omega
    rw [hend, h.afterLast] at hnext
    have hcontrols : last.sizes.nu = 0 := by rw [hsizes, h.lastControls]
    rw [checkLast, if_neg (not_not.2 hcontrols), if_neg (not_not.2 hnext)]

section Check

variable [Scalar α] [FiniteOrder α] {l : List (Stage α)}

omit [FiniteOrder α] in
/-- A chain is checked for its length, then stage by stage, then for how its stages fit together. -/
theorem check_of_length (hlength : 2 ≤ l.length) : check l = (do
    checkStages 0 l
    checkFirst l
    checkLinks 0 l
    match l.getLast? with
    | none => pure ()
    | some last => checkLast (l.length - 1) last) := by
  have hmany : ¬ l.length < 2 := by omega
  exact (if_neg hmany).trans rfl

theorem checkStages_eq_ok_iff (l : List (Stage α)) : ∀ {k : Nat},
    checkStages k l = .ok () ↔ ∀ s ∈ l, s.WellFormed := by
  induction l with
  | nil => simp [checkStages]
  | cons s rest ih =>
      intro k
      rw [checkStages, seq_eq_ok, Stage.check_eq_ok_iff, ih, List.forall_mem_cons]

omit [FiniteOrder α] in
/-- The stages are refused for what one of them is refused for. -/
theorem exists_of_checkStages_eq_error {e : SetupError α} (l : List (Stage α)) : ∀ {k : Nat},
    checkStages k l = .error e →
      ∃ (j : Nat) (s : Stage α), l[j]? = some s ∧ s.check (k + j) = .error e := by
  induction l with
  | nil =>
      intro k h
      cases h
  | cons s rest ih =>
      intro k h
      rw [checkStages, seq_eq_error] at h
      rcases h with hs | ⟨_, hrest⟩
      · exact ⟨0, s, rfl, hs⟩
      · obtain ⟨j, s', hj, hs'⟩ := ih hrest
        refine ⟨j + 1, s', hj, ?_⟩
        rwa [show k + (j + 1) = k + 1 + j by omega]

omit [FiniteOrder α] in
/-- Once the sizes of a chain fit, the stages are all that is left to check. -/
theorem LaidOut.check_eq {d : Nat → StageSizes} (h : LaidOut l d) :
    check l = checkStages 0 l := by
  obtain ⟨hfirst, hlinks, hlast⟩ := h.checkCoupling
  rw [check_of_length h.length, hfirst, hlinks]
  cases hend : l.getLast? with
  | none => cases checkStages 0 l <;> rfl
  | some last =>
      simp only [hlast last hend]
      cases checkStages 0 l <;> rfl

/-- And of the stages, their bounds. -/
theorem LaidOut.check_eq_ok_iff {d : Nat → StageSizes} (h : LaidOut l d) :
    check l = .ok () ↔ ∀ s ∈ l, s.RowsInOrder := by
  rw [h.check_eq, checkStages_eq_ok_iff]
  refine forall₂_congr fun s hs => ?_
  obtain ⟨k, hk⟩ := List.getElem?_of_mem hs
  rw [Stage.wellFormed_iff]
  exact and_iff_right (h.stage k s hk).declared

theorem LaidOut.bounds_of_check_eq_error {d : Nat → StageSizes} (h : LaidOut l d)
    {e : SetupError α} (he : check l = .error e) :
    ∃ k row lo up, e = .bounds k row lo up := by
  rw [h.check_eq] at he
  obtain ⟨k, s, hk, hs⟩ := exists_of_checkStages_eq_error l he
  rcases Stage.cases_of_check_eq_error hs with ⟨_, hnot⟩ | ⟨row, _, heq⟩
  · exact absurd ⟨_, _, h.stage k s hk⟩ hnot
  · exact ⟨_, row, _, _, heq⟩

/-- A chain passes exactly when it is well formed. -/
theorem check_eq_ok_iff : check l = .ok () ↔ WellFormed l := by
  constructor
  · intro h
    have hconsistent := consistent_of_check h
    have hstages : ∀ s ∈ l, s.WellFormed := by
      rw [check_of_length hconsistent.length, seq_eq_ok] at h
      exact (checkStages_eq_ok_iff l).1 h.1
    have hlaid := hconsistent.laidOut fun s hs =>
      (Stage.wellFormed_iff.1 (hstages s hs)).1.distinct
    refine ⟨_, hlaid, fun k s hs => ?_⟩
    obtain ⟨d, n, hform⟩ := hstages s (List.mem_of_getElem? hs)
    obtain ⟨hd, hn⟩ := hform.toLaidOut.sizes_eq
    obtain ⟨hd', hn'⟩ := (hlaid.stage k s hs).sizes_eq
    rw [← hd', ← hn', hd, hn]
    exact hform
  · rintro ⟨d, hlaid, hform⟩
    rw [hlaid.check_eq_ok_iff]
    intro s hs
    obtain ⟨k, hk⟩ := List.getElem?_of_mem hs
    exact (Stage.wellFormed_iff.1 ⟨_, _, hform k s hk⟩).2

/-- When a single stage is not well formed, it is the stage that the error names. A chain of one
stage is refused for its length, and at that stage. -/
theorem check_eq_error {k : Nat} {s : Stage α} (hs : l[k]? = some s) (hbad : ¬ s.WellFormed)
    (hothers : ∀ j s', j ≠ k → l[j]? = some s' → s'.WellFormed) :
    ∃ e, check l = .error e ∧ (if 2 ≤ l.length then s.check k = .error e
      else e = .mismatch k (.tooFewStages l.length)) := by
  by_cases hlength : 2 ≤ l.length
  · cases hstages : checkStages 0 l with
    | ok u =>
        exact absurd ((checkStages_eq_ok_iff l).1 hstages s (List.mem_of_getElem? hs)) hbad
    | error e =>
        obtain ⟨j, s', hj, hcheck⟩ := exists_of_checkStages_eq_error l hstages
        rw [Nat.zero_add] at hcheck
        -- the stage that was refused is not well formed, so it is the one that is not
        have hjk : j = k := by
          by_contra hne
          exact nomatch hcheck.symm.trans (Stage.check_eq_ok_iff.2 (hothers j s' hne hj))
        subst hjk
        obtain rfl := Option.some.inj (hs.symm.trans hj)
        refine ⟨e, ?_, by rwa [if_pos hlength]⟩
        rw [check_of_length hlength, hstages]
        rfl
  · have hk : k = 0 := by
      have := (List.getElem?_eq_some_iff.1 hs).1
      omega
    refine ⟨_, ?_, by rw [if_neg hlength]⟩
    rw [check, if_pos (by omega), hk]
    rfl

end Check

/-- Making a horizon is checking its stages. -/
theorem of?_eq_ok_iff [Scalar α] {ts : List (Template α)} {h : Horizon α} :
    of? ts = .ok h ↔ check (ts.map (·.stage)) = .ok () ∧ h.templates = ts := by
  unfold of?
  split
  · next hcheck =>
      constructor
      · intro heq
        obtain rfl := Except.ok.inj heq
        exact ⟨hcheck, rfl⟩
      · rintro ⟨_, rfl⟩
        rfl
  · next e hcheck =>
      exact ⟨fun heq => (nomatch heq), fun ⟨hok, _⟩ => (nomatch hcheck.symm.trans hok)⟩

theorem of?_eq_error_iff [Scalar α] {ts : List (Template α)} {e : SetupError α} :
    of? ts = .error e ↔ check (ts.map (·.stage)) = .error e := by
  unfold of?
  split
  · next hcheck => exact ⟨fun heq => (nomatch heq), fun herr => (nomatch hcheck.symm.trans herr)⟩
  · next e' hcheck => rw [hcheck, Except.error.injEq, Except.error.injEq]

/-- **A horizon is made of the well-formed chains of stages, and of no others.** When a single stage
of a chain is not well formed on its own, the error names that stage; bounds are reported at the
first row whose bounds are not finite and in order, and they are what is reported whenever the stage
is laid out in itself. -/
theorem of?_accepts_wellFormed [Scalar α] [FiniteOrder α] (ts : List (Template α)) :
    ((∃ h, of? ts = .ok h) ↔ WellFormed (ts.map (·.stage))) ∧
    ∀ (k : Nat) (s : Stage α), (ts.map (·.stage))[k]? = some s → ¬ s.WellFormed →
      (∀ j s', j ≠ k → (ts.map (·.stage))[j]? = some s' → s'.WellFormed) →
      ∃ e, of? ts = .error e ∧ e.stage? = some k ∧
        (∀ stage row lo up, e = .bounds stage row lo up →
          s.FirstOffending row ∧ s.boundsAt row = (lo, up)) ∧
        (2 ≤ ts.length → (∃ d n, s.LaidOut d n) →
          ∃ row lo up, e = .bounds k row lo up) := by
  refine ⟨?_, fun k s hs hbad hothers => ?_⟩
  · rw [← check_eq_ok_iff]
    exact ⟨fun ⟨_, h⟩ => (of?_eq_ok_iff.1 h).1, fun h => ⟨⟨ts, h⟩, of?_eq_ok_iff.2 ⟨h, rfl⟩⟩⟩
  · obtain ⟨e, he, hcheck⟩ := check_eq_error hs hbad hothers
    refine ⟨e, of?_eq_error_iff.2 he, ?_⟩
    rw [List.length_map] at hcheck
    split at hcheck
    · refine ⟨Stage.stage?_of_check_eq_error hcheck, fun stage row lo up hbounds => ?_,
        fun _ hlaid => ?_⟩
      · rcases Stage.cases_of_check_eq_error hcheck with ⟨⟨_, rfl⟩, _⟩ | ⟨_, hfirst, rfl⟩
        · cases hbounds
        · cases hbounds
          exact ⟨hfirst, rfl⟩
      · rcases Stage.cases_of_check_eq_error hcheck with ⟨_, hnot⟩ | ⟨row, _, heq⟩
        · exact absurd hlaid hnot
        · exact ⟨row, _, _, heq⟩
    · subst hcheck
      exact ⟨rfl, fun _ _ _ _ hbounds => (nomatch hbounds), fun hlength => absurd hlength ‹_›⟩

/-- One control, which becomes the only state, with a box row and two general rows. The last of the
three has the lower bound `lo`. -/
def rowed (lo : Extended ℚ) : Stage (Extended ℚ) :=
  { Stage.zeros 0 1 1 with
    idxb := [0]
    lb := Vec.ofList [0]
    ub := Vec.ofList [1]
    C := Mat.zeros 2 0
    D := Mat.zeros 2 1
    lg := Vec.ofList [0, lo]
    ug := Vec.ofList [1, 1] }

/-- For instance the bounds of that stage, in a chain with a last stage that is well formed: with a
finite bound the chain makes a horizon, and with an undefined one the first stage is to blame, for
its third row. -/
theorem of?_accepts_wellFormed_rowed :
    WellFormed [rowed 0, Stage.zeros 1 0 0] ∧ ¬ (rowed .undefined).WellFormed ∧
    of? [⟨0, rowed .undefined⟩, ⟨1, Stage.zeros 1 0 0⟩] = .error (.bounds 0 2 .undefined 1) ∧
    (rowed .undefined).FirstOffending 2 ∧ (rowed .undefined).boundsAt 2 = (.undefined, 1) := by
  have hlast : (Stage.zeros 1 0 0 : Stage (Extended ℚ)).WellFormed :=
    (Stage.check_eq_ok_iff (k := 1)).1 rfl
  have hbad : ¬ (rowed .undefined).WellFormed := fun h =>
    nomatch (Stage.check_eq_ok_iff.2 h : (rowed .undefined).check 0 = .ok ())
  have herror : of? [⟨0, rowed .undefined⟩, ⟨1, Stage.zeros 1 0 0⟩] =
      .error (.bounds 0 2 .undefined 1) := rfl
  have hgood := (of?_accepts_wellFormed [⟨0, rowed 0⟩, ⟨1, Stage.zeros 1 0 0⟩]).1.1 ⟨⟨_, rfl⟩, rfl⟩
  have hothers : ∀ j s, j ≠ 0 → [rowed .undefined, Stage.zeros 1 0 0][j]? = some s →
      s.WellFormed := by
    intro j s hj hs
    cases j with
    | zero => exact absurd rfl hj
    | succ j =>
        cases j with
        | zero => exact Option.some.inj hs ▸ hlast
        | succ j => cases hs
  obtain ⟨e, he, _, hfirst, _⟩ := (of?_accepts_wellFormed
    [⟨0, rowed .undefined⟩, ⟨1, Stage.zeros 1 0 0⟩]).2 0 (rowed .undefined) rfl hbad hothers
  obtain rfl := Except.error.inj (herror.symm.trans he)
  exact ⟨hgood, hbad, herror, hfirst 0 2 _ _ rfl⟩

end Horizon

end StagedQP
