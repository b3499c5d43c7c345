import StagedQP.Horizon

/-!
# What an accepted horizon is

`Horizon.check` reports the first disagreement it finds. Read the other way round, a chain of stages
that passes has arrays of the declared shapes, box rows that address entries of the stage vector,
dynamics that lead from stage to stage, and the ends of a horizon. `Horizon.Consistent` states this
by indices, which is how everything after this module uses it.

## Main results

* `Stage.wellShaped_of_check`, `Stage.positions_of_check` — one stage.
* `Horizon.consistent` — the stages of a horizon are consistent.
-/

namespace StagedQP

variable {α : Type}

/-- Two checks in a row pass when both do. -/
theorem seq_eq_ok {ε β : Type} {x : Except ε Unit} {y : Except ε β} {b : β} :
    (do x; y) = Except.ok b ↔ x = .ok () ∧ y = .ok b := by
  cases x with
  | error e =>
      constructor
      · intro h
        cases h
      · rintro ⟨h, _⟩
        cases h
  | ok u => exact ⟨fun h => ⟨rfl, h⟩, fun h => h.2⟩

/-- What is returned does not depend on how errors are reported. -/
theorem mapError_eq_ok_iff {ε ε' β : Type} {f : ε → ε'} {x : Except ε β} {b : β} :
    x.mapError f = .ok b ↔ x = .ok b := by
  cases x with
  | error e =>
      constructor <;>
        · intro h
          cases h
  | ok b' =>
      constructor <;>
        · intro h
          exact congrArg Except.ok (Except.ok.inj h)

/-- A run that starts by raising an error returns nothing. -/
theorem throw_bind_ne_ok {ε β γ : Type} {e : ε} {f : β → Except ε γ} {c : γ} :
    (throw e >>= f) ≠ Except.ok c := by
  intro h
  cases h

/-- What a run in two parts returned was made of what its first part returned. -/
theorem exists_of_bind_eq_ok {ε β γ : Type} {x : Except ε β} {f : β → Except ε γ} {c : γ}
    (h : x.bind f = .ok c) : ∃ b, x = .ok b ∧ f b = .ok c := by
  cases x with
  | error e => cases h
  | ok b => exact ⟨b, rfl, h⟩

/-- A run that was evaluated: it returned something, of which the value found is a part. -/
theorem exists_of_evaluated {ε β γ : Type} {x : Except ε β} {f : β → γ} {c : γ}
    (h : x.toOption.map f = some c) : ∃ b, x = .ok b ∧ f b = c := by
  cases x with
  | error e => cases h
  | ok b => exact ⟨b, rfl, Option.some.inj h⟩

/-- The same for a run in two parts that report their errors in different ways. -/
theorem exists_of_evaluated_bind {ε ε' β γ δ : Type} {x : Except ε β} {f : β → Except ε' γ}
    {g : γ → δ} {d : δ} (h : (x.toOption.bind fun b => (f b).toOption.map g) = some d) :
    ∃ b c, x = .ok b ∧ f b = .ok c ∧ g c = d := by
  cases x with
  | error e => cases h
  | ok b =>
      obtain ⟨c, hc, hd⟩ := exists_of_evaluated h
      exact ⟨b, c, rfl, hc, hd⟩

theorem Mat.checkShape_eq_ok {stage rows cols : Nat} {name : String} {m : Mat α} :
    m.checkShape stage name rows cols = .ok () ↔ m.rows = rows ∧ m.cols = cols := by
  rw [checkShape]
  split
  · exact ⟨fun _ => ‹_›, fun _ => rfl⟩
  · constructor
    · intro h
      cases h
    · intro h
      contradiction

theorem Vec.checkLength_eq_ok {stage size : Nat} {name : String} {v : Vec α} :
    v.checkLength stage name size = .ok () ↔ v.size = size := by
  rw [checkLength]
  split
  · exact ⟨fun _ => ‹_›, fun _ => rfl⟩
  · constructor
    · intro h
      cases h
    · intro h
      contradiction

/-! ## One stage -/

namespace Stage

/-- All arrays have the shapes that the sizes of the stage call for. -/
structure WellShaped (s : Stage α) : Prop where
  Q_cols : s.Q.cols = s.sizes.nx
  R_cols : s.R.cols = s.sizes.nu
  S_rows : s.S.rows = s.sizes.nu
  S_cols : s.S.cols = s.sizes.nx
  q : s.q.size = s.sizes.nx
  r : s.r.size = s.sizes.nu
  A_cols : s.A.cols = s.sizes.nx
  B_rows : s.B.rows = s.nxNext
  B_cols : s.B.cols = s.sizes.nu
  b : s.b.size = s.nxNext
  lb : s.lb.size = s.sizes.nb
  ub : s.ub.size = s.sizes.nb
  C_cols : s.C.cols = s.sizes.nx
  D_rows : s.D.rows = s.sizes.ng
  D_cols : s.D.cols = s.sizes.nu
  lg : s.lg.size = s.sizes.ng
  ug : s.ug.size = s.sizes.ng

theorem wellShaped_of_checkShapes {stage : Nat} {s : Stage α} (h : s.checkShapes stage = .ok ()) :
    s.WellShaped := by
  simp only [checkShapes, seq_eq_ok, Mat.checkShape_eq_ok, Vec.checkLength_eq_ok] at h
  obtain ⟨⟨_, hQ⟩, ⟨_, hR⟩, ⟨hS, hS'⟩, hq, hr, ⟨_, hA⟩, ⟨hB, hB'⟩, hb, hlb, hub, ⟨_, hC⟩, ⟨hD, hD'⟩,
    hlg, hug⟩ := h
  exact ⟨hQ, hR, hS, hS', hq, hr, hA, hB, hB', hb, hlb, hub, hC, hD, hD', hlg, hug⟩

/-- Box rows that pass address entries of the stage vector. -/
theorem lt_of_checkPositions {stage nv : Nat} (l : List Nat) : ∀ (row : Nat) (seen : List Nat),
    (checkPositions stage nv row seen l : Except (SetupError α) Unit) = .ok () →
      ∀ i ∈ l, i < nv := by
  induction l with
  | nil =>
      intro row seen _ i hi
      cases hi
  | cons p rest ih =>
      intro row seen h i hi
      rw [checkPositions] at h
      split at h
      · cases h
      · split at h
        · cases h
        · rcases List.mem_cons.1 hi with rfl | hrest
          · omega
          · exact ih _ _ h i hrest

variable [Scalar α] {stage : Nat} {s : Stage α}

theorem wellShaped_of_check (h : s.check stage = .ok ()) : s.WellShaped := by
  simp only [check, seq_eq_ok] at h
  exact wellShaped_of_checkShapes h.1

theorem positions_of_check (h : s.check stage = .ok ()) : ∀ i ∈ s.idxb, i < s.sizes.nv := by
  simp only [check, seq_eq_ok] at h
  exact lt_of_checkPositions _ _ _ h.2.1

end Stage

/-! ## The chain -/

namespace Horizon

/-- The stages are well shaped and form a chain with the ends of a horizon. -/
structure Consistent (l : List (Stage α)) : Prop where
  /-- There is at least one step. -/
  length : 2 ≤ l.length
  /-- Every stage is well shaped. -/
  shaped : ∀ s ∈ l, s.WellShaped
  /-- Box rows address entries of the stage vector. -/
  positions : ∀ s ∈ l, ∀ i ∈ s.idxb, i < s.sizes.nv
  /-- The first stage has no states. -/
  first : ∀ s, l[0]? = some s → s.sizes.nx = 0
  /-- The dynamics lead from stage to stage. -/
  link : ∀ (k : Nat) (s next : Stage α), l[k]? = some s → l[k + 1]? = some next →
    s.nxNext = next.sizes.nx
  /-- The last stage has neither controls nor dynamics. -/
  last : ∀ (k : Nat) (s : Stage α), l[k]? = some s → l[k + 1]? = none →
    s.sizes.nu = 0 ∧ s.nxNext = 0

theorem check_of_checkStages [Scalar α] (l : List (Stage α)) : ∀ k, checkStages k l = .ok () →
    ∀ s ∈ l, ∃ j, s.check j = .ok () := by
  induction l with
  | nil =>
      intro k _ s hs
      cases hs
  | cons s₀ rest ih =>
      intro k h s hs
      rw [checkStages, seq_eq_ok] at h
      rcases List.mem_cons.1 hs with rfl | hrest
      · exact ⟨k, h.1⟩
      · exact ih (k + 1) h.2 s hrest

theorem link_of_checkLinks (l : List (Stage α)) : ∀ k, checkLinks k l = .ok () →
    ∀ (j : Nat) (s next : Stage α), l[j]? = some s → l[j + 1]? = some next →
      s.nxNext = next.sizes.nx := by
  induction l with
  | nil =>
      intro k _ j s next hs
      cases hs
  | cons s₀ rest ih =>
      intro k h j s next hs hnext
      cases rest with
      | nil => cases hnext
      | cons next₀ rest =>
          rw [checkLinks] at h
          split at h
          · cases j with
            | zero =>
                obtain rfl := Option.some.inj hs
                obtain rfl := Option.some.inj hnext
                assumption
            | succ j => exact ih (k + 1) h j s next hs hnext
          · cases h

theorem nx_of_checkFirst {l : List (Stage α)} (h : checkFirst l = .ok ()) :
    ∀ s, l[0]? = some s → s.sizes.nx = 0 := by
  intro s hs
  cases l with
  | nil => cases hs
  | cons s₀ rest =>
      obtain rfl := Option.some.inj hs
      rw [checkFirst] at h
      split at h
      · assumption
      · cases h

theorem ends_of_checkLast {k : Nat} {s : Stage α} (h : checkLast k s = .ok ()) :
    s.sizes.nu = 0 ∧ s.nxNext = 0 := by
  rw [checkLast] at h
  split at h
  · cases h
  · split at h
    · cases h
    · constructor
      · omega
      · omega

theorem consistent_of_check [Scalar α] {l : List (Stage α)} (h : check l = .ok ()) :
    Consistent l := by
  rw [check] at h
  have hlen : ¬ l.length < 2 := by
    intro hlt
    rw [if_pos hlt] at h
    cases h
  rw [if_neg hlen] at h
  dsimp only at h
  rw [seq_eq_ok, seq_eq_ok, seq_eq_ok] at h
  obtain ⟨hstages, hfirst, hlinks, hlast⟩ := h
  refine ⟨by omega, ?_, ?_, nx_of_checkFirst hfirst, link_of_checkLinks l 0 hlinks, ?_⟩
  · intro s hs
    obtain ⟨j, hj⟩ := check_of_checkStages l 0 hstages s hs
    exact Stage.wellShaped_of_check hj
  · intro s hs
    obtain ⟨j, hj⟩ := check_of_checkStages l 0 hstages s hs
    exact Stage.positions_of_check hj
  · intro k s hs hnone
    have hk : k = l.length - 1 := by
      have hlt := (List.getElem?_eq_some_iff.1 hs).1
      rw [List.getElem?_eq_none_iff] at hnone
      omega
    have hget : l.getLast? = some s := by
      rw [List.getLast?_eq_getElem?, ← hk]
      exact hs
    rw [hget] at hlast
    exact ends_of_checkLast hlast

/-- The stages of a horizon are consistent. -/
theorem consistent [Scalar α] (h : Horizon α) : Consistent h.stages :=
  consistent_of_check h.accepted

end Horizon

end StagedQP
