import StagedQP.Proofs.AcceptedHorizon
import StagedQP.Proofs.ExtendedNumbers

/-!
# What a stage must look like

`Stage.check` is a sequence of comparisons, made in a fixed order and abandoned at the first that
fails. What it accepts can be said without an order and without a sequence: there are sizes such
that every array has the shape documented for it,

```text
A  nx⁺ × nx    B  nx⁺ × nu    b  nx⁺
Q  nx × nx     S  nu × nx     R  nu × nu     q  nx    r  nu
C  ng × nx     D  ng × nu     lg, ug  ng     lb, ub  nb
```

the `nb` positions of the box rows are distinct and inside the stage vector, and the bounds of every
row are finite and in order. The arrays may be of any shapes and hold any values, infinite and
undefined ones included; of the arithmetic nothing is used except that two finite values compare one
way or the other (`FiniteOrder`).

## Main results

* `Stage.layout_eq_ok_iff` — the checks of shapes and positions.
* `Stage.check_eq_ok_iff`, `Stage.cases_of_check_eq_error` — a stage accepted, and a stage refused.
-/

namespace StagedQP

variable {α : Type}

/-- Finite values compare one way or the other. -/
class FiniteOrder (α : Type) [Scalar α] : Prop where
  /-- What is not below is at least as large. -/
  le_eq_not_lt : ∀ a b : α, Scalar.isFinite a = true → Scalar.isFinite b = true →
    Scalar.le a b = !Scalar.lt b a

instance {K : Type} [Field K] [LinearOrder K] [SquareRoot K] : FiniteOrder K where
  le_eq_not_lt a b _ _ := by
    rw [Bool.eq_iff_iff, Scalar.le_iff, Bool.not_eq_true', Scalar.lt_eq_false_iff, not_lt]

instance {K : Type} [Field K] [LinearOrder K] [SquareRoot K] : FiniteOrder (Extended K) where
  le_eq_not_lt a b ha hb := by
    cases a with
    | finite a =>
        cases b with
        | finite b => exact (Bool.not_not _).symm
        | infinite s => cases hb
        | undefined => cases hb
    | infinite s => cases ha
    | undefined => cases ha

/-- Two bounds are finite, and the lower is at most the upper. -/
def InOrder [Scalar α] (p : α × α) : Prop :=
  Scalar.isFinite p.1 = true ∧ Scalar.isFinite p.2 = true ∧ Scalar.le p.1 p.2 = true

theorem Stage.boundsInOrder_iff [Scalar α] [FiniteOrder α] (p : α × α) :
    boundsInOrder p.1 p.2 = true ↔ InOrder p := by
  unfold boundsInOrder InOrder
  rw [Bool.and_eq_true, Bool.and_eq_true, and_assoc]
  refine and_congr_right fun hlo => and_congr_right fun hup => ?_
  rw [FiniteOrder.le_eq_not_lt _ _ hlo hup]

/-! ## Errors -/

/-- The stage that an error names. -/
def SetupError.stage? : SetupError α → Option Nat
  | .mismatch stage _ => some stage
  | .bounds stage _ _ _ => some stage
  | .singular _ => none
  | .system _ => none
  | .config _ => none

/-- A check of stage `k` fails with a wrong size, if it fails. -/
def OnlyMismatch (k : Nat) (x : Except (SetupError α) Unit) : Prop :=
  ∀ e, x = .error e → ∃ cause, e = .mismatch k cause

theorem OnlyMismatch.seq {k : Nat} {x y : Except (SetupError α) Unit} (hx : OnlyMismatch k x)
    (hy : OnlyMismatch k y) : OnlyMismatch k (do x; y) := by
  intro e he
  cases x with
  | error e' => exact hx e he
  | ok u => exact hy e he

theorem Mat.onlyMismatch_checkShape (k : Nat) (name : String) (m : Mat α) (rows cols : Nat) :
    OnlyMismatch k (m.checkShape k name rows cols) := by
  intro e he
  unfold checkShape at he
  split at he
  · cases he
  · exact ⟨_, (Except.error.inj he).symm⟩

theorem Vec.onlyMismatch_checkLength (k : Nat) (name : String) (v : Vec α) (size : Nat) :
    OnlyMismatch k (v.checkLength k name size) := by
  intro e he
  unfold checkLength at he
  split at he
  · cases he
  · exact ⟨_, (Except.error.inj he).symm⟩

/-- The error of two checks in a row is that of the first that fails. -/
theorem seq_eq_error {x y : Except (SetupError α) Unit} {e : SetupError α} :
    (do x; y) = Except.error e ↔ x = .error e ∨ x = .ok () ∧ y = .error e := by
  cases x with
  | error e' => exact ⟨.inl, fun h => h.elim id fun h => nomatch h.1⟩
  | ok u => exact ⟨fun h => .inr ⟨rfl, h⟩, fun h => h.elim (fun h => nomatch h) And.right⟩

/-! ## One stage -/

namespace Stage

/-- The arrays of a stage have the shapes that go with sizes `d` and `n` states at the stage after,
and its box rows bound distinct entries of the stage vector. -/
structure LaidOut (s : Stage α) (d : StageSizes) (n : Nat) : Prop where
  A : s.A.rows = n ∧ s.A.cols = d.nx
  B : s.B.rows = n ∧ s.B.cols = d.nu
  b : s.b.size = n
  Q : s.Q.rows = d.nx ∧ s.Q.cols = d.nx
  S : s.S.rows = d.nu ∧ s.S.cols = d.nx
  R : s.R.rows = d.nu ∧ s.R.cols = d.nu
  q : s.q.size = d.nx
  r : s.r.size = d.nu
  lb : s.lb.size = d.nb
  ub : s.ub.size = d.nb
  C : s.C.rows = d.ng ∧ s.C.cols = d.nx
  D : s.D.rows = d.ng ∧ s.D.cols = d.nu
  lg : s.lg.size = d.ng
  ug : s.ug.size = d.ng
  /-- There are `nb` box rows. -/
  length : s.idxb.length = d.nb
  /-- No two of them bound the same entry. -/
  distinct : s.idxb.Nodup
  /-- They bound entries of the stage vector. -/
  inside : ∀ i ∈ s.idxb, i < d.nu + d.nx

/-- The stage is laid out for these sizes, and the bounds of all its rows are finite and in order.
-/
structure WellFormedFor [Scalar α] (s : Stage α) (d : StageSizes) (n : Nat) : Prop
    extends s.LaidOut d n where
  /-- The bounds of the box rows. -/
  box : ∀ i < d.nb, InOrder (s.lb.get i, s.ub.get i)
  /-- The bounds of the general rows. -/
  general : ∀ i < d.ng, InOrder (s.lg.get i, s.ug.get i)

/-- The stage is well formed on its own: there are sizes for it. -/
def WellFormed [Scalar α] (s : Stage α) : Prop := ∃ d n, s.WellFormedFor d n

/-- The bounds of an inequality row, box rows before general rows. -/
def boundsAt [Zero α] (s : Stage α) (row : Nat) : α × α :=
  if row < s.sizes.nb then (s.lb.get row, s.ub.get row)
  else (s.lg.get (row - s.sizes.nb), s.ug.get (row - s.sizes.nb))

/-- The bounds of all rows are finite and in order. -/
def RowsInOrder [Scalar α] (s : Stage α) : Prop := ∀ row < s.sizes.nc, InOrder (s.boundsAt row)

/-- The first row whose bounds are not finite and in order. -/
structure FirstOffending [Scalar α] (s : Stage α) (row : Nat) : Prop where
  row_lt : row < s.sizes.nc
  offends : ¬ InOrder (s.boundsAt row)
  before : ∀ i < row, InOrder (s.boundsAt i)

/-- The sizes are those that the stage declares. -/
theorem LaidOut.sizes_eq {s : Stage α} {d : StageSizes} {n : Nat} (h : s.LaidOut d n) :
    s.sizes = d ∧ s.nxNext = n := by
  refine ⟨?_, h.A.1⟩
  unfold sizes
  rw [h.Q.1, h.R.1, h.length, h.C.1]

/-- A stage is laid out for the sizes that it declares, or for none. -/
theorem laidOut_iff {s : Stage α} : s.LaidOut s.sizes s.nxNext ↔
    s.WellShaped ∧ s.idxb.Nodup ∧ ∀ i ∈ s.idxb, i < s.sizes.nv := by
  constructor
  · intro h
    exact ⟨⟨h.Q.2, h.R.2, h.S.1, h.S.2, h.q, h.r, h.A.2, h.B.1, h.B.2, h.b, h.lb, h.ub, h.C.2,
      h.D.1, h.D.2, h.lg, h.ug⟩, h.distinct, h.inside⟩
  · rintro ⟨h, hdistinct, hinside⟩
    exact
      { A := ⟨rfl, h.A_cols⟩, B := ⟨h.B_rows, h.B_cols⟩, b := h.b
        Q := ⟨rfl, h.Q_cols⟩, S := ⟨h.S_rows, h.S_cols⟩, R := ⟨rfl, h.R_cols⟩
        q := h.q, r := h.r, lb := h.lb, ub := h.ub
        C := ⟨rfl, h.C_cols⟩, D := ⟨h.D_rows, h.D_cols⟩, lg := h.lg, ug := h.ug
        length := rfl, distinct := hdistinct, inside := hinside }

theorem LaidOut.declared {s : Stage α} {d : StageSizes} {n : Nat} (h : s.LaidOut d n) :
    s.LaidOut s.sizes s.nxNext := by
  obtain ⟨rfl, rfl⟩ := h.sizes_eq
  exact h

/-! ### Shapes and positions -/

theorem checkShapes_eq_ok_iff {k : Nat} {s : Stage α} :
    s.checkShapes k = .ok () ↔ s.WellShaped := by
  refine ⟨wellShaped_of_checkShapes, fun h => ?_⟩
  simp only [checkShapes, seq_eq_ok, Mat.checkShape_eq_ok, Vec.checkLength_eq_ok]
  exact ⟨⟨rfl, h.Q_cols⟩, ⟨rfl, h.R_cols⟩, ⟨h.S_rows, h.S_cols⟩, h.q, h.r, ⟨rfl, h.A_cols⟩,
    ⟨h.B_rows, h.B_cols⟩, h.b, h.lb, h.ub, ⟨rfl, h.C_cols⟩, ⟨h.D_rows, h.D_cols⟩, h.lg, h.ug⟩

theorem onlyMismatch_checkShapes (k : Nat) (s : Stage α) : OnlyMismatch k (s.checkShapes k) := by
  have hmat := @Mat.onlyMismatch_checkShape α k
  have hvec := @Vec.onlyMismatch_checkLength α k
  unfold checkShapes
  exact .seq (hmat _ _ _ _) <| .seq (hmat _ _ _ _) <| .seq (hmat _ _ _ _) <|
    .seq (hvec _ _ _) <| .seq (hvec _ _ _) <| .seq (hmat _ _ _ _) <| .seq (hmat _ _ _ _) <|
    .seq (hvec _ _ _) <| .seq (hvec _ _ _) <| .seq (hvec _ _ _) <| .seq (hmat _ _ _ _) <|
    .seq (hmat _ _ _ _) <| .seq (hvec _ _ _) (hvec _ _ _)

/-- Positions pass when they are inside, distinct, and none has been seen before. -/
theorem checkPositions_eq_ok_iff {k nv : Nat} (l : List Nat) : ∀ {row : Nat} {seen : List Nat},
    (checkPositions k nv row seen l : Except (SetupError α) Unit) = .ok () ↔
      (∀ i ∈ l, i < nv) ∧ l.Nodup ∧ ∀ i ∈ l, i ∉ seen := by
  induction l with
  | nil => simp [checkPositions]
  | cons p rest ih =>
      intro row seen
      unfold checkPositions
      split
      · simp only [List.forall_mem_cons, reduceCtorEq, false_iff]
        omega
      · split
        · simp_all
        · rw [ih, List.forall_mem_cons, List.forall_mem_cons, List.nodup_cons]
          simp only [List.mem_cons, not_or]
          constructor
          · rintro ⟨hin, hnodup, hnew⟩
            exact ⟨⟨by omega, hin⟩, ⟨fun hp => (hnew p hp).1 rfl, hnodup⟩, ‹_›,
              fun i hi => (hnew i hi).2⟩
          · rintro ⟨⟨_, hin⟩, ⟨hp, hnodup⟩, _, hnew⟩
            exact ⟨hin, hnodup, fun i hi => ⟨fun heq => hp (heq ▸ hi), hnew i hi⟩⟩

theorem onlyMismatch_checkPositions (k nv : Nat) (l : List Nat) : ∀ (row : Nat) (seen : List Nat),
    OnlyMismatch k (checkPositions k nv row seen l : Except (SetupError α) Unit) := by
  induction l with
  | nil =>
      intro row seen e he
      cases he
  | cons p rest ih =>
      intro row seen e he
      unfold checkPositions at he
      split at he
      · exact ⟨_, (Except.error.inj he).symm⟩
      · split at he
        · exact ⟨_, (Except.error.inj he).symm⟩
        · exact ih _ _ e he

/-- The checks of shapes and positions pass exactly for a stage that is laid out. -/
theorem layout_eq_ok_iff {k : Nat} {s : Stage α} :
    s.checkShapes k = .ok () ∧ (checkPositions k s.sizes.nv 0 [] s.idxb :
      Except (SetupError α) Unit) = .ok () ↔ s.LaidOut s.sizes s.nxNext := by
  rw [laidOut_iff, checkShapes_eq_ok_iff, checkPositions_eq_ok_iff]
  simp only [List.not_mem_nil, not_false_eq_true, implies_true, and_true]
  exact and_congr_right fun _ => and_comm

/-! ### Bounds -/

section Bounds

variable [Scalar α]

theorem checkBounds_eq_ok_iff {k : Nat} (l : List (α × α)) : ∀ {row : Nat},
    checkBounds k row l = .ok () ↔ ∀ p ∈ l, boundsInOrder p.1 p.2 = true := by
  induction l with
  | nil => simp [checkBounds]
  | cons p rest ih =>
      intro row
      unfold checkBounds
      split
      · rw [ih, List.forall_mem_cons]
        exact (and_iff_right ‹_›).symm
      · rw [List.forall_mem_cons]
        exact ⟨fun h => (nomatch h), fun h => absurd h.1 ‹_›⟩

/-- The row reported is the first whose bounds are not in order. -/
theorem of_checkBounds_eq_error {k : Nat} {e : SetupError α} (l : List (α × α)) : ∀ {row : Nat},
    checkBounds k row l = .error e → ∃ i p, l[i]? = some p ∧ e = .bounds k (row + i) p.1 p.2 ∧
      boundsInOrder p.1 p.2 ≠ true ∧
      ∀ j < i, ∀ p', l[j]? = some p' → boundsInOrder p'.1 p'.2 = true := by
  induction l with
  | nil =>
      intro row h
      cases h
  | cons p rest ih =>
      intro row h
      unfold checkBounds at h
      split at h
      · obtain ⟨i, p', hp', he, hoffends, hbefore⟩ := ih h
        refine ⟨i + 1, p', hp', ?_, hoffends, fun j hj q hq => ?_⟩
        · rw [he, Nat.add_assoc, Nat.add_comm 1]
        · cases j with
          | zero =>
              obtain rfl := Option.some.inj hq
              assumption
          | succ j => exact hbefore j (by omega) q hq
      · exact ⟨0, p, rfl, (Except.error.inj h).symm, ‹_›, fun j hj => absurd hj (Nat.not_lt_zero j)⟩

theorem getElem?_zip_toList {v w : Vec α} (hw : w.size = v.size) {i : Nat} (hi : i < v.size) :
    (v.toList.zip w.toList)[i]? = some (v.get i, w.get i) := by
  have hv : i < v.entries.size := hi
  have hw' : i < w.entries.size := hi.trans_eq hw.symm
  rw [List.getElem?_zip_eq_some]
  simp [Vec.toList, Vec.get, Array.getD, hv, hw']

variable {s : Stage α} (hs : s.WellShaped)

include hs

omit [Scalar α] in
theorem length_rows : (s.lower.zip s.upper).length = s.sizes.nc := by
  have hlo : s.lower.length = s.sizes.nc :=
    List.length_append.trans (congrArg₂ (· + ·) hs.lb hs.lg)
  have hup : s.upper.length = s.sizes.nc :=
    List.length_append.trans (congrArg₂ (· + ·) hs.ub hs.ug)
  rw [List.length_zip, hlo, hup, Nat.min_self]

/-- The rows in the order in which their bounds are checked. -/
theorem getElem?_rows {row : Nat} (hrow : row < s.sizes.nc) :
    (s.lower.zip s.upper)[row]? = some (s.boundsAt row) := by
  have hbox : s.lb.toList.length = s.sizes.nb := hs.lb
  have hbox' : s.lb.toList.length = s.ub.toList.length := hs.lb.trans hs.ub.symm
  have hzip : (s.lb.toList.zip s.ub.toList).length = s.sizes.nb := by
    rw [List.length_zip, ← hbox', hbox, Nat.min_self]
  rw [lower, upper, List.zip_append hbox', boundsAt]
  unfold StageSizes.nc at hrow
  split
  · rw [List.getElem?_append_left (by omega),
      getElem?_zip_toList (hs.ub.trans hs.lb.symm) (hs.lb.symm ▸ ‹_›)]
  · have hgeneral : row - s.sizes.nb < s.lg.size := by
      rw [hs.lg]
      omega
    rw [List.getElem?_append_right (by omega), hzip,
      getElem?_zip_toList (hs.ug.trans hs.lg.symm) hgeneral]

omit hs in
/-- Box rows and general rows are all the rows there are. -/
theorem rowsInOrder_iff : s.RowsInOrder ↔
    (∀ i < s.sizes.nb, InOrder (s.lb.get i, s.ub.get i)) ∧
      ∀ i < s.sizes.ng, InOrder (s.lg.get i, s.ug.get i) := by
  unfold RowsInOrder StageSizes.nc boundsAt
  constructor
  · intro h
    refine ⟨fun i hi => ?_, fun i hi => ?_⟩
    · have := h i (by omega)
      rwa [if_pos hi] at this
    · have := h (s.sizes.nb + i) (by omega)
      rwa [if_neg (by omega), Nat.add_sub_cancel_left] at this
  · rintro ⟨hbox, hgeneral⟩ row hrow
    split
    · exact hbox row ‹_›
    · exact hgeneral _ (by omega)

variable [FiniteOrder α]

theorem checkRows_eq_ok_iff {k : Nat} :
    checkBounds k 0 (s.lower.zip s.upper) = .ok () ↔ s.RowsInOrder := by
  rw [checkBounds_eq_ok_iff]
  constructor
  · intro h row hrow
    rw [← boundsInOrder_iff]
    exact h _ (List.mem_of_getElem? (getElem?_rows hs hrow))
  · intro h p hp
    obtain ⟨row, hrow⟩ := List.getElem?_of_mem hp
    have hlt : row < s.sizes.nc := length_rows hs ▸ (List.getElem?_eq_some_iff.1 hrow).1
    rw [boundsInOrder_iff, ← Option.some.inj ((getElem?_rows hs hlt).symm.trans hrow)]
    exact h row hlt

theorem firstOffending_of_checkRows {k : Nat} {e : SetupError α}
    (h : checkBounds k 0 (s.lower.zip s.upper) = .error e) :
    ∃ row, s.FirstOffending row ∧ e = .bounds k row (s.boundsAt row).1 (s.boundsAt row).2 := by
  obtain ⟨row, p, hp, he, hoffends, hbefore⟩ := of_checkBounds_eq_error _ h
  have hlt : row < s.sizes.nc := length_rows hs ▸ (List.getElem?_eq_some_iff.1 hp).1
  obtain rfl := Option.some.inj ((getElem?_rows hs hlt).symm.trans hp)
  rw [Nat.zero_add] at he
  rw [Ne, boundsInOrder_iff] at hoffends
  exact ⟨row, ⟨hlt, hoffends, fun i hi => (boundsInOrder_iff _).1
    (hbefore i hi _ (getElem?_rows hs (hi.trans hlt)))⟩, he⟩

end Bounds

/-! ### The whole check -/

section Check

variable [Scalar α] [FiniteOrder α] {s : Stage α} {k : Nat} {d : StageSizes} {n : Nat}

omit [FiniteOrder α] in
/-- Well formed for some sizes means well formed for those declared. -/
theorem wellFormed_iff : s.WellFormed ↔ s.LaidOut s.sizes s.nxNext ∧ s.RowsInOrder := by
  constructor
  · rintro ⟨d, n, h⟩
    obtain ⟨rfl, rfl⟩ := h.toLaidOut.sizes_eq
    exact ⟨h.toLaidOut, rowsInOrder_iff.2 ⟨h.box, h.general⟩⟩
  · rintro ⟨hlaid, hrows⟩
    obtain ⟨hbox, hgeneral⟩ := rowsInOrder_iff.1 hrows
    exact ⟨_, _, hlaid, hbox, hgeneral⟩

omit [FiniteOrder α] in
/-- A stage that is laid out is checked for its bounds only. -/
theorem LaidOut.check_eq (h : s.LaidOut d n) :
    s.check k = checkBounds k 0 (s.lower.zip s.upper) := by
  obtain ⟨hshapes, hpositions⟩ := (layout_eq_ok_iff (k := k)).2 h.declared
  unfold check
  rw [hshapes, hpositions]
  rfl

/-- A stage passes exactly when it is well formed. -/
theorem check_eq_ok_iff : s.check k = .ok () ↔ s.WellFormed := by
  rw [wellFormed_iff, check, seq_eq_ok, seq_eq_ok, ← and_assoc, layout_eq_ok_iff]
  exact and_congr_right fun h => checkRows_eq_ok_iff (laidOut_iff.1 h).1

/-- A stage is refused for a wrong size, or else for the first row whose bounds are not in order. -/
theorem cases_of_check_eq_error {e : SetupError α} (h : s.check k = .error e) :
    ((∃ cause, e = .mismatch k cause) ∧ ¬ ∃ d n, s.LaidOut d n) ∨
      ∃ row, s.FirstOffending row ∧ e = .bounds k row (s.boundsAt row).1 (s.boundsAt row).2 := by
  by_cases hlaid : s.LaidOut s.sizes s.nxNext
  · rw [hlaid.check_eq] at h
    exact .inr (firstOffending_of_checkRows (laidOut_iff.1 hlaid).1 h)
  · refine .inl ⟨?_, fun ⟨_, _, hother⟩ => hlaid hother.declared⟩
    rw [check, seq_eq_error, seq_eq_error] at h
    rcases h with hshapes | ⟨_, hpositions | ⟨_, _⟩⟩
    · exact onlyMismatch_checkShapes k s e hshapes
    · exact onlyMismatch_checkPositions _ _ _ _ _ e hpositions
    · exact absurd (layout_eq_ok_iff.1 ⟨‹_›, ‹_›⟩) hlaid

/-- Either way the error names the stage. -/
theorem stage?_of_check_eq_error {e : SetupError α} (h : s.check k = .error e) :
    e.stage? = some k := by
  rcases cases_of_check_eq_error h with ⟨⟨_, rfl⟩, _⟩ | ⟨_, _, rfl⟩
  · rfl
  · rfl

end Check

end Stage

end StagedQP
