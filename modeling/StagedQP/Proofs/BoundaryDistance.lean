import Mathlib.Algebra.Order.Monoid.Unbundled.WithTop
import StagedQP.Proofs.StepLength

/-!
# The distance to the boundary

The limit that the ratio tests find is not just safe. A step of the length found, or a shorter one,
keeps every slack and every multiplier nonnegative, and any longer step that the cap still admits
makes one of them negative, so no step is shortened needlessly. A limit may be absent, and then it
reads as infinity:

```text
extent none = ⊤        extent (some b) = b
```

There are four families of entries at a stage, and what a step does to an entry is the same in all
four. Statements name the family and speak of the entry before and after the move.

## Main results

* `StageState.passes_iff_move` — the ratio tests of a stage decide where a move leads.
* `Workspace.maxStep_reaches_boundary` — the limit of a workspace is the distance to the boundary.
-/

namespace StagedQP

/-! ## Families of entries -/

/-- The four families of entries that have to stay nonnegative. -/
inductive Family where
  /-- Slacks of the lower sides. -/
  | slackLo
  /-- Slacks of the upper sides. -/
  | slackUp
  /-- Multipliers of the lower sides. -/
  | multiplierLo
  /-- Multipliers of the upper sides. -/
  | multiplierUp

namespace StageState

variable {α : Type}

/-- The entries of a family at the current point. -/
def guarded (s : StageState α) : Family → Vec α
  | .slackLo => s.point.t.lo
  | .slackUp => s.point.t.up
  | .multiplierLo => s.point.lam.lo
  | .multiplierUp => s.point.lam.up

/-- The direction of a family. -/
def drift (s : StageState α) : Family → Vec α
  | .slackLo => s.direction.dt.lo
  | .slackUp => s.direction.dt.up
  | .multiplierLo => s.direction.dlam.lo
  | .multiplierUp => s.direction.dlam.up

variable [Scalar α]

theorem guarded_move (s : StageState α) (a : α) (f : Family) :
    (s.move a).guarded f = (s.guarded f).advance a (s.drift f) := by
  cases f with
  | slackLo => rfl
  | slackUp => rfl
  | multiplierLo => rfl
  | multiplierUp => rfl

@[simp] theorem size_guarded_move (s : StageState α) (a : α) (f : Family) :
    ((s.move a).guarded f).size = (s.guarded f).size := by
  rw [guarded_move, Vec.size_advance]

end StageState

variable {K : Type} [Field K] [LinearOrder K] [SquareRoot K]

namespace StageState

omit [SquareRoot K]

/-- No slack or multiplier is negative. -/
def Nonnegative (s : StageState K) : Prop :=
  ∀ f, ∀ i < (s.guarded f).size, 0 ≤ (s.guarded f).get i

/-- Some slack or multiplier is negative. -/
def Crossed (s : StageState K) : Prop :=
  ∃ f, ∃ i < (s.guarded f).size, (s.guarded f).get i < 0

/-- No slack or multiplier has a negative direction. -/
def Unblocked (s : StageState K) : Prop :=
  ∀ f, ∀ i < (s.guarded f).size, 0 ≤ (s.drift f).get i

theorem crossed_iff (s : StageState K) : s.Crossed ↔ ¬ s.Nonnegative := by
  unfold Crossed Nonnegative
  push Not
  rfl

theorem Interior.pos {s : StageState K} (hs : s.Interior) (f : Family) :
    (s.guarded f).Positive := by
  cases f with
  | slackLo => exact hs.t_lo
  | slackUp => exact hs.t_up
  | multiplierLo => exact hs.lam_lo
  | multiplierUp => exact hs.lam_up

/-- The ratio tests of a stage, family by family. -/
theorem passes_iff (s : StageState K) (a : K) : s.Passes a ↔
    ∀ f, ∀ i < (s.guarded f).size, (s.drift f).get i < 0 →
      a ≤ -(s.guarded f).get i / (s.drift f).get i := by
  constructor
  · intro h f
    cases f with
    | slackLo => exact h.t_lo
    | slackUp => exact h.t_up
    | multiplierLo => exact h.lam_lo
    | multiplierUp => exact h.lam_up
  · intro h
    exact ⟨h .slackLo, h .slackUp, h .multiplierLo, h .multiplierUp⟩

end StageState

section Ratio

variable [IsStrictOrderedRing K]

omit [SquareRoot K] in
/-- The ratio test of an entry decides on which side of zero the entry ends. -/
theorem le_ratio_iff {z dz a : K} (hz : 0 < z) (ha : 0 ≤ a) :
    (dz < 0 → a ≤ -z / dz) ↔ 0 ≤ a * dz + z := by
  constructor
  · intro h
    have := nonneg_of_le_ratio hz ha h
    linarith
  · intro h hneg
    rw [le_div_iff_of_neg hneg]
    linarith

/-- For lengths that are not negative, the ratio tests of a stage allow exactly those that keep its
slacks and multipliers nonnegative. -/
theorem StageState.passes_iff_move {s : StageState K} (hs : s.Interior) {a : K} (ha : 0 ≤ a) :
    s.Passes a ↔ (s.move a).Nonnegative := by
  rw [passes_iff]
  refine forall_congr' fun f => ?_
  rw [size_guarded_move]
  refine forall₂_congr fun i hi => ?_
  rw [guarded_move, Vec.get_advance _ _ _ hi]
  exact le_ratio_iff (hs.pos f i hi) ha

omit [SquareRoot K] in
/-- Every length passes the ratio tests exactly when nothing has a negative direction: a ratio that
is there is exceeded by some length. -/
theorem StageState.unblocked_iff {s : StageState K} :
    s.Unblocked ↔ ∀ a : K, s.Passes a := by
  constructor
  · intro h a
    rw [passes_iff]
    intro f i hi hneg
    exact absurd hneg (not_lt.2 (h f i hi))
  · intro h f i hi
    by_contra hneg
    have hratio := (passes_iff s _).1 (h (-(s.guarded f).get i / (s.drift f).get i + 1)) f i hi
      (not_le.1 hneg)
    exact absurd hratio (not_le.2 (lt_add_one _))

end Ratio

/-! ## Limits as lengths -/

/-- A limit as a length, which is infinite when there is no limit. -/
def extent {α : Type} : Option α → WithTop α
  | none => ⊤
  | some b => (b : WithTop α)

omit [Field K] [SquareRoot K] in
/-- A limit allows the lengths up to its extent. -/
theorem allows_iff_le_extent (limit : Option K) (a : K) :
    Allows limit a ↔ (a : WithTop K) ≤ extent limit := by
  cases limit with
  | none => exact ⟨fun _ => le_top, fun _ _ h => nomatch h⟩
  | some b =>
      rw [extent, WithTop.coe_le_coe]
      exact ⟨fun h => h b rfl, fun h _ hb => Option.some.inj hb ▸ h⟩

omit [SquareRoot K] in
theorem positiveLimit_iff_extent (limit : Option K) :
    PositiveLimit limit ↔ 0 < extent limit := by
  cases limit with
  | none => exact ⟨fun _ => WithTop.coe_lt_top 0, fun _ _ h => nomatch h⟩
  | some b =>
      rw [extent, WithTop.coe_pos]
      exact ⟨fun h => h b rfl, fun h _ hb => Option.some.inj hb ▸ h⟩

section Extent

variable [IsStrictOrderedRing K]

omit [SquareRoot K] in
/-- Only the infinite limit allows every length. -/
theorem extent_eq_top_iff (limit : Option K) : extent limit = ⊤ ↔ ∀ a, Allows limit a := by
  cases limit with
  | none => exact ⟨fun _ _ _ h => (nomatch h), fun _ => rfl⟩
  | some b =>
      constructor
      · intro h
        exact absurd h WithTop.coe_ne_top
      · intro h
        exact absurd (h (b + 1) b rfl) (not_le.2 (lt_add_one b))

omit [SquareRoot K] in
/-- A limit that allows no more than another extends no further. -/
theorem extent_le_of_allows {limit limit' : Option K}
    (h : ∀ a, Allows limit a → Allows limit' a) : extent limit ≤ extent limit' := by
  cases limit with
  | none => exact ((extent_eq_top_iff limit').2 fun a => h a fun _ hb => nomatch hb).ge
  | some b =>
      have hself : Allows (some b) b := fun c hc => (Option.some.inj hc).le
      exact (allows_iff_le_extent limit' b).1 (h b hself)

end Extent

/-! ## The limit of a workspace -/

namespace Workspace

variable [IsStrictOrderedRing K]

/-- **The limit is the distance to the boundary.** From a point whose slacks and multipliers are all
positive, for any direction and any positive cap, finite or not: the limit is positive and within
the cap, every finite length up to it keeps all slacks and multipliers of all stages nonnegative,
every longer one within the cap makes one of them negative, and the limit is infinite exactly when
the cap is and nothing has a negative direction. -/
theorem maxStep_reaches_boundary {w : Workspace K} (hw : ∀ s ∈ w.stages, s.Interior)
    {cap : Option K} (hcap : 0 < extent cap) :
    0 < extent (w.maxStep cap) ∧ extent (w.maxStep cap) ≤ extent cap ∧
    (∀ a : K, 0 ≤ a → (a : WithTop K) ≤ extent (w.maxStep cap) →
      ∀ s ∈ w.stages, (s.move a).Nonnegative) ∧
    (∀ a : K, extent (w.maxStep cap) < a → (a : WithTop K) ≤ extent cap →
      ∃ s ∈ w.stages, (s.move a).Crossed) ∧
    (extent (w.maxStep cap) = ⊤ ↔ extent cap = ⊤ ∧ ∀ s ∈ w.stages, s.Unblocked) := by
  have hpos : 0 < extent (w.maxStep cap) :=
    (positiveLimit_iff_extent _).1 (positiveLimit_maxStep hw ((positiveLimit_iff_extent _).2 hcap))
  refine ⟨hpos, extent_le_of_allows fun a ha => ((allows_maxStep w cap a).1 ha).1, ?sound,
    ?maximal, ?infinite⟩
  case sound =>
    intro a ha hle s hs
    rw [← allows_iff_le_extent, allows_maxStep] at hle
    exact (StageState.passes_iff_move (hw s hs) ha).1 (hle.2 s hs)
  case maximal =>
    intro a hlt hle
    have ha : 0 ≤ a := WithTop.coe_nonneg.1 (hpos.trans hlt).le
    by_contra hnone
    refine absurd hlt (not_lt.2 ?_)
    rw [← allows_iff_le_extent, allows_maxStep]
    refine ⟨(allows_iff_le_extent _ _).2 hle, fun s hs => ?_⟩
    rw [StageState.passes_iff_move (hw s hs) ha]
    by_contra hcrossed
    exact hnone ⟨s, hs, (StageState.crossed_iff _).2 hcrossed⟩
  case infinite =>
    rw [extent_eq_top_iff, extent_eq_top_iff]
    constructor
    · intro h
      exact ⟨fun a => ((allows_maxStep w cap a).1 (h a)).1, fun s hs =>
        StageState.unblocked_iff.2 fun a => ((allows_maxStep w cap a).1 (h a)).2 s hs⟩
    · rintro ⟨hall, hfree⟩ a
      exact (allows_maxStep w cap a).2
        ⟨hall a, fun s hs => StageState.unblocked_iff.1 (hfree s hs) a⟩

/-- Two stages with one row each, at a point whose slacks and multipliers are all one. The second
slack of the first stage moves down twice as fast as the multiplier of the second; the rest stands
still or moves up. -/
def descending : Workspace ℚ where
  stages :=
    [{ StageState.zeros ⟨0, 1, 1, 0⟩ 1 with
        point := ⟨Vec.zeros 1, Vec.zeros 1, ⟨Vec.const 1 1, Vec.const 1 1⟩,
          ⟨Vec.const 1 1, Vec.const 1 1⟩⟩
        direction := ⟨Vec.const 1 3, Vec.zeros 1, ⟨Vec.const 1 3, Vec.const 1 (-4)⟩,
          ⟨Vec.zeros 1, Vec.const 1 1⟩⟩ },
      { StageState.zeros ⟨1, 0, 0, 1⟩ 0 with
        point := ⟨Vec.zeros 1, Vec.zeros 0, ⟨Vec.const 1 1, Vec.const 1 1⟩,
          ⟨Vec.const 1 1, Vec.const 1 1⟩⟩
        direction := ⟨Vec.zeros 1, Vec.zeros 0, ⟨Vec.const 1 1, Vec.zeros 1⟩,
          ⟨Vec.const 1 (-2), Vec.const 1 1⟩⟩ }]
  stats := []
  sizes := [⟨0, 1, 1, 0⟩, ⟨1, 0, 0, 1⟩]
  maxIter := 1

/-- For instance from there: a quarter of the direction leads to the boundary, and a little more
leads across it. -/
theorem maxStep_reaches_boundary_descending : (∀ s ∈ descending.stages, s.Interior) ∧
    0 < extent (none : Option ℚ) ∧ extent (descending.maxStep none) = ((1 / 4 : ℚ) : WithTop ℚ) ∧
    (∀ s ∈ descending.stages, (s.move (1 / 4)).Nonnegative) ∧
    ∃ s ∈ descending.stages, (s.move (3 / 10)).Crossed := by
  have hentries : ∀ s ∈ descending.stages,
      (∀ i < s.point.t.lo.size, 0 < s.point.t.lo.get i) ∧
      (∀ i < s.point.t.up.size, 0 < s.point.t.up.get i) ∧
      (∀ i < s.point.lam.lo.size, 0 < s.point.lam.lo.get i) ∧
      ∀ i < s.point.lam.up.size, 0 < s.point.lam.up.get i := by decide +kernel
  have hinterior : ∀ s ∈ descending.stages, s.Interior := fun s hs =>
    let ⟨htLo, htUp, hlamLo, hlamUp⟩ := hentries s hs
    ⟨htLo, htUp, hlamLo, hlamUp⟩
  have hcap : 0 < extent (none : Option ℚ) := WithTop.coe_lt_top 0
  have hlimit : descending.maxStep none = some (1 / 4) := by decide +kernel
  obtain ⟨_, _, hsound, hmaximal, _⟩ := maxStep_reaches_boundary hinterior hcap
  rw [hlimit] at hsound hmaximal
  refine ⟨hinterior, hcap, congrArg extent hlimit, hsound _ (by norm_num) le_rfl,
    hmaximal _ ?_ le_top⟩
  rw [extent, WithTop.coe_lt_coe]
  norm_num

end Workspace

end StagedQP
