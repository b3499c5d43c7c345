import StagedQP.Proofs.ExactArithmetic
import StagedQP.Proofs.StepPhases

/-!
# Step lengths

A step length is found by a ratio test over the four families of slacks and multipliers of every
stage. In exact arithmetic it allows exactly the lengths that every single ratio allows, in whatever
order they are looked at, and such a length keeps every entry nonnegative. Since a step takes at
most a fixed fraction of the limit, it keeps every entry at no less than a fixed share of what it
was, whatever the direction.

## Main results

* `Workspace.allows_maxStep` — the lengths that the limit allows.
* `Workspace.admits_of_maxStep` — a length that the limit allows keeps every entry nonnegative.
* `Workspace.stepLength_pos`, `Workspace.stepLength_le_one` — the range of a step length.
* `Workspace.retains_of_stepLength` — a step leaves at least 1/200 of every entry.
-/

namespace StagedQP

variable {K : Type} [Field K] [LinearOrder K] [SquareRoot K]

/-! ## Limits -/

/-- The limit allows a step of length `a`. -/
def Allows (limit : Option K) (a : K) : Prop := ∀ b, limit = some b → a ≤ b

/-- The limit is positive, if there is one. -/
def PositiveLimit (limit : Option K) : Prop := ∀ b, limit = some b → 0 < b

/-- All entries are positive. -/
def Vec.Positive (v : Vec K) : Prop := ∀ i < v.size, 0 < v.get i

theorem allows_shorten (limit : Option K) (a x : K) :
    Allows (shorten limit a) x ↔ Allows limit x ∧ x ≤ a := by
  cases limit with
  | none =>
      have hle : Scalar.le a a = true := (Scalar.le_iff a a).2 le_rfl
      rw [shorten, if_pos hle]
      constructor
      · intro h
        exact ⟨fun b hb => (nomatch hb), h a rfl⟩
      · rintro ⟨_, h⟩ b hb
        obtain rfl := Option.some.inj hb
        exact h
  | some c =>
      rw [shorten, Scalar.min_exact]
      constructor
      · intro h
        have hmin := le_min_iff.1 (h _ rfl)
        refine ⟨fun b hb => ?_, hmin.2⟩
        obtain rfl := Option.some.inj hb
        exact hmin.1
      · rintro ⟨h, ha⟩ b hb
        obtain rfl := Option.some.inj hb
        exact le_min (h c rfl) ha

/-- The ratio test over the first `n` entries allows the lengths that every ratio allows. -/
theorem allows_ratioLimit (limit : Option K) (z dz : Vec K) (a : K) (n : Nat) :
    Allows (ratioLimit limit z dz n) a ↔
      Allows limit a ∧ ∀ i < n, dz.get i < 0 → a ≤ -z.get i / dz.get i := by
  induction n with
  | zero => simp [ratioLimit]
  | succ n ih =>
      have hlast : Allows (ratioLimit limit z dz (n + 1)) a ↔
          Allows (ratioLimit limit z dz n) a ∧ (dz.get n < 0 → a ≤ -z.get n / dz.get n) := by
        rw [ratioLimit]
        by_cases hneg : dz.get n < 0
        · rw [if_pos ((Scalar.lt_iff _ _).2 hneg), allows_shorten]
          exact and_congr_right fun _ => ⟨fun h _ => h, fun h => h hneg⟩
        · rw [if_neg (by rw [Scalar.lt_iff]; exact hneg)]
          exact (and_iff_left fun h => absurd h hneg).symm
      rw [hlast, ih, and_assoc]
      refine and_congr_right fun _ => ⟨fun ⟨hbefore, hn⟩ i hi => ?_, fun h => ⟨?_, ?_⟩⟩
      · rcases Nat.lt_succ_iff_lt_or_eq.1 hi with hlt | rfl
        · exact hbefore i hlt
        · exact hn
      · exact fun i hi => h i (Nat.lt_succ_of_lt hi)
      · exact h n n.lt_succ_self

omit [SquareRoot K] in
/-- Limits that allow the same lengths are equal. -/
theorem eq_of_allows_iff [IsStrictOrderedRing K] {limit limit' : Option K}
    (h : ∀ a, Allows limit a ↔ Allows limit' a) : limit = limit' := by
  have hnone : ∀ b : K, ¬ ∀ a, Allows (none : Option K) a ↔ Allows (some b) a := by
    intro b hb
    have hle := (hb (b + 1)).1 (fun _ h => nomatch h) b rfl
    exact absurd hle (not_le.2 (lt_add_one b))
  cases limit with
  | none =>
      cases limit' with
      | none => rfl
      | some b => exact absurd h (hnone b)
  | some b =>
      cases limit' with
      | none => exact absurd (fun a => (h a).symm) (hnone b)
      | some c =>
          have hb : Allows (some b) b := fun x hx => (Option.some.inj hx).le
          have hc : Allows (some c) c := fun x hx => (Option.some.inj hx).le
          exact congrArg some (le_antisymm ((h b).1 hb c rfl) ((h c).2 hc b rfl))

theorem PositiveLimit.shorten {limit : Option K} {a : K} (h : PositiveLimit limit) (ha : 0 < a) :
    PositiveLimit (shorten limit a) := by
  intro b hb
  cases limit with
  | none =>
      rw [StagedQP.shorten, if_pos ((Scalar.le_iff a a).2 le_rfl)] at hb
      obtain rfl := Option.some.inj hb
      exact ha
  | some c =>
      obtain rfl := Option.some.inj hb
      exact lt_min (h c rfl) ha

section Ratio

variable [IsStrictOrderedRing K]

omit [SquareRoot K] in
/-- A length up to the ratio keeps a positive entry nonnegative, whichever way it moves. -/
theorem nonneg_of_le_ratio {z dz a : K} (hz : 0 < z) (ha : 0 ≤ a)
    (h : dz < 0 → a ≤ -z / dz) : 0 ≤ z + a * dz := by
  rcases lt_or_ge dz 0 with hneg | hpos
  · have hratio : -z / dz = z / -dz := by rw [neg_div, div_neg]
    have hle := h hneg
    rw [hratio, le_div_iff₀ (neg_pos.2 hneg)] at hle
    linarith
  · have := mul_nonneg ha hpos
    linarith

omit [SquareRoot K] in
theorem ratio_pos {z dz : K} (hz : 0 < z) (hneg : dz < 0) : 0 < -z / dz :=
  div_pos_of_neg_of_neg (neg_lt_zero.2 hz) hneg

theorem PositiveLimit.ratioLimit {z dz : Vec K} {limit : Option K} (h : PositiveLimit limit) :
    ∀ n, (∀ i < n, 0 < z.get i) → PositiveLimit (ratioLimit limit z dz n) := by
  intro n
  induction n with
  | zero => intro _; exact h
  | succ n ih =>
      intro hz
      have hbefore := ih fun i hi => hz i (by omega)
      rw [StagedQP.ratioLimit]
      split
      · exact hbefore.shorten (ratio_pos (hz n (by omega)) ((Scalar.lt_iff _ _).1 ‹_›))
      · exact hbefore

end Ratio

/-! ## One stage -/

namespace StageState

/-- All slacks and multipliers of the inequality rows are positive. -/
structure Interior (s : StageState K) : Prop where
  t_lo : s.point.t.lo.Positive
  t_up : s.point.t.up.Positive
  lam_lo : s.point.lam.lo.Positive
  lam_up : s.point.lam.up.Positive

/-- A step of length `a` keeps all slacks and multipliers of the inequality rows nonnegative. -/
structure Admits (a : K) (s : StageState K) : Prop where
  t_lo : ∀ i < s.point.t.lo.size, 0 ≤ s.point.t.lo.get i + a * s.direction.dt.lo.get i
  t_up : ∀ i < s.point.t.up.size, 0 ≤ s.point.t.up.get i + a * s.direction.dt.up.get i
  lam_lo : ∀ i < s.point.lam.lo.size, 0 ≤ s.point.lam.lo.get i + a * s.direction.dlam.lo.get i
  lam_up : ∀ i < s.point.lam.up.size, 0 ≤ s.point.lam.up.get i + a * s.direction.dlam.up.get i

/-- The ratio tests of a stage allow a step of length `a`. -/
structure Passes (a : K) (s : StageState K) : Prop where
  t_lo : ∀ i < s.point.t.lo.size, s.direction.dt.lo.get i < 0 →
    a ≤ -s.point.t.lo.get i / s.direction.dt.lo.get i
  t_up : ∀ i < s.point.t.up.size, s.direction.dt.up.get i < 0 →
    a ≤ -s.point.t.up.get i / s.direction.dt.up.get i
  lam_lo : ∀ i < s.point.lam.lo.size, s.direction.dlam.lo.get i < 0 →
    a ≤ -s.point.lam.lo.get i / s.direction.dlam.lo.get i
  lam_up : ∀ i < s.point.lam.up.size, s.direction.dlam.up.get i < 0 →
    a ≤ -s.point.lam.up.get i / s.direction.dlam.up.get i

/-- Every slack and multiplier of `s'` is at least 1/200 of that of `s`. -/
structure Retains (s s' : StageState K) : Prop where
  t_lo : ∀ i < s.point.t.lo.size, s.point.t.lo.get i / 200 ≤ s'.point.t.lo.get i
  t_up : ∀ i < s.point.t.up.size, s.point.t.up.get i / 200 ≤ s'.point.t.up.get i
  lam_lo : ∀ i < s.point.lam.lo.size, s.point.lam.lo.get i / 200 ≤ s'.point.lam.lo.get i
  lam_up : ∀ i < s.point.lam.up.size, s.point.lam.up.get i / 200 ≤ s'.point.lam.up.get i

/-- The limit of a stage allows what the limit before and the ratio tests allow. -/
theorem allows_stepLimit (s : StageState K) (limit : Option K) (a : K) :
    Allows (s.stepLimit limit) a ↔ Allows limit a ∧ s.Passes a := by
  rw [stepLimit, allows_ratioLimit, allows_ratioLimit, allows_ratioLimit, allows_ratioLimit]
  constructor
  · rintro ⟨⟨⟨⟨h, htLo⟩, htUp⟩, hlamLo⟩, hlamUp⟩
    exact ⟨h, htLo, htUp, hlamLo, hlamUp⟩
  · rintro ⟨h, htLo, htUp, hlamLo, hlamUp⟩
    exact ⟨⟨⟨⟨h, htLo⟩, htUp⟩, hlamLo⟩, hlamUp⟩

variable [IsStrictOrderedRing K]

omit [SquareRoot K] in
/-- A length that passes the ratio tests keeps positive entries nonnegative. -/
theorem Passes.admits {s : StageState K} (hs : s.Interior) {a : K} (ha : 0 ≤ a)
    (h : s.Passes a) : s.Admits a :=
  ⟨fun i hi => nonneg_of_le_ratio (hs.t_lo i hi) ha (h.t_lo i hi),
    fun i hi => nonneg_of_le_ratio (hs.t_up i hi) ha (h.t_up i hi),
    fun i hi => nonneg_of_le_ratio (hs.lam_lo i hi) ha (h.lam_lo i hi),
    fun i hi => nonneg_of_le_ratio (hs.lam_up i hi) ha (h.lam_up i hi)⟩

theorem positiveLimit_stepLimit {s : StageState K} (hs : s.Interior) {limit : Option K}
    (h : PositiveLimit limit) : PositiveLimit (s.stepLimit limit) :=
  (((h.ratioLimit _ hs.t_lo).ratioLimit _ hs.t_up).ratioLimit _ hs.lam_lo).ratioLimit _ hs.lam_up

/-- An entry that a length a little longer would keep nonnegative keeps 1/200 of itself. -/
theorem share_le_advance {z dz : Vec K} {a : K} {i : Nat} (hi : i < z.size)
    (h : 0 ≤ z.get i + 200 / 199 * a * dz.get i) : z.get i / 200 ≤ (z.advance a dz).get i := by
  rw [Vec.get_advance _ _ _ hi]
  linarith

theorem retains_move {s : StageState K} {a : K} (h : s.Admits (200 / 199 * a)) :
    s.Retains (s.move a) :=
  ⟨fun i hi => share_le_advance hi (h.t_lo i hi), fun i hi => share_le_advance hi (h.t_up i hi),
    fun i hi => share_le_advance hi (h.lam_lo i hi),
    fun i hi => share_le_advance hi (h.lam_up i hi)⟩

theorem Interior.move {s : StageState K} {a : K} (hs : s.Interior) (h : s.Retains (s.move a)) :
    (s.move a).Interior := by
  have hshare : ∀ {v v' : Vec K}, v.Positive → v'.size = v.size →
      (∀ i < v.size, v.get i / 200 ≤ v'.get i) → v'.Positive := by
    intro v v' hv hsize hle i hi
    rw [hsize] at hi
    have hpos := hv i hi
    have := hle i hi
    linarith
  exact ⟨hshare hs.t_lo (Vec.size_advance ..) h.t_lo, hshare hs.t_up (Vec.size_advance ..) h.t_up,
    hshare hs.lam_lo (Vec.size_advance ..) h.lam_lo,
    hshare hs.lam_up (Vec.size_advance ..) h.lam_up⟩

end StageState

/-! ## All stages -/

/-- The limit of a workspace allows what the cap and the ratio tests of all stages allow. -/
theorem Workspace.allows_maxStep (w : Workspace K) (cap : Option K) (a : K) :
    Allows (w.maxStep cap) a ↔ Allows cap a ∧ ∀ s ∈ w.stages, s.Passes a := by
  rw [maxStep]
  induction w.stages generalizing cap with
  | nil => simp
  | cons s rest ih =>
      rw [List.foldl_cons, ih, StageState.allows_stepLimit, List.forall_mem_cons, and_assoc]

section Chain

variable [IsStrictOrderedRing K]

theorem positiveLimit_foldl (l : List (StageState K)) : ∀ limit, (∀ s ∈ l, s.Interior) →
    PositiveLimit limit → PositiveLimit (l.foldl StageState.stepLimit limit) := by
  induction l with
  | nil => intro limit _ h; exact h
  | cons s₀ rest ih =>
      intro limit hint h
      exact ih _ (fun s hs => hint s (List.mem_cons_of_mem _ hs))
        (StageState.positiveLimit_stepLimit (hint s₀ (List.mem_cons_self ..)) h)

namespace Workspace

variable {w : Workspace K} (hw : ∀ s ∈ w.stages, s.Interior)

include hw

/-- A length that the limit allows keeps every slack and multiplier nonnegative. -/
theorem admits_of_maxStep {a : K} (ha : 0 ≤ a) {cap : Option K} (h : Allows (w.maxStep cap) a) :
    Allows cap a ∧ ∀ s ∈ w.stages, s.Admits a := by
  obtain ⟨hcap, hpasses⟩ := (allows_maxStep w cap a).1 h
  exact ⟨hcap, fun s hs => (hpasses s hs).admits (hw s hs) ha⟩

theorem positiveLimit_maxStep {cap : Option K} (h : PositiveLimit cap) :
    PositiveLimit (w.maxStep cap) := positiveLimit_foldl w.stages cap hw h

omit [IsStrictOrderedRing K] hw in
theorem boundaryFraction_exact : (boundaryFraction : K) = (995 : ℕ) / 10 ^ 3 := rfl

theorem stepLength_pos : 0 < w.stepLength := by
  have hlimit : PositiveLimit (w.maxStep none) :=
    positiveLimit_maxStep hw fun b hb => (nomatch hb)
  rw [stepLength]
  split
  · exact one_pos
  · rename_i a ha
    have hpos := hlimit a ha
    rw [Scalar.min_exact, boundaryFraction_exact]
    refine lt_min ?_ one_pos
    push_cast
    linarith

omit [IsStrictOrderedRing K] hw in
theorem stepLength_le_one : w.stepLength ≤ 1 := by
  rw [stepLength]
  split
  · exact le_rfl
  · exact min_le_right _ _

/-- A step leaves at least 1/200 of every slack and multiplier. -/
theorem retains_of_stepLength : ∀ s ∈ w.stages, s.Retains (s.move w.stepLength) := by
  have hpos := stepLength_pos hw
  have hallows : Allows (w.maxStep none) (200 / 199 * w.stepLength) := by
    intro b hb
    have hle : w.stepLength ≤ (995 : ℕ) / 10 ^ 3 * b := by
      rw [stepLength, hb]
      exact min_le_left _ _
    push_cast at hle
    linarith
  intro s hs
  exact StageState.retains_move ((admits_of_maxStep hw (by linarith) hallows).2 s hs)

/-- The predictor is followed for a positive length, and not beyond the full step. -/
theorem predictor_length : 0 < (w.maxStep (some 1)).getD 1 ∧ (w.maxStep (some 1)).getD 1 ≤ 1 := by
  have hpositive : PositiveLimit (w.maxStep (some 1)) := by
    refine positiveLimit_maxStep hw fun b hb => ?_
    obtain rfl := Option.some.inj hb
    exact one_pos
  cases hlimit : w.maxStep (some 1) with
  | none => exact ⟨one_pos, le_rfl⟩
  | some b =>
      have hpos := hpositive b hlimit
      refine ⟨hpos, ?_⟩
      have hallows : Allows (w.maxStep (some 1)) b := by
        intro c hc
        rw [hlimit] at hc
        exact (Option.some.inj hc).le
      exact (admits_of_maxStep hw hpos.le hallows).1 1 rfl

end Workspace

end Chain

end StagedQP
