import StagedQP.Proofs.BuiltProblem
import StagedQP.Proofs.WellFormedChain

/-!
# Which control problems are built

A control problem is checked twice. `ControlProblem.check` compares its arrays with the sizes of the
plant, before any stage exists; `Horizon.of?` then checks the stages that were laid out. The second
check has no size left to object to: whatever passes the first is laid out as a chain of stages
whose arrays, positions and sizes all fit,

```text
stage           states  controls  box rows   general rows
0               0       nu        nbu        ng
1, …, N - 1     nx      nu        nbu + nbx  ng
N               nx      0         nbx        ngN
```

so the bounds are all that it can refuse. Over exact numbers these are the bounds of the problem:
the folding of the initial state moves both bounds of a general row by the same amount.

## Main results

* `ControlProblem.laidOut_templates` — the chain of stages is laid out.
* `ControlProblem.rowsInOrder_templates` — its bounds are those of the problem.
* `ControlProblem.build_agrees_with_check` — what is built, what is refused, and why.
-/

namespace StagedQP

variable {α : Type}

/-! ## The checks of sizes alone -/

/-- Every check of a chain passes, those of bounds left out. -/
structure Horizon.SizesPass (l : List (Stage α)) : Prop where
  /-- There are enough stages. -/
  length : 2 ≤ l.length
  /-- The arrays of each stage have their shapes. -/
  shapes : ∀ (k : Nat) (s : Stage α), l[k]? = some s → s.checkShapes k = .ok ()
  /-- The box rows of each stage bound distinct entries of its vector. -/
  positions : ∀ (k : Nat) (s : Stage α), l[k]? = some s →
    (Stage.checkPositions k s.sizes.nv 0 [] s.idxb : Except (SetupError α) Unit) = .ok ()
  /-- The first stage has no states. -/
  first : checkFirst l = .ok ()
  /-- The dynamics lead from stage to stage. -/
  links : checkLinks 0 l = .ok ()
  /-- The last stage has neither controls nor dynamics. -/
  last : ∀ s, l.getLast? = some s → checkLast (l.length - 1) s = .ok ()

theorem Horizon.LaidOut.sizesPass {l : List (Stage α)} {d : Nat → StageSizes}
    (h : Horizon.LaidOut l d) : Horizon.SizesPass l where
  length := h.length
  shapes k s hs := (Stage.layout_eq_ok_iff.2 (h.stage k s hs).declared).1
  positions k s hs := (Stage.layout_eq_ok_iff.2 (h.stage k s hs).declared).2
  first := h.checkCoupling.1
  links := h.checkCoupling.2.1
  last := h.checkCoupling.2.2

namespace ControlProblem

/-! ## Data that pass the check -/

/-- All arrays of a control problem have the sizes of its plant. -/
structure Fitted (p : ControlProblem α) : Prop extends p.WellShaped where
  steps : 0 < p.steps
  B_rows : p.plant.B.rows = p.plant.nx
  Q_cols : p.cost.Q.cols = p.plant.nx
  R_cols : p.cost.R.cols = p.plant.nu
  q : p.cost.q.size = p.plant.nx
  lastQ_cols : p.lastCost.Q.cols = p.plant.nx
  lastq : p.lastCost.q.size = p.plant.nx
  nbx : p.bounds.nb - p.plant.nu ≤ p.plant.nx
  lbx : p.bounds.lbx.size = p.bounds.nb - p.plant.nu
  ubx : p.bounds.ubx.size = p.bounds.nb - p.plant.nu
  D_rows : p.general.D.rows = p.general.count
  D_cols : p.general.D.cols = p.plant.nu
  last_C_cols : p.terminal.C.cols = p.plant.nx
  last_lg : p.terminal.lg.size = p.terminal.count
  last_ug : p.terminal.ug.size = p.terminal.count

theorem fitted_of_check {p : ControlProblem α} (h : p.check = .ok ()) : p.Fitted := by
  obtain ⟨hsteps, hshaped⟩ := wellShaped_of_check h
  rw [check, seq_eq_ok] at h
  obtain ⟨hplant, h⟩ := h
  rw [if_neg (by omega)] at h
  change (do
    p.x0.checkLength 0 "x0" p.plant.nx
    p.checkCost
    p.checkTerminalCost
    p.checkBox
    p.checkGeneral
    p.checkTerminal) = _ at h
  simp only [seq_eq_ok] at h
  obtain ⟨_, hcost, hlast, hbox, hgeneral, hterminal⟩ := h
  simp only [SampledPlant.check, checkCost, checkGeneral, checkTerminal, seq_eq_ok,
    Mat.checkShape_eq_ok, Vec.checkLength_eq_ok] at hplant hcost hgeneral hterminal
  obtain ⟨_, ⟨hB, _⟩, _⟩ := hplant
  obtain ⟨⟨_, hQ⟩, _, ⟨_, hR⟩, hq, _⟩ := hcost
  obtain ⟨_, ⟨hD, hD'⟩, _⟩ := hgeneral
  obtain ⟨⟨_, hC⟩, hlg, hug⟩ := hterminal
  have hlastCost : p.lastCost.Q.cols = p.plant.nx ∧ p.lastCost.q.size = p.plant.nx := by
    rw [checkTerminalCost] at hlast
    rw [lastCost]
    cases hc : p.terminalCost with
    | none => exact ⟨hQ, hq⟩
    | some c =>
        simp only [hc, seq_eq_ok, Mat.checkShape_eq_ok, Vec.checkLength_eq_ok] at hlast
        exact ⟨hlast.1.2, hlast.2⟩
  rw [checkBox] at hbox
  dsimp only at hbox
  split at hbox
  · cases hbox
  · simp only [seq_eq_ok, Vec.checkLength_eq_ok] at hbox
    exact
      { hshaped with
        steps := hsteps, B_rows := hB, Q_cols := hQ, R_cols := hR, q := hq
        lastQ_cols := hlastCost.1, lastq := hlastCost.2
        nbx := not_lt.1 ‹_›, lbx := hbox.2.2.1, ubx := hbox.2.2.2
        D_rows := hD, D_cols := hD', last_C_cols := hC, last_lg := hlg, last_ug := hug }

/-! ## The three kinds of stages -/

section Stages

variable [Scalar α] {p : ControlProblem α} (hp : p.Fitted)

include hp

theorem laidOut_firstStage : p.firstStage.LaidOut
    ⟨0, p.plant.nu, p.boundedControls, p.general.count⟩ p.plant.nx where
  A := ⟨rfl, rfl⟩
  B := ⟨hp.B_rows, rfl⟩
  b := (Vec.size_add _ _).trans hp.b
  Q := ⟨rfl, rfl⟩
  S := ⟨rfl, rfl⟩
  R := ⟨hp.R_rows, hp.R_cols⟩
  q := Vec.size_zeros 0
  r := (Vec.size_add _ _).trans hp.r
  lb := hp.lbu
  ub := hp.ubu
  C := ⟨rfl, rfl⟩
  D := ⟨hp.D_rows, hp.D_cols⟩
  lg := (Vec.size_sub _ _).trans hp.lg
  ug := (Vec.size_sub _ _).trans hp.ug
  length := List.length_range
  distinct := List.nodup_range
  inside _ hi := (List.mem_range.1 hi).trans_le (Nat.min_le_left _ _)

omit [Scalar α] in
theorem laidOut_interiorStage : p.interiorStage.LaidOut
    ⟨p.plant.nx, p.plant.nu, p.boundedControls + p.boundedStates, p.general.count⟩
    p.plant.nx where
  A := ⟨rfl, hp.A_cols⟩
  B := ⟨hp.B_rows, rfl⟩
  b := hp.b
  Q := ⟨hp.Q_rows, hp.Q_cols⟩
  S := ⟨hp.S_rows, hp.S_cols⟩
  R := ⟨hp.R_rows, hp.R_cols⟩
  q := hp.q
  r := hp.r
  lb := (Vec.size_append _ _).trans (congrArg₂ (· + ·) hp.lbu hp.lbx)
  ub := (Vec.size_append _ _).trans (congrArg₂ (· + ·) hp.ubu hp.ubx)
  C := ⟨rfl, hp.C_cols⟩
  D := ⟨hp.D_rows, hp.D_cols⟩
  lg := hp.lg
  ug := hp.ug
  length := by simp [interiorStage]
  distinct := by
    have hcontrols : p.boundedControls ≤ p.plant.nu := Nat.min_le_left _ _
    refine List.nodup_append.2 ⟨List.nodup_range, ?_, ?_⟩
    · exact List.nodup_range.map fun i j hij => Nat.add_left_cancel hij
    · intro i hi j hj
      obtain ⟨n, _, rfl⟩ := List.mem_map.1 hj
      have := List.mem_range.1 hi
      omega
  inside := by
    have hcontrols : p.boundedControls ≤ p.plant.nu := Nat.min_le_left _ _
    have hstates : p.boundedStates ≤ p.plant.nx := hp.nbx
    intro i hi
    rcases List.mem_append.1 hi with hi | hi
    · have := List.mem_range.1 hi
      show i < p.plant.nu + p.plant.nx
      omega
    · obtain ⟨n, hn, rfl⟩ := List.mem_map.1 hi
      have := List.mem_range.1 hn
      show p.plant.nu + n < p.plant.nu + p.plant.nx
      omega

theorem laidOut_lastStage : p.lastStage.LaidOut
    ⟨p.plant.nx, 0, p.boundedStates, p.terminal.count⟩ 0 where
  A := ⟨rfl, rfl⟩
  B := ⟨rfl, rfl⟩
  b := Vec.size_zeros 0
  Q := ⟨hp.lastQ_rows, hp.lastQ_cols⟩
  S := ⟨rfl, rfl⟩
  R := ⟨rfl, rfl⟩
  q := hp.lastq
  r := Vec.size_zeros 0
  lb := hp.lbx
  ub := hp.ubx
  C := ⟨rfl, hp.last_C_cols⟩
  D := ⟨rfl, rfl⟩
  lg := hp.last_lg
  ug := hp.last_ug
  length := List.length_range
  distinct := List.nodup_range
  inside i hi := by
    have hstates : p.boundedStates ≤ p.plant.nx := hp.nbx
    have := List.mem_range.1 hi
    show i < 0 + p.plant.nx
    omega

end Stages

/-! ## The chain -/

section Chain

variable [Scalar α] (p : ControlProblem α)

/-- The stages that a problem is laid out as. -/
def stages : List (Stage α) := p.templates.map (·.stage)

theorem stages_eq : p.stages =
    p.firstStage :: (List.replicate (p.steps - 1) p.interiorStage ++ [p.lastStage]) := by
  rw [stages, templates, List.map_cons, List.map_append, List.map_replicate]
  rfl

/-- The sizes of the stages, and none past the last. -/
def stageSizes (k : Nat) : StageSizes :=
  if k = 0 then ⟨0, p.plant.nu, p.boundedControls, p.general.count⟩
  else if k < p.steps then
    ⟨p.plant.nx, p.plant.nu, p.boundedControls + p.boundedStates, p.general.count⟩
  else if k = p.steps then ⟨p.plant.nx, 0, p.boundedStates, p.terminal.count⟩
  else ⟨0, 0, 0, 0⟩

variable {p}

theorem length_stages (hsteps : 0 < p.steps) : p.stages.length = p.steps + 1 := by
  rw [stages_eq, List.length_cons, List.length_append, List.length_replicate,
    List.length_singleton, Nat.sub_add_cancel hsteps]

/-- A stage is the first, an interior one, or the last. -/
theorem cases_of_stages (hsteps : 0 < p.steps) {k : Nat} {s : Stage α}
    (hs : p.stages[k]? = some s) : k = 0 ∧ s = p.firstStage ∨
      0 < k ∧ k < p.steps ∧ s = p.interiorStage ∨ k = p.steps ∧ s = p.lastStage := by
  rw [stages_eq] at hs
  cases k with
  | zero => exact .inl ⟨rfl, (Option.some.inj hs).symm⟩
  | succ k =>
      rw [List.getElem?_cons_succ] at hs
      rcases Nat.lt_or_ge k (p.steps - 1) with hlt | hge
      · rw [List.getElem?_append_left (by rwa [List.length_replicate]), List.getElem?_replicate,
          if_pos hlt] at hs
        exact .inr (.inl ⟨k.succ_pos, by omega, (Option.some.inj hs).symm⟩)
      · rw [List.getElem?_append_right (by rwa [List.length_replicate]), List.length_replicate,
          List.getElem?_singleton] at hs
        split at hs
        · exact .inr (.inr ⟨by omega, (Option.some.inj hs).symm⟩)
        · cases hs

/-- What passes the check of a problem is laid out as a chain of stages that fit. -/
theorem laidOut_templates (hp : p.Fitted) : Horizon.LaidOut p.stages p.stageSizes := by
  have hsteps := hp.steps
  have hnx : ∀ {k : Nat}, 0 < k → k ≤ p.steps → (p.stageSizes k).nx = p.plant.nx := by
    intro k hk hle
    unfold stageSizes
    rw [if_neg (by omega)]
    split
    · rfl
    · rw [if_pos (by omega)]
  have hafter : (p.stageSizes (p.steps + 1)).nx = 0 := by
    unfold stageSizes
    rw [if_neg (by omega), if_neg (by omega), if_neg (by omega)]
  have hlast : p.stageSizes p.steps = ⟨p.plant.nx, 0, p.boundedStates, p.terminal.count⟩ := by
    unfold stageSizes
    rw [if_neg (by omega), if_neg (by omega), if_pos rfl]
  refine ⟨?_, rfl, ?_, ?_, fun k s hs => ?_⟩
  · rw [length_stages hsteps]
    omega
  · rw [length_stages hsteps, Nat.add_sub_cancel, hlast]
  · rw [length_stages hsteps, hafter]
  · rcases cases_of_stages hsteps hs with ⟨rfl, rfl⟩ | ⟨hpos, hlt, rfl⟩ | ⟨rfl, rfl⟩
    · rw [hnx Nat.one_pos hsteps]
      exact laidOut_firstStage hp
    · have hsizes : p.stageSizes k = ⟨p.plant.nx, p.plant.nu, p.boundedControls + p.boundedStates,
          p.general.count⟩ := by
        unfold stageSizes
        rw [if_neg (by omega), if_pos hlt]
      rw [hnx k.succ_pos hlt, hsizes]
      exact laidOut_interiorStage hp
    · rw [hafter, hlast]
      exact laidOut_lastStage hp

end Chain

/-! ## Bounds -/

section Bounds

variable {K : Type} [Field K] [LinearOrder K]

/-- The lower bounds of a problem are at most the upper ones, entry by entry. -/
structure BoundsInOrder (p : ControlProblem K) : Prop where
  controls : ∀ i < p.bounds.lbu.size, p.bounds.lbu.get i ≤ p.bounds.ubu.get i
  states : ∀ i < p.bounds.lbx.size, p.bounds.lbx.get i ≤ p.bounds.ubx.get i
  general : ∀ i < p.general.lg.size, p.general.lg.get i ≤ p.general.ug.get i
  terminal : ∀ i < p.terminal.lg.size, p.terminal.lg.get i ≤ p.terminal.ug.get i

variable [SquareRoot K]

theorem inOrder_exact (a b : K) : InOrder (a, b) ↔ a ≤ b := by
  unfold InOrder
  rw [Scalar.isFinite_exact, Scalar.isFinite_exact, Scalar.le_iff]
  simp

variable {p : ControlProblem K} (hp : p.Fitted)

include hp

/-- Folding the initial state moves both bounds of a general row alike. -/
theorem rowsInOrder_firstStage [IsStrictOrderedRing K] : p.firstStage.RowsInOrder ↔
    (∀ i < p.bounds.lbu.size, p.bounds.lbu.get i ≤ p.bounds.ubu.get i) ∧
      ∀ i < p.general.lg.size, p.general.lg.get i ≤ p.general.ug.get i := by
  rw [Stage.rowsInOrder_iff, (laidOut_firstStage hp).sizes_eq.1, hp.lbu, hp.lg]
  refine and_congr (forall₂_congr fun i _ => inOrder_exact _ _) (forall₂_congr fun i hi => ?_)
  have hlower : p.firstStage.lg.get i =
      p.general.lg.get i - (p.general.C.mulVec p.x0).get i := Vec.get_sub _ _ (hp.lg.symm ▸ hi)
  have hupper : p.firstStage.ug.get i =
      p.general.ug.get i - (p.general.C.mulVec p.x0).get i := Vec.get_sub _ _ (hp.ug.symm ▸ hi)
  rw [inOrder_exact, hlower, hupper, sub_le_sub_iff_right]

theorem rowsInOrder_interiorStage : p.interiorStage.RowsInOrder ↔
    ((∀ i < p.bounds.lbu.size, p.bounds.lbu.get i ≤ p.bounds.ubu.get i) ∧
      ∀ i < p.bounds.lbx.size, p.bounds.lbx.get i ≤ p.bounds.ubx.get i) ∧
      ∀ i < p.general.lg.size, p.general.lg.get i ≤ p.general.ug.get i := by
  rw [Stage.rowsInOrder_iff, (laidOut_interiorStage hp).sizes_eq.1, hp.lg]
  refine and_congr ?_ (forall₂_congr fun i _ => inOrder_exact _ _)
  have hcontrols : p.boundedControls = p.bounds.lbu.size := hp.lbu.symm
  have hstates : p.boundedStates = p.bounds.lbx.size := hp.lbx.symm
  have hupper : p.bounds.ubu.size = p.bounds.lbu.size := hp.ubu.trans hp.lbu.symm
  show (∀ i < p.boundedControls + p.boundedStates, InOrder
    ((p.bounds.lbu.append p.bounds.lbx).get i, (p.bounds.ubu.append p.bounds.ubx).get i)) ↔ _
  rw [hcontrols, hstates]
  constructor
  · intro h
    refine ⟨fun i hi => ?_, fun i hi => ?_⟩
    · have := h i (by omega)
      rwa [inOrder_exact, Vec.get_append_left _ _ hi, Vec.get_append_left _ _ (hupper ▸ hi)] at this
    · have := h (p.bounds.lbu.size + i) (by omega)
      rwa [inOrder_exact, Vec.get_append_right _ _ rfl, Vec.get_append_right _ _ hupper] at this
  · rintro ⟨hlower, hstate⟩ i hi
    rw [inOrder_exact]
    by_cases hlt : i < p.bounds.lbu.size
    · rw [Vec.get_append_left _ _ hlt, Vec.get_append_left _ _ (hupper ▸ hlt)]
      exact hlower i hlt
    · obtain ⟨n, rfl⟩ := Nat.exists_eq_add_of_le (not_lt.1 hlt)
      rw [Vec.get_append_right _ _ rfl, Vec.get_append_right _ _ hupper]
      exact hstate n (by omega)

theorem rowsInOrder_lastStage : p.lastStage.RowsInOrder ↔
    (∀ i < p.bounds.lbx.size, p.bounds.lbx.get i ≤ p.bounds.ubx.get i) ∧
      ∀ i < p.terminal.lg.size, p.terminal.lg.get i ≤ p.terminal.ug.get i := by
  rw [Stage.rowsInOrder_iff, (laidOut_lastStage hp).sizes_eq.1, hp.lbx, hp.last_lg]
  exact and_congr (forall₂_congr fun i _ => inOrder_exact _ _)
    (forall₂_congr fun i _ => inOrder_exact _ _)

/-- The bounds of the stages are those of the problem. With a single step there is no interior
stage, and the first and the last have all of them between them. -/
theorem rowsInOrder_templates [IsStrictOrderedRing K] :
    (∀ s ∈ p.stages, s.RowsInOrder) ↔ p.BoundsInOrder := by
  constructor
  · intro h
    have hfirst : p.firstStage.RowsInOrder := h _ (by rw [stages_eq]; simp)
    have hlast : p.lastStage.RowsInOrder := h _ (by rw [stages_eq]; simp)
    obtain ⟨hcontrols, hgeneral⟩ := (rowsInOrder_firstStage hp).1 hfirst
    obtain ⟨hstates, hterminal⟩ := (rowsInOrder_lastStage hp).1 hlast
    exact ⟨hcontrols, hstates, hgeneral, hterminal⟩
  · intro h s hs
    obtain ⟨k, hk⟩ := List.getElem?_of_mem hs
    rcases cases_of_stages hp.steps hk with ⟨_, rfl⟩ | ⟨_, _, rfl⟩ | ⟨_, rfl⟩
    · exact (rowsInOrder_firstStage hp).2 ⟨h.controls, h.general⟩
    · exact (rowsInOrder_interiorStage hp).2 ⟨⟨h.controls, h.states⟩, h.general⟩
    · exact (rowsInOrder_lastStage hp).2 ⟨h.states, h.terminal⟩

end Bounds

/-! ## Both checks -/

/-- **The two checks agree.** A horizon is built exactly from the problems whose check passes and
whose bounds are in order. Once the check has passed, every check of sizes passes on the stages laid
out, so what may still go wrong is the bounds of a row. And the horizon has one stage without
states, one for each further step, and one without controls, of the sizes of the problem. -/
theorem build_agrees_with_check {K : Type} [Field K] [LinearOrder K] [IsStrictOrderedRing K]
    [SquareRoot K] (p : ControlProblem K) :
    ((∃ h, p.build? = .ok h) ↔ p.check = .ok () ∧ p.BoundsInOrder) ∧
    (p.check = .ok () → Horizon.SizesPass (p.templates.map (·.stage)) ∧
      ∀ e, p.build? = .error e → ∃ stage row lo up, e = .bounds stage row lo up) ∧
    ∀ h, p.build? = .ok h → h.sizes.length = p.steps + 1 ∧
      h.sizes = ⟨0, p.plant.nu, p.boundedControls, p.general.count⟩ ::
        (List.replicate (p.steps - 1) ⟨p.plant.nx, p.plant.nu, p.bounds.nb, p.general.count⟩ ++
          [⟨p.plant.nx, 0, p.boundedStates, p.terminal.count⟩]) ∧
      p.boundedControls + p.boundedStates = p.bounds.nb := by
  have hsplit : p.boundedControls + p.boundedStates = p.bounds.nb := by
    show min p.plant.nu p.bounds.nb + (p.bounds.nb - p.plant.nu) = p.bounds.nb
    omega
  refine ⟨?built, fun hcheck => ?refused, fun h hbuild => ?sizes⟩
  case built =>
    constructor
    · rintro ⟨h, hbuild⟩
      rw [build?, seq_eq_ok, Horizon.of?_eq_ok_iff] at hbuild
      obtain ⟨hcheck, hstages, _⟩ := hbuild
      have hp := fitted_of_check hcheck
      exact ⟨hcheck, (rowsInOrder_templates hp).1
        ((laidOut_templates hp).check_eq_ok_iff.1 hstages)⟩
    · rintro ⟨hcheck, hbounds⟩
      have hp := fitted_of_check hcheck
      have hstages : Horizon.check p.stages = .ok () :=
        (laidOut_templates hp).check_eq_ok_iff.2 ((rowsInOrder_templates hp).2 hbounds)
      refine ⟨⟨p.templates, hstages⟩, ?_⟩
      rw [build?, seq_eq_ok, Horizon.of?_eq_ok_iff]
      exact ⟨hcheck, hstages, rfl⟩
  case refused =>
    have hlaid := laidOut_templates (fitted_of_check hcheck)
    refine ⟨hlaid.sizesPass, fun e he => ?_⟩
    have hof : Horizon.of? p.templates = .error e := by
      rw [build?, hcheck] at he
      exact he
    exact hlaid.bounds_of_check_eq_error (Horizon.of?_eq_error_iff.1 hof)
  case sizes =>
    refine ⟨?_, ?_, hsplit⟩
    · rw [Horizon.sizes, List.length_map, length_of_build hbuild]
    · have hsizes := sizes_of_build hbuild
      rw [show min p.plant.nu p.bounds.nb + (p.bounds.nb - p.plant.nu) = p.bounds.nb from hsplit]
        at hsizes
      exact hsizes

/-- The cart with a force that is at least `1` and at most `0`. -/
def cart.strained : ControlProblem ℚ :=
  { cart with bounds := { cart.bounds with lbu := Vec.ofList [1], ubu := Vec.ofList [0] } }

/-- For instance the cart is built, with its bounded control and its bounded state counted apart;
the strained one passes the first check, and is refused for its bounds. -/
theorem build_agrees_with_check_cart :
    (∃ h, cart.build? = .ok h ∧ h.sizes = [⟨0, 1, 1, 1⟩, ⟨2, 1, 2, 1⟩, ⟨2, 0, 1, 1⟩]) ∧
      ∃ stage row lo up, cart.strained.build? = .error (.bounds stage row lo up) := by
  constructor
  · obtain ⟨hbuilt, _, hsizes⟩ := build_agrees_with_check cart
    have hbounds : cart.BoundsInOrder := by
      constructor <;> decide +kernel
    obtain ⟨h, hbuild⟩ := hbuilt.2 ⟨rfl, hbounds⟩
    exact ⟨h, hbuild, (hsizes h hbuild).2.1⟩
  · obtain ⟨hbuilt, hrefused, _⟩ := build_agrees_with_check cart.strained
    cases hbuild : cart.strained.build? with
    | ok h =>
        have hbounds := (hbuilt.1 ⟨h, hbuild⟩).2.controls 0
        exact absurd hbounds (by decide +kernel)
    | error e =>
        obtain ⟨stage, row, lo, up, rfl⟩ := (hrefused rfl).2 e hbuild
        exact ⟨stage, row, lo, up, rfl⟩

end ControlProblem

end StagedQP
