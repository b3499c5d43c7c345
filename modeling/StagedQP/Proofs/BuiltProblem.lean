import StagedQP.Problem.Build
import StagedQP.Proofs.PackedProblem

/-!
# A built horizon means what the problem says

`ControlProblem.build?` spreads one time-invariant problem over three kinds of stages. The first has
lost its states to the data, the last has lost its controls, and in both the positions of the box
rows count from another base than in between. This module says what the problem means without
mentioning stages: which controls and states it admits, and what they cost. The horizon that was
built has the same feasible trajectories, and its objective differs by the cost of the known initial
state.

What the initial state was folded into is undone stage by stage:

```text
successor of the first stage      A x0 + B u + b
its cost plus that of x0 alone    cost of (x0, u)
lg - C x0 ≤ D u ≤ ug - C x0       lg ≤ D u + C x0 ≤ ug
```

## Main results

* `ControlProblem.Admits`, `ControlProblem.objective` — what a control problem means.
* `ControlProblem.withinBounds_firstStage` and its companions — the rows of the three stages.
* `ControlProblem.build_preserves_meaning` — the horizon against the problem.
-/

namespace StagedQP

open Finset

namespace ControlProblem

/-! ## What a control problem means -/

section Meaning

variable {K : Type} [Field K] (p : ControlProblem K)

/-- Where the plant leads, `A x + B u + b`. -/
def successor (u x : Nat → K) (i : Nat) : K :=
  rowSum p.plant.A.get p.plant.nx x i + rowSum p.plant.B.get p.plant.nu u i + p.plant.b.get i

/-- General row `i`, `D u + C x`. -/
def generalRow (u x : Nat → K) (i : Nat) : K :=
  rowSum p.general.D.get p.plant.nu u i + rowSum p.general.C.get p.plant.nx x i

/-- The part of a step's cost that states have alone, `½ xᵀQx + qᵀx`. -/
def stateCost (x : Nat → K) : K :=
  halfForm p.cost.Q.get p.plant.nx x + ∑ i ∈ range p.plant.nx, p.cost.q.get i * x i

/-- The cost of a step, `½ xᵀQx + uᵀSx + ½ uᵀRu + qᵀx + rᵀu`. -/
def stepCost (u x : Nat → K) : K :=
  p.stateCost x + ∑ i ∈ range p.plant.nu, u i * rowSum p.cost.S.get p.plant.nx x i
    + halfForm p.cost.R.get p.plant.nu u + ∑ i ∈ range p.plant.nu, p.cost.r.get i * u i

/-- The cost of the last state: the terminal cost, or that of a step when there is none. -/
def finalCost (x : Nat → K) : K :=
  p.terminalCost.elim (p.stateCost x) fun c =>
    halfForm c.Q.get p.plant.nx x + ∑ i ∈ range p.plant.nx, c.q.get i * x i

/-- The state after `k` steps of a trajectory, which starts from the known initial state. -/
def stateAt (t : Trajectory K) (k i : Nat) : K := if k = 0 then p.x0.get i else t.state k i

/-- The costs of all steps and of the last state. -/
def objective (t : Trajectory K) : K :=
  ∑ k ∈ range p.steps, p.stepCost (t.control k) (p.stateAt t k)
    + p.finalCost (p.stateAt t p.steps)

variable [LinearOrder K]

/-- The first `min nu nb` controls obey their bounds. -/
def ControlsBounded (u : Nat → K) : Prop :=
  ∀ i < min p.plant.nu p.bounds.nb, p.bounds.lbu.get i ≤ u i ∧ u i ≤ p.bounds.ubu.get i

/-- The first `nb - nu` states obey their bounds. -/
def StatesBounded (x : Nat → K) : Prop :=
  ∀ i < p.bounds.nb - p.plant.nu, p.bounds.lbx.get i ≤ x i ∧ x i ≤ p.bounds.ubx.get i

/-- The general rows are within bounds. -/
def RowsBounded (u x : Nat → K) : Prop :=
  ∀ i < p.general.count,
    p.general.lg.get i ≤ p.generalRow u x i ∧ p.generalRow u x i ≤ p.general.ug.get i

/-- The terminal rows are within bounds. -/
def TerminalBounded (x : Nat → K) : Prop :=
  ∀ i < p.terminal.count, p.terminal.lg.get i ≤ rowSum p.terminal.C.get p.plant.nx x i ∧
    rowSum p.terminal.C.get p.plant.nx x i ≤ p.terminal.ug.get i

/-- The controls and states of a trajectory that the problem admits. -/
structure Admits (t : Trajectory K) : Prop where
  /-- The states follow the plant from the initial state on. -/
  dynamics : ∀ k < p.steps, ∀ i < p.plant.nx,
    p.stateAt t (k + 1) i = p.successor (t.control k) (p.stateAt t k) i
  /-- The controls of all steps obey their bounds. -/
  controls : ∀ k < p.steps, p.ControlsBounded (t.control k)
  /-- The states after all steps obey their bounds. -/
  states : ∀ k < p.steps, p.StatesBounded (p.stateAt t (k + 1))
  /-- The general rows of all steps are within bounds. -/
  general : ∀ k < p.steps, p.RowsBounded (t.control k) (p.stateAt t k)
  /-- The terminal rows are within bounds. -/
  terminal : p.TerminalBounded (p.stateAt t p.steps)

instance (u : Nat → K) : Decidable (p.ControlsBounded u) :=
  inferInstanceAs (Decidable (∀ i < _, _ ≤ _ ∧ _ ≤ _))

instance (x : Nat → K) : Decidable (p.StatesBounded x) :=
  inferInstanceAs (Decidable (∀ i < _, _ ≤ _ ∧ _ ≤ _))

instance (u x : Nat → K) : Decidable (p.RowsBounded u x) :=
  inferInstanceAs (Decidable (∀ i < _, _ ≤ _ ∧ _ ≤ _))

instance (x : Nat → K) : Decidable (p.TerminalBounded x) :=
  inferInstanceAs (Decidable (∀ i < _, _ ≤ _ ∧ _ ≤ _))

/-- Whether a trajectory is admitted can be computed. -/
instance (t : Trajectory K) : Decidable (p.Admits t) :=
  decidable_of_iff ((∀ k < p.steps, ∀ i < p.plant.nx,
      p.stateAt t (k + 1) i = p.successor (t.control k) (p.stateAt t k) i) ∧
    (∀ k < p.steps, p.ControlsBounded (t.control k)) ∧
    (∀ k < p.steps, p.StatesBounded (p.stateAt t (k + 1))) ∧
    (∀ k < p.steps, p.RowsBounded (t.control k) (p.stateAt t k)) ∧
    p.TerminalBounded (p.stateAt t p.steps))
    ⟨fun ⟨hdynamics, hcontrols, hstates, hgeneral, hterminal⟩ =>
      ⟨hdynamics, hcontrols, hstates, hgeneral, hterminal⟩,
    fun h => ⟨h.dynamics, h.controls, h.states, h.general, h.terminal⟩⟩

end Meaning

/-! ## Data that fit together -/

/-- The arrays of a control problem have the sizes of its plant. -/
structure WellShaped {α : Type} (p : ControlProblem α) : Prop where
  A_cols : p.plant.A.cols = p.plant.nx
  b : p.plant.b.size = p.plant.nx
  x0 : p.x0.size = p.plant.nx
  Q_rows : p.cost.Q.rows = p.plant.nx
  S_rows : p.cost.S.rows = p.plant.nu
  S_cols : p.cost.S.cols = p.plant.nx
  R_rows : p.cost.R.rows = p.plant.nu
  r : p.cost.r.size = p.plant.nu
  lastQ_rows : p.lastCost.Q.rows = p.plant.nx
  lbu : p.bounds.lbu.size = min p.plant.nu p.bounds.nb
  ubu : p.bounds.ubu.size = min p.plant.nu p.bounds.nb
  C_cols : p.general.C.cols = p.plant.nx
  lg : p.general.lg.size = p.general.count
  ug : p.general.ug.size = p.general.count

theorem wellShaped_of_check {α : Type} {p : ControlProblem α} (h : p.check = .ok ()) :
    0 < p.steps ∧ p.WellShaped := by
  rw [check, seq_eq_ok] at h
  obtain ⟨hplant, h⟩ := h
  split at h
  · cases h
  simp only [seq_eq_ok] at h
  obtain ⟨hx0, hcost, hlast, hbox, hgeneral, hterminal⟩ := h
  simp only [SampledPlant.check, checkCost, checkGeneral, seq_eq_ok, Mat.checkShape_eq_ok,
    Vec.checkLength_eq_ok] at hplant hx0 hcost hgeneral
  obtain ⟨⟨_, hA⟩, _, hb⟩ := hplant
  obtain ⟨⟨hQ, _⟩, ⟨hS, hS'⟩, ⟨hR, _⟩, _, hr⟩ := hcost
  obtain ⟨⟨_, hC⟩, _, hlg, hug⟩ := hgeneral
  have hlastQ : p.lastCost.Q.rows = p.plant.nx := by
    rw [checkTerminalCost] at hlast
    rw [lastCost]
    cases hc : p.terminalCost with
    | none => exact hQ
    | some c =>
        simp only [hc, seq_eq_ok, Mat.checkShape_eq_ok] at hlast
        exact hlast.1.1
  have hbounds : p.bounds.lbu.size = min p.plant.nu p.bounds.nb ∧
      p.bounds.ubu.size = min p.plant.nu p.bounds.nb := by
    rw [checkBox] at hbox
    dsimp only at hbox
    split at hbox
    · cases hbox
    · simp only [seq_eq_ok, Vec.checkLength_eq_ok] at hbox
      exact ⟨hbox.1, hbox.2.1⟩
  exact ⟨Nat.pos_of_ne_zero ‹_›, hA, hb, hx0, hQ, hS, hS', hR, hr, hlastQ, hbounds.1, hbounds.2, hC,
    hlg, hug⟩

end ControlProblem

/-! ## Stages by their sizes -/

/-- Positions along a range. -/
theorem forall_position_range {n : Nat} {P : Nat → Nat → Prop} :
    (∀ row i, (List.range n)[row]? = some i → P row i) ↔ ∀ i < n, P i i := by
  constructor
  · intro h i hi
    exact h i i (List.getElem?_range hi)
  · intro h row i hi
    obtain ⟨hrow, heq⟩ := List.getElem?_eq_some_iff.1 hi
    rw [List.length_range] at hrow
    rw [List.getElem_range] at heq
    exact heq ▸ h row hrow

/-- Positions along a range and then along a shifted one. -/
theorem forall_position_append {m n a : Nat} {P : Nat → Nat → Prop} :
    (∀ row i, (List.range m ++ (List.range n).map fun i => a + i)[row]? = some i → P row i) ↔
      (∀ i < m, P i i) ∧ ∀ i < n, P (m + i) (a + i) := by
  rw [← forall_position_range, ← forall_position_range (P := fun row i => P (m + row) (a + i))]
  constructor
  · intro h
    refine ⟨fun row i hi => ?_, fun row i hi => ?_⟩
    · have hrow := (List.getElem?_eq_some_iff.1 hi).1
      exact h row i (by rw [List.getElem?_append_left hrow]; exact hi)
    · refine h (m + row) (a + i) ?_
      rw [List.getElem?_append_right (by rw [List.length_range]; omega), List.length_range,
        Nat.add_sub_cancel_left, List.getElem?_map, hi]
      rfl
  · rintro ⟨hleft, hright⟩ row i hi
    rcases Nat.lt_or_ge row m with hrow | hrow
    · rw [List.getElem?_append_left (by rw [List.length_range]; exact hrow)] at hi
      exact hleft row i hi
    · rw [List.getElem?_append_right (by rw [List.length_range]; exact hrow), List.length_range,
        List.getElem?_map] at hi
      obtain ⟨j, hj, rfl⟩ := Option.map_eq_some_iff.1 hi
      have hright' := hright _ j hj
      rwa [Nat.add_sub_cancel' hrow] at hright'

variable {K : Type} [Field K]

/-- The cost of a stage whose sizes are known. -/
theorem Stage.cost_of_sizes [CharZero K] {d : Stage K} {n : StageSizes} (h : d.sizes = n)
    (u x : Nat → K) : d.cost u x =
      halfForm d.Q.get n.nx x + ∑ i ∈ range n.nu, u i * rowSum d.S.get n.nx x i
        + halfForm d.R.get n.nu u + ∑ i ∈ range n.nx, d.q.get i * x i
        + ∑ i ∈ range n.nu, d.r.get i * u i := by
  subst h
  rw [cost, quadratic, halfForm, halfForm]
  ring

/-- The rows of a stage whose sizes are known. -/
theorem Stage.withinBounds_iff [LinearOrder K] {d : Stage K} {n : StageSizes} (h : d.sizes = n)
    {u x : Nat → K} : d.WithinBounds u x ↔
      (∀ row i, d.idxb[row]? = some i →
        d.lb.get row ≤ stageVector n.nu u x i ∧ stageVector n.nu u x i ≤ d.ub.get row) ∧
      ∀ row < n.ng,
        d.lg.get row ≤ rowSum d.D.get n.nu u row + rowSum d.C.get n.nx x row ∧
          rowSum d.D.get n.nu u row + rowSum d.C.get n.nx x row ≤ d.ug.get row := by
  subst h
  exact ⟨fun h => ⟨h.box, h.general⟩, fun h => ⟨h.1, h.2⟩⟩

/-! ## The three kinds of stages -/

namespace ControlProblem

variable [LinearOrder K] [SquareRoot K] {p : ControlProblem K} (hp : p.WellShaped)

include hp

theorem sizes_firstStage : p.firstStage.sizes =
    ⟨0, p.plant.nu, min p.plant.nu p.bounds.nb, p.general.count⟩ := by
  have hlength : p.firstStage.idxb.length = min p.plant.nu p.bounds.nb := List.length_range
  rw [Stage.sizes, hlength, ← hp.R_rows]
  rfl

omit [Field K] [LinearOrder K] [SquareRoot K] in
theorem sizes_interiorStage : p.interiorStage.sizes = ⟨p.plant.nx, p.plant.nu,
    min p.plant.nu p.bounds.nb + (p.bounds.nb - p.plant.nu), p.general.count⟩ := by
  have hlength : p.interiorStage.idxb.length =
      min p.plant.nu p.bounds.nb + (p.bounds.nb - p.plant.nu) := by
    refine List.length_append.trans ?_
    rw [List.length_map, List.length_range, List.length_range]
    rfl
  rw [Stage.sizes, hlength, ← hp.Q_rows, ← hp.R_rows]
  rfl

theorem sizes_lastStage : p.lastStage.sizes =
    ⟨p.plant.nx, 0, p.bounds.nb - p.plant.nu, p.terminal.count⟩ := by
  have hlength : p.lastStage.idxb.length = p.bounds.nb - p.plant.nu := List.length_range
  rw [Stage.sizes, hlength, ← hp.lastQ_rows]
  rfl

variable (u x : Nat → K)

/-- The initial state is folded into the offset of the first stage. -/
theorem successor_firstStage {i : Nat} (hi : i < p.plant.nx) :
    p.firstStage.successor u x i = p.successor u p.x0.get i := by
  have hoff : p.firstStage.b.get i =
      p.plant.b.get i + rowSum p.plant.A.get p.plant.nx p.x0.get i := by
    refine (Vec.get_add _ _ (hp.b.symm ▸ hi)).trans ?_
    rw [Mat.get_mulVec_eq _ _ hi, hp.A_cols]
  rw [Stage.successor, sizes_firstStage hp, hoff, successor, rowSum, range_zero, sum_empty]
  show 0 + rowSum p.plant.B.get _ u i + _ = _
  ring

omit [LinearOrder K] [SquareRoot K] in
theorem successor_interiorStage (i : Nat) :
    p.interiorStage.successor u x i = p.successor u x i := by
  rw [Stage.successor, sizes_interiorStage hp]
  rfl

section Cost

variable [IsStrictOrderedRing K]

/-- It is folded into the linear cost of the first stage, up to its own cost. -/
theorem cost_firstStage :
    p.firstStage.cost u x + p.stateCost p.x0.get = p.stepCost u p.x0.get := by
  have hgrad : ∑ i ∈ range p.plant.nu, p.firstStage.r.get i * u i =
      ∑ i ∈ range p.plant.nu, p.cost.r.get i * u i +
        ∑ i ∈ range p.plant.nu, u i * rowSum p.cost.S.get p.plant.nx p.x0.get i := by
    rw [← sum_add_distrib]
    refine sum_congr rfl fun i hi => ?_
    have hget : p.firstStage.r.get i =
        p.cost.r.get i + rowSum p.cost.S.get p.plant.nx p.x0.get i := by
      refine (Vec.get_add _ _ (hp.r.symm ▸ mem_range.1 hi)).trans ?_
      rw [Mat.get_mulVec_eq _ _ (hp.S_rows.symm ▸ mem_range.1 hi), hp.S_cols]
    rw [hget]
    ring
  have hcross : ∑ i ∈ range p.plant.nu, u i * rowSum p.firstStage.S.get 0 x i = 0 :=
    sum_eq_zero fun i _ => mul_zero _
  have hstates : halfForm p.firstStage.Q.get 0 x = 0 := zero_div 2
  rw [Stage.cost_of_sizes (sizes_firstStage hp), hgrad, hcross, hstates, range_zero, sum_empty,
    stepCost]
  show 0 + 0 + halfForm p.cost.R.get p.plant.nu u + 0 + _ + _ = _
  ring

omit [SquareRoot K] in
theorem cost_interiorStage : p.interiorStage.cost u x = p.stepCost u x := by
  rw [Stage.cost_of_sizes (sizes_interiorStage hp), stepCost, stateCost]
  show halfForm p.cost.Q.get p.plant.nx x
    + ∑ i ∈ range p.plant.nu, u i * rowSum p.cost.S.get p.plant.nx x i
    + halfForm p.cost.R.get p.plant.nu u + ∑ i ∈ range p.plant.nx, p.cost.q.get i * x i
    + ∑ i ∈ range p.plant.nu, p.cost.r.get i * u i = _
  ring

theorem cost_lastStage : p.lastStage.cost u x = p.finalCost x := by
  have hcontrols : halfForm p.lastStage.R.get 0 u = 0 := zero_div 2
  rw [Stage.cost_of_sizes (sizes_lastStage hp), hcontrols, range_zero, sum_empty, sum_empty,
    add_zero, add_zero, add_zero, finalCost]
  show halfForm p.lastCost.Q.get p.plant.nx x
    + ∑ i ∈ range p.plant.nx, p.lastCost.q.get i * x i = _
  rw [lastCost]
  cases p.terminalCost with
  | none => rfl
  | some c => rfl

end Cost

/-- It is folded into the bounds of the general rows of the first stage. -/
theorem withinBounds_firstStage [IsStrictOrderedRing K] : p.firstStage.WithinBounds u x ↔
    p.ControlsBounded u ∧ p.RowsBounded u p.x0.get := by
  rw [Stage.withinBounds_iff (sizes_firstStage hp)]
  refine and_congr ?_ (forall₂_congr fun row hrow => ?_)
  · refine forall_position_range.trans (forall₂_congr fun i hi => ?_)
    rw [stageVector_control u x (lt_of_lt_of_le hi (min_le_left _ _))]
    rfl
  · have hfolded : (p.general.C.mulVec p.x0).get row =
        rowSum p.general.C.get p.plant.nx p.x0.get row := by
      rw [Mat.get_mulVec_eq _ _ hrow, hp.C_cols]
    have hlower : p.firstStage.lg.get row =
        p.general.lg.get row - rowSum p.general.C.get p.plant.nx p.x0.get row := by
      rw [← hfolded]
      exact Vec.get_sub _ _ (hp.lg.symm ▸ hrow)
    have hupper : p.firstStage.ug.get row =
        p.general.ug.get row - rowSum p.general.C.get p.plant.nx p.x0.get row := by
      rw [← hfolded]
      exact Vec.get_sub _ _ (hp.ug.symm ▸ hrow)
    have hstates : rowSum p.firstStage.C.get 0 x row = 0 := rfl
    rw [hlower, hupper, hstates, add_zero, generalRow, sub_le_iff_le_add, le_sub_iff_add_le]
    rfl

omit [SquareRoot K] in
theorem withinBounds_interiorStage : p.interiorStage.WithinBounds u x ↔
    p.ControlsBounded u ∧ p.StatesBounded x ∧ p.RowsBounded u x := by
  rw [Stage.withinBounds_iff (sizes_interiorStage hp), ← and_assoc]
  refine and_congr ?_ Iff.rfl
  refine forall_position_append.trans (and_congr ?_ ?_)
  · refine forall₂_congr fun i hi => ?_
    have hi' : i < min p.plant.nu p.bounds.nb := hi
    have hlower : p.interiorStage.lb.get i = p.bounds.lbu.get i :=
      Vec.get_append_left _ _ (hp.lbu.symm ▸ hi')
    have hupper : p.interiorStage.ub.get i = p.bounds.ubu.get i :=
      Vec.get_append_left _ _ (hp.ubu.symm ▸ hi')
    rw [stageVector_control u x (lt_of_lt_of_le hi' (min_le_left _ _)), hlower, hupper]
  · refine forall₂_congr fun i _ => ?_
    have hlower : p.interiorStage.lb.get (p.boundedControls + i) = p.bounds.lbx.get i :=
      Vec.get_append_right _ _ hp.lbu i
    have hupper : p.interiorStage.ub.get (p.boundedControls + i) = p.bounds.ubx.get i :=
      Vec.get_append_right _ _ hp.ubu i
    rw [stageVector_state, hlower, hupper]

theorem withinBounds_lastStage : p.lastStage.WithinBounds u x ↔
    p.StatesBounded x ∧ p.TerminalBounded x := by
  rw [Stage.withinBounds_iff (sizes_lastStage hp)]
  refine and_congr ?_ (forall₂_congr fun row _ => ?_)
  · refine forall_position_range.trans (forall₂_congr fun i _ => ?_)
    have hstate : stageVector 0 u x i = x i := by
      rw [stageVector, if_neg (Nat.not_lt_zero i), Nat.sub_zero]
    rw [hstate]
    rfl
  · have hcontrols : rowSum p.lastStage.D.get 0 u row = 0 := rfl
    rw [hcontrols, zero_add]
    rfl

end ControlProblem

/-! ## The chain -/

/-- A horizon has the templates it was made from. -/
theorem Horizon.templates_of_of? {α : Type} [Scalar α] {l : List (Template α)} {h : Horizon α}
    (hof : Horizon.of? l = .ok h) : h.templates = l := by
  rw [of?] at hof
  split at hof
  · obtain rfl := Except.ok.inj hof
    rfl
  · cases hof

namespace ControlProblem

section Chain

variable {α : Type} [Scalar α] {p : ControlProblem α} {h : Horizon α} (hbuild : p.build? = .ok h)

include hbuild

/-- A horizon is built only from data that fit together. -/
theorem wellShaped_of_build : 0 < p.steps ∧ p.WellShaped := by
  rw [build?, seq_eq_ok] at hbuild
  exact wellShaped_of_check hbuild.1

theorem exists_steps : ∃ n, p.steps = n + 1 :=
  ⟨p.steps - 1, (Nat.sub_add_cancel (wellShaped_of_build hbuild).1).symm⟩

theorem stages_of_build : h.stages =
    p.firstStage :: (List.replicate (p.steps - 1) p.interiorStage ++ [p.lastStage]) := by
  rw [build?, seq_eq_ok] at hbuild
  rw [Horizon.stages, Horizon.templates_of_of? hbuild.2, templates, List.map_cons, List.map_append,
    List.map_replicate]
  rfl

theorem length_of_build : h.stages.length = p.steps + 1 := by
  obtain ⟨n, hn⟩ := exists_steps hbuild
  rw [stages_of_build hbuild, List.length_cons, List.length_append, List.length_replicate,
    List.length_singleton, hn, Nat.add_sub_cancel]

theorem getElem?_first : h.stages[0]? = some p.firstStage := by
  rw [stages_of_build hbuild]
  rfl

theorem getElem?_interior {k : Nat} (hk : k + 1 < p.steps) :
    h.stages[k + 1]? = some p.interiorStage := by
  rw [stages_of_build hbuild, List.getElem?_cons_succ,
    List.getElem?_append_left (by rw [List.length_replicate]; omega), List.getElem?_replicate,
    if_pos (by omega)]

theorem getElem?_last : h.stages[p.steps]? = some p.lastStage := by
  obtain ⟨n, hn⟩ := exists_steps hbuild
  have hlength : (List.replicate (p.steps - 1) p.interiorStage).length = n := by
    rw [List.length_replicate, hn, Nat.add_sub_cancel]
  rw [stages_of_build hbuild, hn, List.getElem?_cons_succ, ← hn,
    List.getElem?_append_right hlength.le, hlength, Nat.sub_self]
  rfl

/-- The stages are of three kinds. -/
theorem cases_of_build {P : Nat → Stage α → Prop} (hfirst : P 0 p.firstStage)
    (hinterior : ∀ k, k + 1 < p.steps → P (k + 1) p.interiorStage)
    (hlast : P p.steps p.lastStage) :
    ∀ (k : Nat) (d : Stage α), h.stages[k]? = some d → P k d := by
  intro k d hd
  have hk : k < p.steps + 1 := length_of_build hbuild ▸ (List.getElem?_eq_some_iff.1 hd).1
  rcases Nat.lt_or_eq_of_le (Nat.le_of_lt_succ hk) with hlt | rfl
  · cases k with
    | zero =>
        obtain rfl := Option.some.inj ((getElem?_first hbuild).symm.trans hd)
        exact hfirst
    | succ k =>
        obtain rfl := Option.some.inj ((getElem?_interior hbuild hlt).symm.trans hd)
        exact hinterior k hlt
  · obtain rfl := Option.some.inj ((getElem?_last hbuild).symm.trans hd)
    exact hlast

end Chain

/-! ## The horizon against the problem -/

section Built

variable [LinearOrder K] [SquareRoot K] {p : ControlProblem K} {h : Horizon K}
  (hbuild : p.build? = .ok h) (t : Trajectory K)

omit [LinearOrder K] [SquareRoot K] in
theorem stateAt_zero : p.stateAt t 0 = p.x0.get := rfl

omit [LinearOrder K] [SquareRoot K] in
theorem stateAt_succ (k : Nat) : p.stateAt t (k + 1) = t.state (k + 1) := rfl

include hbuild

/-- The sizes of the stages. -/
theorem sizes_of_build : h.sizes =
    ⟨0, p.plant.nu, min p.plant.nu p.bounds.nb, p.general.count⟩ ::
      (List.replicate (p.steps - 1) ⟨p.plant.nx, p.plant.nu,
        min p.plant.nu p.bounds.nb + (p.bounds.nb - p.plant.nu), p.general.count⟩ ++
      [⟨p.plant.nx, 0, p.bounds.nb - p.plant.nu, p.terminal.count⟩]) := by
  have hp := (wellShaped_of_build hbuild).2
  rw [Horizon.sizes, stages_of_build hbuild, List.map_cons, List.map_append, List.map_replicate,
    List.map_singleton, sizes_firstStage hp, sizes_interiorStage hp, sizes_lastStage hp]

/-- The trajectories of the horizon have a vector of controls for each step, an empty vector for the
initial state, and a vector of states after each step. -/
theorem fits_of_build : t.fits h.sizes = true ↔
    t.x.map Vec.size = 0 :: List.replicate p.steps p.plant.nx ∧
      t.u.map Vec.size = List.replicate p.steps p.plant.nu := by
  obtain ⟨n, hn⟩ := exists_steps hbuild
  have hstates : h.sizes.map StageSizes.nx = 0 :: List.replicate p.steps p.plant.nx := by
    rw [sizes_of_build hbuild, List.map_cons, List.map_append, List.map_replicate,
      List.map_singleton, hn, Nat.add_sub_cancel, List.replicate_succ']
  have hcontrols : (h.sizes.take (h.sizes.length - 1)).map StageSizes.nu =
      List.replicate p.steps p.plant.nu := by
    rw [← List.dropLast_eq_take, sizes_of_build hbuild, ← List.cons_append, List.dropLast_concat,
      List.map_cons, List.map_replicate, hn, Nat.add_sub_cancel, List.replicate_succ]
  rw [Trajectory.fits, Bool.and_eq_true, beq_iff_eq, beq_iff_eq, hstates, hcontrols]

/-- What is feasible for the horizon, the problem admits. -/
theorem admits_of_feasible [IsStrictOrderedRing K] (hfeasible : h.Feasible t) : p.Admits t := by
  have hp := (wellShaped_of_build hbuild).2
  have hfirst := (withinBounds_firstStage hp _ _).1
    (hfeasible.rows 0 _ (getElem?_first hbuild))
  have hinterior := fun k (hk : k + 1 < p.steps) => (withinBounds_interiorStage hp _ _).1
    (hfeasible.rows (k + 1) _ (getElem?_interior hbuild hk))
  have hlast := (withinBounds_lastStage hp _ _).1
    (hfeasible.rows p.steps _ (getElem?_last hbuild))
  constructor
  case dynamics =>
    intro k hk i hi
    rw [stateAt_succ]
    cases k with
    | zero =>
        rw [stateAt_zero, ← successor_firstStage hp _ (t.state 0) hi]
        exact hfeasible.dynamics 0 _ (getElem?_first hbuild) i hi
    | succ k =>
        rw [stateAt_succ, ← successor_interiorStage hp]
        exact hfeasible.dynamics (k + 1) _ (getElem?_interior hbuild hk) i hi
  case controls =>
    intro k hk
    cases k with
    | zero => exact hfirst.1
    | succ k => exact (hinterior k hk).1
  case states =>
    intro k hk
    rw [stateAt_succ]
    rcases Nat.lt_or_eq_of_le (Nat.succ_le_of_lt hk) with hlt | heq
    · exact (hinterior k hlt).2.1
    · rw [show k + 1 = p.steps from heq]
      exact hlast.1
  case general =>
    intro k hk
    cases k with
    | zero => exact hfirst.2
    | succ k => exact (hinterior k hk).2.2
  case terminal =>
    obtain ⟨n, hn⟩ := exists_steps hbuild
    rw [hn, stateAt_succ, ← hn]
    exact hlast.2

/-- What the problem admits is feasible for the horizon. -/
theorem Admits.feasible [IsStrictOrderedRing K] {t : Trajectory K} (hadmits : p.Admits t)
    (hfits : t.fits h.sizes = true) : h.Feasible t := by
  obtain ⟨hsteps, hp⟩ := wellShaped_of_build hbuild
  obtain ⟨n, hn⟩ := exists_steps hbuild
  refine ⟨hfits, cases_of_build hbuild ?_ ?_ ?_, cases_of_build hbuild ?_ ?_ ?_⟩
  · intro i hi
    rw [successor_firstStage hp _ _ hi]
    exact hadmits.dynamics 0 hsteps i hi
  · intro k hk i hi
    rw [successor_interiorStage hp]
    exact hadmits.dynamics (k + 1) hk i hi
  · exact fun i hi => absurd hi (Nat.not_lt_zero i)
  · exact (withinBounds_firstStage hp _ _).2 ⟨hadmits.controls 0 hsteps, hadmits.general 0 hsteps⟩
  · intro k hk
    exact (withinBounds_interiorStage hp _ _).2 ⟨hadmits.controls (k + 1) hk,
      hadmits.states k (Nat.lt_of_succ_lt hk), hadmits.general (k + 1) hk⟩
  · have hterminal := hadmits.terminal
    rw [hn, stateAt_succ] at hterminal
    rw [hn]
    exact (withinBounds_lastStage hp _ _).2 ⟨hadmits.states n (by omega), hterminal⟩

/-- The objectives differ by the cost of the initial state. -/
theorem objective_of_build [IsStrictOrderedRing K] :
    h.objective t + p.stateCost p.x0.get = p.objective t := by
  have hp := (wellShaped_of_build hbuild).2
  obtain ⟨n, hn⟩ := exists_steps hbuild
  have hinterior : ∀ k ∈ range n, (h.stages[k + 1]?.elim 0 fun d =>
      d.cost (t.control (k + 1)) (t.state (k + 1))) =
      p.stepCost (t.control (k + 1)) (p.stateAt t (k + 1)) := by
    intro k hk
    have hk' := mem_range.1 hk
    rw [getElem?_interior hbuild (by omega), Option.elim_some, cost_interiorStage hp, stateAt_succ]
  have hfirst := cost_firstStage hp (t.control 0) (t.state 0)
  have hlast : (h.stages[n + 1]?.elim 0 fun d =>
      d.cost (t.control (n + 1)) (t.state (n + 1))) = p.finalCost (p.stateAt t (n + 1)) := by
    rw [← hn, getElem?_last hbuild, Option.elim_some, cost_lastStage hp, hn, stateAt_succ]
  -- the first and the last stage are taken off both sums
  rw [Horizon.objective, indexedSum, length_of_build hbuild, hn, sum_range_succ, hlast,
    sum_range_succ', sum_congr rfl hinterior, getElem?_first hbuild, Option.elim_some, objective,
    hn, sum_range_succ', stateAt_zero, ← hfirst]
  ring

end Built

/-- **A built horizon means what the problem says.** Its trajectories have the vectors of controls
and states that the problem asks for. Of these it accepts as feasible exactly those that the problem
admits, and its objective plus the cost of the known initial state is the objective of the
problem. -/
theorem build_preserves_meaning [LinearOrder K] [IsStrictOrderedRing K] [SquareRoot K]
    {p : ControlProblem K} {h : Horizon K} (hbuild : p.build? = .ok h) :
    (∀ t : Trajectory K, t.fits h.sizes = true ↔
      t.x.map Vec.size = 0 :: List.replicate p.steps p.plant.nx ∧
        t.u.map Vec.size = List.replicate p.steps p.plant.nu) ∧
    ∀ t : Trajectory K, t.fits h.sizes = true →
      (h.Feasible t ↔ p.Admits t) ∧ h.objective t + p.stateCost p.x0.get = p.objective t :=
  ⟨fits_of_build hbuild, fun t hfits => ⟨⟨admits_of_feasible hbuild t,
    fun hadmits => hadmits.feasible hbuild hfits⟩, objective_of_build hbuild t⟩⟩

/-- Two steps of a cart from `(1, 0)`, with position and speed as states: the force, the position
and their sum are bounded, and the last position is weighed on its own and bounded once more. -/
def cart : ControlProblem ℚ where
  plant :=
    { ts := 1
      A := Mat.ofFn 2 2 fun i j => if i ≤ j then 1 else 0
      B := Mat.ofFn 2 1 fun i _ => i
      b := Vec.zeros 2 }
  steps := 2
  x0 := Vec.ofList [1, 0]
  cost := ⟨Mat.identity 2 2, Mat.zeros 1 2, Mat.identity 1 1, Vec.zeros 2, Vec.zeros 1⟩
  terminalCost := some ⟨Mat.identity 2 2, Vec.ofList [1, 0]⟩
  bounds := BoxRows.symmetric 2 1 1 2
  general := ⟨Mat.identity 1 2, Mat.identity 1 1, Vec.ofList [-3], Vec.ofList [3]⟩
  terminal := ⟨Mat.identity 1 2, Vec.ofList [0], Vec.ofList [1]⟩

/-- The cart at rest. -/
def cart.rest : Trajectory ℚ :=
  ⟨[Vec.empty, Vec.ofList [1, 0], Vec.ofList [1, 0]], [Vec.zeros 1, Vec.zeros 1]⟩

/-- For instance the cart, which may stay where it is. -/
theorem build_preserves_meaning_cart : ∃ h : Horizon ℚ, cart.build? = .ok h ∧
    cart.rest.fits h.sizes = true ∧ h.Feasible cart.rest ∧
    h.objective cart.rest + cart.stateCost cart.x0.get = cart.objective cart.rest := by
  have hok : cart.build?.toOption.isSome = true := by decide +kernel
  have hrest : cart.Admits cart.rest := by decide +kernel
  cases hbuild : cart.build? with
  | error e =>
      rw [hbuild] at hok
      cases hok
  | ok h =>
      obtain ⟨hfits, hmeaning⟩ := build_preserves_meaning hbuild
      have hrestFits : cart.rest.fits h.sizes = true := (hfits cart.rest).2 (by decide +kernel)
      obtain ⟨hfeasible, hobjective⟩ := hmeaning cart.rest hrestFits
      exact ⟨h, rfl, hrestFits, hfeasible.2 hrest, hobjective⟩

end ControlProblem

end StagedQP
