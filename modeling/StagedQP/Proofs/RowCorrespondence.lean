import Mathlib.Logic.Equiv.Basic
import StagedQP.Proofs.PackedProblem

/-!
# Rows written differently

The same bounds on a stage vector can be written in several ways: the rows may stand in another
order, a bound on one entry may be a box row or a general row with a unit vector for coefficients,
and `lg ≤ D u + C x ≤ ug` may be written as `-ug ≤ -D u - C x ≤ -lg`. Counted in the packed order,
box rows before general rows, all of these come to one thing: row `i` of the one stage is row
`m.dest i` of the other, turned around or not.

```text
            coefficients   lower bound   upper bound
straight         a             lo            up
turned          -a            -up           -lo
```

A `RowMap` says where each row went and whether it was turned. What a solve keeps for the two sides
of a row then goes along with the row (`RowMap.Carries`), and a sum over all rows does not notice.

## Main results

* `Stage.Restates`, `Horizon.Restates` — the same problem with its rows written differently.
* `Stage.restates_reorder`, `Stage.restates_unbox`, `Stage.restates_negate` — the ways to rewrite
  rows, and `Stage.Restates.symm`, `Stage.Restates.trans` to combine them.
* `RowMap.sum_carried` — sums over rows.
-/

namespace StagedQP

open Finset

/-! ## Turning rows around -/

/-- The factor of the coefficients of a row that may be turned. -/
def turnSign {K : Type} [Field K] (turned : Bool) : K := if turned then -1 else 1

namespace Sides

section Turn

variable {β γ δ : Type}

/-- The two sides exchanged, if the row is turned. -/
def turn (turned : Bool) (s : Sides β) : Sides β := if turned then ⟨s.up, s.lo⟩ else s

theorem turn_map (turned : Bool) (f : β → γ) (s : Sides β) :
    (s.map f).turn turned = (s.turn turned).map f := by
  cases turned <;> rfl

theorem turn_zipWith (turned : Bool) (f : β → γ → δ) (s : Sides β) (t : Sides γ) :
    (s.zipWith f t).turn turned = (s.turn turned).zipWith f (t.turn turned) := by
  cases turned <;> rfl

/-- What is asked of both sides is asked of them in any order. -/
theorem forall_turn {P : β → Prop} (turned : Bool) (s : Sides β) :
    (P (s.turn turned).lo ∧ P (s.turn turned).up) ↔ P s.lo ∧ P s.up := by
  cases turned
  · exact Iff.rfl
  · exact and_comm

end Turn

variable {K : Type} [Field K]

/-- The sides of row `i`. -/
def row (s : Sides (Vec K)) (i : Nat) : Sides K := s.map fun v => v.get i

/-- The bounds of a row that may be turned. -/
def mirror (turned : Bool) (b : Sides K) : Sides K := if turned then ⟨-b.up, -b.lo⟩ else b

theorem mirror_mirror (turned turned' : Bool) (b : Sides K) :
    (b.mirror turned).mirror turned' = b.mirror (xor turned turned') := by
  cases turned <;> cases turned' <;> simp [mirror]

/-- How far a value is inside its bounds. -/
def room (b : Sides K) (c : K) : Sides K := ⟨c - b.lo, b.up - c⟩

theorem room_mirror (turned : Bool) (b : Sides K) (c : K) :
    (b.mirror turned).room (turnSign turned * c) = (b.room c).turn turned := by
  cases turned
  · simp [mirror, room, turn, turnSign]
  · simp [mirror, room, turn, turnSign, neg_add_eq_sub]

/-- A value for the lower side and its negation for the upper. -/
def opposed (c : K) : Sides K := ⟨c, -c⟩

theorem opposed_turn (turned : Bool) (c : K) :
    opposed (turnSign turned * c) = (opposed c).turn turned := by
  cases turned <;> simp [opposed, turn, turnSign]

/-- Both sides added up. -/
def total (s : Sides K) : K := s.lo + s.up

theorem total_turn (turned : Bool) (s : Sides K) : (s.turn turned).total = s.total := by
  cases turned
  · rfl
  · exact add_comm ..

/-- The lower side less the upper. -/
def difference (s : Sides K) : K := s.lo - s.up

theorem difference_turn (turned : Bool) (s : Sides K) :
    (s.turn turned).difference = turnSign turned * s.difference := by
  cases turned <;> simp [turn, difference, turnSign]

end Sides

/-- Where the rows of a stage went, and which of them were turned around. -/
structure RowMap where
  /-- The new number of each row. -/
  dest : Equiv.Perm Nat
  /-- The row was turned around. -/
  turned : Nat → Bool

namespace RowMap

/-- Every row where it was. -/
protected def refl : RowMap := ⟨Equiv.refl Nat, fun _ => false⟩

/-- The rows back where they came from. -/
protected def symm (m : RowMap) : RowMap := ⟨m.dest.symm, fun i => m.turned (m.dest.symm i)⟩

/-- The rows moved twice. -/
protected def trans (m m' : RowMap) : RowMap :=
  ⟨m.dest.trans m'.dest, fun i => xor (m.turned i) (m'.turned (m.dest i))⟩

/-- The first `n` rows are moved among themselves. -/
def Onto (m : RowMap) (n : Nat) : Prop := ∀ i, m.dest i < n ↔ i < n

theorem Onto.symm {m : RowMap} {n : Nat} (h : m.Onto n) : m.symm.Onto n := by
  intro i
  have hi := h (m.dest.symm i)
  rw [Equiv.apply_symm_apply] at hi
  exact hi.symm

theorem Onto.trans {m m' : RowMap} {n : Nat} (h : m.Onto n) (h' : m'.Onto n) :
    (m.trans m').Onto n := fun i => (h' (m.dest i)).trans (h i)

variable {K : Type} [Field K]

/-- The factor of the coefficients of a row. -/
def sign (m : RowMap) (i : Nat) : K := turnSign (m.turned i)

theorem sign_mul_self (m : RowMap) (i : Nat) : m.sign i * m.sign i = (1 : K) := by
  unfold sign turnSign
  split <;> ring

theorem sign_trans (m m' : RowMap) (i : Nat) :
    (m.trans m').sign i = (m'.sign (m.dest i) * m.sign i : K) := by
  show turnSign (xor (m.turned i) (m'.turned (m.dest i))) = _
  unfold sign
  cases m.turned i <;> cases m'.turned (m.dest i) <;> simp [turnSign]

/-- The sides `b` hold at the new number of a row what `a` holds at its old one, exchanged if the
row was turned. -/
def Carries (m : RowMap) (n : Nat) (a b : Sides (Vec K)) : Prop :=
  ∀ i < n, b.row (m.dest i) = (a.row i).turn (m.turned i)

/-- A sum over all rows may be taken in the new order. -/
theorem sum_carried {m : RowMap} {n : Nat} (h : m.Onto n) (f : Nat → K) :
    ∑ i ∈ range n, f i = ∑ i ∈ range n, f (m.dest i) := by
  refine (sum_equiv m.dest (fun i => ?_) fun i _ => rfl).symm
  rw [mem_range, mem_range, h i]

/-- What holds at the new number of every row holds at every row. -/
theorem forall_carried {m : RowMap} {n : Nat} (h : m.Onto n) {P : Nat → Prop} :
    (∀ i < n, P (m.dest i)) ↔ ∀ i < n, P i := by
  constructor
  · intro hP i hi
    rw [← m.dest.apply_symm_apply i]
    exact hP _ ((h.symm i).2 hi)
  · exact fun hP i hi => hP _ ((h i).2 hi)

end RowMap

/-! ## Stages with the same rows -/

variable {K : Type} [Field K]

namespace Stage

/-- The rows of `d'` are those of `d`, moved and turned as `m` says. -/
structure SameRows (m : RowMap) (d d' : Stage K) : Prop where
  /-- There are equally many. -/
  count : d'.sizes.nc = d.sizes.nc
  /-- They are moved among themselves. -/
  onto : m.Onto d.sizes.nc
  /-- The coefficients. -/
  entry : ∀ i < d.sizes.nc, ∀ j < d.sizes.nv,
    d'.rowEntry (m.dest i) j = m.sign i * d.rowEntry i j
  /-- The bounds. -/
  bounds : ∀ i < d.sizes.nc, d'.rowBounds (m.dest i) = (d.rowBounds i).mirror (m.turned i)

/-- Cost and dynamics are the same. -/
structure SameModel (d d' : Stage K) : Prop where
  A : d'.A = d.A
  B : d'.B = d.B
  b : d'.b = d.b
  Q : d'.Q = d.Q
  S : d'.S = d.S
  R : d'.R = d.R
  q : d'.q = d.q
  r : d'.r = d.r

/-- The same cost, the same dynamics and the same inequality rows, written differently. -/
structure Restates (d d' : Stage K) : Prop where
  /-- Cost and dynamics. -/
  model : d.SameModel d'
  /-- The rows. -/
  rows : ∃ m, d.SameRows m d'

variable {d d' d'' : Stage K}

omit [Field K] in
theorem SameModel.sizes (h : d.SameModel d') :
    d'.sizes.nx = d.sizes.nx ∧ d'.sizes.nu = d.sizes.nu :=
  ⟨congrArg Mat.rows h.Q, congrArg Mat.rows h.R⟩

omit [Field K] in
theorem SameModel.symm (h : d.SameModel d') : d'.SameModel d :=
  ⟨h.A.symm, h.B.symm, h.b.symm, h.Q.symm, h.S.symm, h.R.symm, h.q.symm, h.r.symm⟩

omit [Field K] in
theorem SameModel.trans (h : d.SameModel d') (h' : d'.SameModel d'') : d.SameModel d'' :=
  ⟨h'.A.trans h.A, h'.B.trans h.B, h'.b.trans h.b, h'.Q.trans h.Q, h'.S.trans h.S, h'.R.trans h.R,
    h'.q.trans h.q, h'.r.trans h.r⟩

omit [Field K] in
theorem SameModel.nv (h : d.SameModel d') : d'.sizes.nv = d.sizes.nv := by
  rw [StageSizes.nv, StageSizes.nv, h.sizes.1, h.sizes.2]

/-- A stage restates itself. -/
theorem Restates.refl (d : Stage K) : d.Restates d where
  model := ⟨rfl, rfl, rfl, rfl, rfl, rfl, rfl, rfl⟩
  rows := ⟨.refl, rfl, fun _ => Iff.rfl, fun _ _ _ _ => (one_mul _).symm, fun _ _ => rfl⟩

/-- What was rewritten can be written back. -/
theorem Restates.symm (h : d.Restates d') : d'.Restates d := by
  obtain ⟨hmodel, m, hrows⟩ := h
  refine ⟨hmodel.symm, m.symm, hrows.count.symm, hrows.count ▸ hrows.onto.symm, ?_, ?_⟩
  · intro i hi j hj
    rw [hrows.count] at hi
    rw [hmodel.nv] at hj
    have hentry := hrows.entry _ ((hrows.onto.symm i).2 hi) j hj
    rw [show m.dest (m.symm.dest i) = i from m.dest.apply_symm_apply i] at hentry
    rw [hentry, show m.symm.sign i = m.sign (m.symm.dest i) from rfl, ← mul_assoc, m.sign_mul_self,
      one_mul]
  · intro i hi
    rw [hrows.count] at hi
    have hbounds := hrows.bounds _ ((hrows.onto.symm i).2 hi)
    rw [show m.dest (m.symm.dest i) = i from m.dest.apply_symm_apply i] at hbounds
    rw [hbounds, show m.symm.turned i = m.turned (m.symm.dest i) from rfl, Sides.mirror_mirror,
      Bool.xor_self]
    rfl

/-- What was rewritten can be rewritten again. -/
theorem Restates.trans (h : d.Restates d') (h' : d'.Restates d'') : d.Restates d'' := by
  obtain ⟨hmodel, m, hrows⟩ := h
  obtain ⟨hmodel', m', hrows'⟩ := h'
  refine ⟨hmodel.trans hmodel', m.trans m', hrows'.count.trans hrows.count,
    hrows.onto.trans (hrows.count ▸ hrows'.onto), ?_, ?_⟩
  · intro i hi j hj
    have hi' : m.dest i < d'.sizes.nc := by rwa [hrows.count, hrows.onto i]
    rw [show (m.trans m').dest i = m'.dest (m.dest i) from rfl,
      hrows'.entry _ hi' j (hmodel.nv ▸ hj), hrows.entry i hi j hj, RowMap.sign_trans, mul_assoc]
  · intro i hi
    have hi' : m.dest i < d'.sizes.nc := by rwa [hrows.count, hrows.onto i]
    rw [show (m.trans m').dest i = m'.dest (m.dest i) from rfl, hrows'.bounds _ hi',
      hrows.bounds i hi, Sides.mirror_mirror]
    rfl

/-! ## Ways to rewrite rows -/

/-- The stage with box rows at the given positions and `ng` general rows; the coefficients of the
latter and the bounds of all rows are given by their packed numbers. -/
def withRows (d : Stage K) (positions : List Nat) (ng : Nat) (entry : Nat → Nat → K)
    (bounds : Nat → Sides K) : Stage K :=
  { d with
    idxb := positions
    lb := Vec.ofFn positions.length fun i => (bounds i).lo
    ub := Vec.ofFn positions.length fun i => (bounds i).up
    C := Mat.ofFn ng d.sizes.nx fun i j => entry (positions.length + i) (d.sizes.nu + j)
    D := Mat.ofFn ng d.sizes.nu fun i j => entry (positions.length + i) j
    lg := Vec.ofFn ng fun i => (bounds (positions.length + i)).lo
    ug := Vec.ofFn ng fun i => (bounds (positions.length + i)).up }

section WithRows

variable (d) (positions : List Nat) (ng : Nat) (entry : Nat → Nat → K) (bounds : Nat → Sides K)

theorem rowEntry_withRows {i j : Nat} (hi : i < positions.length + ng) (hj : j < d.sizes.nv) :
    (d.withRows positions ng entry bounds).rowEntry i j =
      if i < positions.length then if positions[i]? = some j then 1 else 0 else entry i j := by
  have hnv : d.sizes.nv = d.sizes.nu + d.sizes.nx := rfl
  rw [rowEntry, show (d.withRows positions ng entry bounds).sizes.nb = positions.length from rfl]
  split
  · rfl
  · have hrow : positions.length + (i - positions.length) = i := by omega
    split
    · exact (Mat.get_ofFn_of_lt _ (by omega) ‹_›).trans (by rw [hrow])
    · have hu : ¬ j < d.sizes.nu := ‹_›
      refine (Mat.get_ofFn_of_lt _ (by omega) (show j - d.sizes.nu < d.sizes.nx by omega)).trans ?_
      rw [hrow, Nat.add_sub_cancel' (by omega)]

theorem rowBounds_withRows {i : Nat} (hi : i < positions.length + ng) :
    (d.withRows positions ng entry bounds).rowBounds i = bounds i := by
  rw [rowBounds, show (d.withRows positions ng entry bounds).sizes.nb = positions.length from rfl]
  split
  · exact congrArg₂ Sides.mk (Vec.get_ofFn_of_lt _ ‹_›) (Vec.get_ofFn_of_lt _ ‹_›)
  · have hrow : positions.length + (i - positions.length) = i := by omega
    refine (congrArg₂ Sides.mk (Vec.get_ofFn_of_lt _ ?_) (Vec.get_ofFn_of_lt _ ?_)).trans ?_
    · omega
    · omega
    · rw [hrow]

/-- Rows given by coefficients and bounds restate those of the stage if they can be matched. -/
theorem restates_withRows (m : RowMap) (hcount : positions.length + ng = d.sizes.nc)
    (honto : m.Onto d.sizes.nc)
    (hbox : ∀ i < d.sizes.nc, m.dest i < positions.length → ∀ j < d.sizes.nv,
      (if positions[m.dest i]? = some j then 1 else 0) = m.sign i * d.rowEntry i j)
    (hgeneral : ∀ i < d.sizes.nc, ¬ m.dest i < positions.length → ∀ j < d.sizes.nv,
      entry (m.dest i) j = m.sign i * d.rowEntry i j)
    (hbounds : ∀ i < d.sizes.nc, bounds (m.dest i) = (d.rowBounds i).mirror (m.turned i)) :
    d.Restates (d.withRows positions ng entry bounds) := by
  have hnew : ∀ i < d.sizes.nc, m.dest i < positions.length + ng := by
    intro i hi
    rwa [hcount, honto i]
  refine ⟨⟨rfl, rfl, rfl, rfl, rfl, rfl, rfl, rfl⟩, m, hcount, honto, ?_, ?_⟩
  · intro i hi j hj
    rw [rowEntry_withRows d positions ng entry bounds (hnew i hi) hj]
    split
    · exact hbox i hi ‹_› j hj
    · exact hgeneral i hi ‹_› j hj
  · intro i hi
    rw [rowBounds_withRows d positions ng entry bounds (hnew i hi), hbounds i hi]

end WithRows

/-- The stage with its rows in another order: new row `i` is old row `p i`. -/
def reorder (d : Stage K) (p : Equiv.Perm Nat) : Stage K :=
  d.withRows ((List.range d.sizes.nb).map fun i => d.idxb.getD (p i) 0) d.sizes.ng
    (fun i j => d.rowEntry (p i) j) fun i => d.rowBounds (p i)

/-- Box rows and general rows may stand in any order. -/
theorem restates_reorder (d : Stage K) (p : Equiv.Perm Nat)
    (hbox : ∀ i, p i < d.sizes.nb ↔ i < d.sizes.nb)
    (hrows : ∀ i, p i < d.sizes.nc ↔ i < d.sizes.nc) : d.Restates (d.reorder p) := by
  have hlen : ((List.range d.sizes.nb).map fun i => d.idxb.getD (p i) 0).length = d.sizes.nb := by
    rw [List.length_map, List.length_range]
  refine restates_withRows d _ _ _ _ ⟨p.symm, fun _ => false⟩ ?_ ?_ ?_ ?_ ?_
  · rw [hlen]
    rfl
  · exact RowMap.Onto.symm (m := ⟨p, fun _ => false⟩) hrows
  · intro i _ hi j _
    rw [hlen] at hi
    have hold : i < d.sizes.nb := by
      have hp := (hbox (p.symm i)).2 hi
      rwa [Equiv.apply_symm_apply] at hp
    rw [List.getElem?_map, List.getElem?_range hi, Option.map_some, Equiv.apply_symm_apply,
      List.getD_eq_getElem?_getD, rowEntry, if_pos hold, List.getElem?_eq_getElem hold]
    exact (one_mul _).symm
  · intro i _ _ j _
    rw [Equiv.apply_symm_apply]
    exact (one_mul _).symm
  · intro i _
    rw [Equiv.apply_symm_apply]
    rfl

/-- The stage with all box rows from the `n`-th on written as general rows, before those there
are. -/
def unbox (d : Stage K) (n : Nat) : Stage K :=
  d.withRows (d.idxb.take n) (d.sizes.nb - n + d.sizes.ng) d.rowEntry d.rowBounds

/-- Box rows may be written as general rows, without even changing the packed order. -/
theorem restates_unbox (d : Stage K) {n : Nat} (hn : n ≤ d.sizes.nb) :
    d.Restates (d.unbox n) := by
  have hlen : (d.idxb.take n).length = n := by
    rw [List.length_take]
    exact Nat.min_eq_left hn
  have hnc : d.sizes.nc = d.sizes.nb + d.sizes.ng := rfl
  refine restates_withRows d _ _ _ _ .refl ?_ (fun _ => Iff.rfl) ?_ ?_ fun i _ => rfl
  · omega
  · intro i _ hi j _
    have hi' : i < n := hlen ▸ hi
    have hold : d.rowEntry i j = if d.idxb[i]? = some j then 1 else 0 :=
      if_pos (Nat.lt_of_lt_of_le hi' hn)
    rw [hold, show RowMap.refl.dest i = i from rfl, List.getElem?_take, if_pos hi']
    exact (one_mul _).symm
  · intro i _ _ j _
    exact (one_mul _).symm

/-- The stage with the general rows that `turned` picks, by their packed numbers, negated. -/
def negate (d : Stage K) (turned : Nat → Bool) : Stage K :=
  d.withRows d.idxb d.sizes.ng (fun i j => if turned i then -d.rowEntry i j else d.rowEntry i j)
    fun i => (d.rowBounds i).mirror (turned i)

/-- General rows may be negated, with their bounds exchanged. -/
theorem restates_negate (d : Stage K) {turned : Nat → Bool}
    (hbox : ∀ i < d.sizes.nb, turned i = false) : d.Restates (d.negate turned) := by
  refine restates_withRows d _ _ _ _ ⟨Equiv.refl Nat, turned⟩ rfl (fun _ => Iff.rfl) ?_ ?_
    fun i _ => rfl
  · intro i _ hi j _
    have hi' : i < d.sizes.nb := hi
    have hold : d.rowEntry i j = if d.idxb[i]? = some j then 1 else 0 := if_pos hi'
    have hsign : RowMap.sign ⟨Equiv.refl Nat, turned⟩ i = (1 : K) := by
      simp [RowMap.sign, turnSign, hbox i hi']
    rw [hold, hsign, one_mul]
    rfl
  · intro i _ _ j _
    show (if turned i then -d.rowEntry i j else d.rowEntry i j) =
      (if turned i then (-1 : K) else 1) * d.rowEntry i j
    split
    · rw [neg_one_mul]
    · rw [one_mul]

end Stage

/-- The same stages, each with its inequality rows written differently. -/
def Horizon.Restates [LinearOrder K] [SquareRoot K] (h h' : Horizon K) : Prop :=
  List.Forall₂ Stage.Restates h.stages h'.stages

end StagedQP
