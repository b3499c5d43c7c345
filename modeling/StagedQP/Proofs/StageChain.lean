import StagedQP.Solver.Step

/-!
# Chains of stages

The stage states of a workspace form a list in which every stage knows its own sizes and its
neighbours: the stage before through the multipliers that leave it, the stage after through its
states. This module says what it means for the buffers of such a list to have the sizes they were
allocated with, and what the parts of a step leave alone.

## Shapes

`StageState.Shaped n s` lists the sizes of the buffers of `s` that are read before they are written,
for a stage whose successor has `n` states; `Chained l` asks it of every stage of `l`. The sizes are
relative to `s.nx`, `s.nu` and the number of inequality rows `s.nc`, so nothing outside the list has
to be named.

## Frames

A step works in phases, and each phase keeps most of a stage as it is. The kept parts are collected
in two projections, `StageState.core` (sizes, data, point and residuals) and `StageState.factors`
(the matrix part of the recursion). "Phase `f` keeps the core" is the equation
`(f l).map core = l.map core`, so frames compose by transitivity and are read off at an index by
`exists_getElem?_of_map_eq`.
-/

namespace StagedQP

variable {α : Type}

/-! ## Reading a mapped list -/

/-- Lists with equal images have equal images at every index. -/
theorem exists_getElem?_of_map_eq {β γ : Type} {f : β → γ} {l l' : List β}
    (h : l'.map f = l.map f) {k : Nat} {s' : β} (hs : l'[k]? = some s') :
    ∃ s, l[k]? = some s ∧ f s' = f s := by
  have hk : (l'.map f)[k]? = (l.map f)[k]? := by rw [h]
  rw [List.getElem?_map, List.getElem?_map, hs, Option.map_some] at hk
  obtain ⟨s, hl, hf⟩ := Option.map_eq_some_iff.1 hk.symm
  exact ⟨s, hl, hf.symm⟩

/-- Elements at one index of lists with equal images have equal images. -/
theorem apply_eq_of_map_eq {β γ : Type} {f : β → γ} {l l' : List β} (h : l'.map f = l.map f)
    {k : Nat} {s s' : β} (hs : l[k]? = some s) (hs' : l'[k]? = some s') : f s' = f s := by
  obtain ⟨s₁, hs₁, heq⟩ := exists_getElem?_of_map_eq h hs'
  obtain rfl := Option.some.inj (hs.symm.trans hs₁)
  exact heq

theorem getElem?_eq_none_of_map_eq {β γ : Type} {f : β → γ} {l l' : List β}
    (h : l'.map f = l.map f) {k : Nat} (hs : l'[k]? = none) : l[k]? = none := by
  have hlen : l'.length = l.length := by
    simpa only [List.length_map] using congrArg List.length h
  rw [List.getElem?_eq_none_iff] at hs ⊢
  omega

/-- A property of the images holds throughout both lists or neither. -/
theorem forall_mem_of_map_eq {β γ : Type} {f : β → γ} {l l' : List β} {P : β → Prop}
    (h : l'.map f = l.map f) (hP : ∀ b b', f b' = f b → P b → P b') (hl : ∀ b ∈ l, P b) :
    ∀ b ∈ l', P b := by
  intro b' hb'
  obtain ⟨k, hk⟩ := List.getElem?_of_mem hb'
  obtain ⟨b, hb, heq⟩ := exists_getElem?_of_map_eq h hk
  exact hP b b' heq (hl b (List.mem_of_getElem? hb))

/-- An image of an image. -/
theorem map_map_eq {β γ δ : Type} {f : β → γ} {g : γ → δ} {l l' : List β}
    (h : l'.map f = l.map f) : l'.map (g ∘ f) = l.map (g ∘ f) := by
  rw [← List.map_map, h, List.map_map]

/-- What the images determine is equal throughout both lists. -/
theorem map_eq_of_map_eq {β γ δ : Type} {f : β → γ} {g : β → δ} {l l' : List β}
    (h : l'.map f = l.map f) (hg : ∀ b b', f b' = f b → g b' = g b) : l'.map g = l.map g := by
  induction l generalizing l' with
  | nil =>
      obtain rfl := List.map_eq_nil_iff.1 h
      rfl
  | cons b l ih =>
      cases l' with
      | nil => cases h
      | cons b' l' =>
          obtain ⟨hhead, htail⟩ := List.cons.inj h
          rw [List.map_cons, List.map_cons, hg b b' hhead, ih htail]

/-- A fold that reads the images alone is the same over both lists. -/
theorem foldl_eq_of_map_eq {β γ δ : Type} {f : β → γ} {g : δ → β → δ} {l l' : List β}
    (h : l'.map f = l.map f) (hg : ∀ d b b', f b' = f b → g d b' = g d b) (d : δ) :
    l'.foldl g d = l.foldl g d := by
  induction l generalizing l' d with
  | nil =>
      obtain rfl := List.map_eq_nil_iff.1 h
      rfl
  | cons b l ih =>
      cases l' with
      | nil => cases h
      | cons b' l' =>
          obtain ⟨hhead, htail⟩ := List.cons.inj h
          rw [List.foldl_cons, List.foldl_cons, hg d b b' hhead, ih htail]

/-! ## Shapes -/

/-- The buffers of `s` have the sizes they were allocated with; `n` is the number of states of the
stage after. -/
structure StageState.Shaped (n : Nat) (s : StageState α) : Prop where
  hess_rows : s.data.hess.rows = s.nu + s.nx
  hess_cols : s.data.hess.cols = s.nu + s.nx
  grad : s.data.grad.size = s.nu + s.nx
  jac_rows : s.data.jac.rows = s.nc
  jac_cols : s.data.jac.cols = s.nu + s.nx
  dyn_rows : s.data.dyn.rows = n
  dyn_cols : s.data.dyn.cols = s.nu + s.nx
  off : s.data.off.size = n
  bound_up : s.data.bound.up.size = s.nc
  v : s.point.v.size = s.nu + s.nx
  pi : s.point.pi.size = n
  t_lo : s.point.t.lo.size = s.nc
  t_up : s.point.t.up.size = s.nc
  lam_lo : s.point.lam.lo.size = s.nc
  lam_up : s.point.lam.up.size = s.nc
  stat : s.residual.stat.size = s.nu + s.nx
  dyn : s.residual.dyn.size = n
  ineq_lo : s.residual.ineq.lo.size = s.nc
  ineq_up : s.residual.ineq.up.size = s.nc
  cost_rows : s.riccati.cost.rows = s.nx
  cost_cols : s.riccati.cost.cols = s.nx
  gain_rows : s.riccati.gain.rows = s.nu
  gain_cols : s.riccati.gain.cols = s.nx
  factor : ∀ c, s.riccati.factor = some c → c.size = s.nu

/-- The right-hand side of the complementarity equations has an entry for each row. -/
structure StageState.CompShaped (s : StageState α) : Prop where
  lo : s.residual.comp.lo.size = s.nc
  up : s.residual.comp.up.size = s.nc

/-- Number of states of the stage after stage `k`, `0` after the last. -/
def nextNx (l : List (StageState α)) (k : Nat) : Nat := l[k + 1]?.elim 0 StageState.nx

/-- Every stage of the list has the sizes that its successor calls for. -/
def Chained (l : List (StageState α)) : Prop :=
  ∀ (k : Nat) (s : StageState α), l[k]? = some s → s.Shaped (nextNx l k)

theorem nextNx_of_map_eq {l l' : List (StageState α)}
    (h : l'.map StageState.nx = l.map StageState.nx) (k : Nat) : nextNx l' k = nextNx l k := by
  have hk : (l'.map StageState.nx)[k + 1]? = (l.map StageState.nx)[k + 1]? := by rw [h]
  rw [List.getElem?_map, List.getElem?_map] at hk
  have helim : ∀ o : Option (StageState α),
      o.elim 0 StageState.nx = (o.map StageState.nx).getD 0 := by
    intro o
    cases o <;> rfl
  rw [nextNx, nextNx, helim, helim, hk]

/-- Stages that keep their states and their shapes keep the shape of the chain. -/
theorem Chained.of_stages {l l' : List (StageState α)} (h : Chained l)
    (hnx : l'.map StageState.nx = l.map StageState.nx)
    (hs : ∀ (k : Nat) (s' : StageState α), l'[k]? = some s' →
      ∃ s, l[k]? = some s ∧ ∀ n, s.Shaped n → s'.Shaped n) :
    Chained l' := by
  intro k s' hk
  obtain ⟨s, hl, hshape⟩ := hs k s' hk
  rw [nextNx_of_map_eq hnx]
  exact hshape _ (h k s hl)

/-- A map that keeps the states and the shape of every stage keeps the shape of the chain. -/
theorem Chained.map {l : List (StageState α)} (h : Chained l) (f : StageState α → StageState α)
    (hnx : ∀ s, (f s).nx = s.nx) (hs : ∀ s n, s.Shaped n → (f s).Shaped n) :
    Chained (l.map f) := by
  refine h.of_stages ?_ ?_
  · rw [List.map_map]
    exact List.map_congr_left fun s _ => hnx s
  · intro k s' hk
    rw [List.getElem?_map] at hk
    obtain ⟨s, hl, rfl⟩ := Option.map_eq_some_iff.1 hk
    exact ⟨s, hl, hs s⟩

/-- A step keeps the sizes of the point. -/
theorem StageState.Shaped.move [Scalar α] {s : StageState α} {n : Nat} (h : s.Shaped n) (a : α) :
    (s.move a).Shaped n :=
  { h with
    v := (Vec.size_advance ..).trans h.v
    pi := (Vec.size_advance ..).trans h.pi
    t_lo := (Vec.size_advance ..).trans h.t_lo
    t_up := (Vec.size_advance ..).trans h.t_up
    lam_lo := (Vec.size_advance ..).trans h.lam_lo
    lam_up := (Vec.size_advance ..).trans h.lam_up }

/-- Condensing keeps all sizes. -/
theorem StageState.Shaped.condenseHessian [Scalar α] {s : StageState α} {n : Nat}
    (h : s.Shaped n) : s.condenseHessian.Shaped n := { h with }

/-! ## Frames -/

/-- Sizes, data, point and residuals of a stage: what stays fixed while a direction is sought. -/
structure StageCore (α : Type) where
  /-- Number of states. -/
  nx : Nat
  /-- Number of controls. -/
  nu : Nat
  /-- The packed data. -/
  data : PackedStage α
  /-- The current point. -/
  point : StagePoint α
  /-- The stationarity residual. -/
  stat : Vec α
  /-- The dynamics residual. -/
  dyn : Vec α
  /-- The inequality residuals. -/
  ineq : Sides (Vec α)

/-- The core of a stage. -/
def StageState.core (s : StageState α) : StageCore α :=
  ⟨s.nx, s.nu, s.data, s.point, s.residual.stat, s.residual.dyn, s.residual.ineq⟩

/-- The matrix part of the recursion at a stage, with the condensed Hessian it was made from. -/
structure StageFactors (α : Type) where
  /-- The condensed Hessian. -/
  hess : Mat α
  /-- The Hessian with the cost-to-go of the next stage. -/
  total : Mat α
  /-- The Hessian of the cost-to-go. -/
  cost : Mat α
  /-- The feedback gain. -/
  gain : Mat α
  /-- The factor of the control block. -/
  factor : Option (Cholesky α)

/-- The factors of a stage. -/
def StageState.factors (s : StageState α) : StageFactors α :=
  ⟨s.condensed.hess, s.riccati.total, s.riccati.cost, s.riccati.gain, s.riccati.factor⟩

/-- Core and factors of a stage. -/
def StageState.ground (s : StageState α) : StageCore α × StageFactors α := (s.core, s.factors)

/-- A shape is a fact about core and factors. -/
theorem StageState.Shaped.of_ground {s s' : StageState α} {n : Nat}
    (h : s'.ground = s.ground) (hs : s.Shaped n) : s'.Shaped n := by
  cases s
  cases s'
  simp only [StageState.ground, StageState.core, StageState.factors, Prod.mk.injEq,
    StageCore.mk.injEq, StageFactors.mk.injEq] at h
  obtain ⟨⟨rfl, rfl, rfl, rfl, hstat, hdyn, hineq⟩, _, _, hcost, hgain, hfactor⟩ := h
  refine { hs with stat := ?_, dyn := ?_, ineq_lo := ?_, ineq_up := ?_, cost_rows := ?_,
                   cost_cols := ?_, gain_rows := ?_, gain_cols := ?_, factor := ?_ }
  · exact hstat ▸ hs.stat
  · exact hdyn ▸ hs.dyn
  · exact hineq ▸ hs.ineq_lo
  · exact hineq ▸ hs.ineq_up
  · exact hcost ▸ hs.cost_rows
  · exact hcost ▸ hs.cost_cols
  · exact hgain ▸ hs.gain_rows
  · exact hgain ▸ hs.gain_cols
  · exact hfactor ▸ hs.factor

theorem map_nx_of_core {l l' : List (StageState α)}
    (h : l'.map StageState.core = l.map StageState.core) :
    l'.map StageState.nx = l.map StageState.nx := map_map_eq (g := StageCore.nx) h

theorem map_core_of_ground {l l' : List (StageState α)}
    (h : l'.map StageState.ground = l.map StageState.ground) :
    l'.map StageState.core = l.map StageState.core := map_map_eq (g := Prod.fst) h

theorem map_ground_of_core {l l' : List (StageState α)}
    (hc : l'.map StageState.core = l.map StageState.core)
    (hf : l'.map StageState.factors = l.map StageState.factors) :
    l'.map StageState.ground = l.map StageState.ground := by
  have hzip : ∀ l : List (StageState α),
      l.map StageState.ground = (l.map StageState.core).zip (l.map StageState.factors) :=
    fun l => (List.zip_map' ..).symm
  rw [hzip, hzip, hc, hf]

/-- A phase that keeps core and factors keeps the shape of the chain. -/
theorem Chained.of_ground {l l' : List (StageState α)} (h : Chained l)
    (hg : l'.map StageState.ground = l.map StageState.ground) : Chained l' := by
  refine h.of_stages (map_nx_of_core (map_core_of_ground hg)) ?_
  intro k s' hk
  obtain ⟨s, hl, heq⟩ := exists_getElem?_of_map_eq hg hk
  exact ⟨s, hl, fun n hs => hs.of_ground heq⟩

/-! ## The ends of a chain -/

/-- A chain with the ends of a horizon: no states at the first stage, no controls at the last. -/
structure HorizonShaped (l : List (StageState α)) : Prop where
  /-- Every stage fits its successor. -/
  chained : Chained l
  /-- The initial state is not a variable. -/
  first : ∀ s, l[0]? = some s → s.nx = 0
  /-- The last stage has no controls. -/
  last : ∀ (k : Nat) (s : StageState α), l[k]? = some s → l[k + 1]? = none → s.nu = 0

/-- The ends depend on the sizes alone. -/
theorem HorizonShaped.of_core {l l' : List (StageState α)} (h : HorizonShaped l)
    (hc : l'.map StageState.core = l.map StageState.core) (hl : Chained l') : HorizonShaped l' := by
  refine ⟨hl, ?_, ?_⟩
  · intro s' hs'
    obtain ⟨s, hs, hcore⟩ := exists_getElem?_of_map_eq hc hs'
    rw [show s'.nx = s.nx from congrArg StageCore.nx hcore]
    exact h.first s hs
  · intro k s' hs' hnone
    obtain ⟨s, hs, hcore⟩ := exists_getElem?_of_map_eq hc hs'
    rw [show s'.nu = s.nu from congrArg StageCore.nu hcore]
    exact h.last k s hs (getElem?_eq_none_of_map_eq hc hnone)

theorem HorizonShaped.of_ground {l l' : List (StageState α)} (h : HorizonShaped l)
    (hg : l'.map StageState.ground = l.map StageState.ground) : HorizonShaped l' :=
  h.of_core (map_core_of_ground hg) (h.chained.of_ground hg)

end StagedQP
