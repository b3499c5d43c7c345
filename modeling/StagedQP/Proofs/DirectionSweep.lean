import StagedQP.Proofs.RiccatiSweep

/-!
# The vector sweeps and the direction they make

The vector part of the recursion goes along the chain twice: backward for the gradients of the
cost-to-go, forward for the directions. As for the matrix part, each sweep is described by local
equations. What is left at the end is a list of stages about which `Directed` says everything that a
single stage and its neighbours know about each other.

Nothing here uses a law of arithmetic.

## Main results

* `Riccati.gradients_pulled`, `Riccati.rollout_rolledOut` — the local equations of the two sweeps.
* `directed_newtonDirection` — the local equations of a Newton direction.
* `newtonDirection_aimed` — a direction changes neither the point, nor the factorization, nor the
  right-hand side it was made for.
* `Riccati.solve_frame`, `newtonDirection_sought` — what the sweeps and a direction leave alone, for
  any ends of the chain.
-/

namespace StagedQP

variable {α : Type} [Scalar α]

/-! ## What the vector part leaves alone -/

/-- Everything a direction is made from: core and factors, the right-hand side of the
complementarity equations, and the condensed system. -/
def StageState.given (s : StageState α) :
    (StageCore α × StageFactors α) × Sides (Vec α) × Condensed α :=
  (s.ground, s.residual.comp, s.condensed)

/-- The projection `f` of a stage reads neither the vectors of the recursion, nor the direction, nor
intermediate results. -/
def Undisturbed {β : Type} (f : StageState α → β) : Prop :=
  ∀ (s : StageState α) (total feed cost : Vec α) (d : StageDirection α) (x : Scratch α),
    f { s with
      riccati := { s.riccati with totalVec := total, feed := feed, costVec := cost }
      direction := d
      scratch := x } = f s

/-! ## Backward over the gradients -/

/-- The backward sweep over the vectors has passed the stage; `next` is the recursion at the stage
after. -/
structure StageState.Pulled (next : RiccatiData α) (s : StageState α) : Prop where
  /-- The total gradient. -/
  total : s.riccati.totalVec = Mat.addTrMulVec s.condensed.grad s.data.dyn
    (Mat.addMulVec next.costVec next.cost s.residual.dyn)
  /-- The feedforward control. -/
  feed : s.riccati.feed = (solveVecWith s.riccati.factor (s.riccati.totalVec.slice 0 s.nu)).neg
  /-- The gradient of the cost-to-go. -/
  cost : s.riccati.costVec = Mat.addTrMulVec (s.riccati.totalVec.slice s.nu s.nx) s.crossBlock
    s.riccati.feed

/-- The gradients of the cost-to-go along a chain. -/
structure GradientsPulled (l : List (StageState α)) : Prop where
  /-- A stage with a successor. -/
  inner : ∀ (k : Nat) (s next : StageState α), l[k]? = some s → l[k + 1]? = some next →
    s.Pulled next.riccati
  /-- The last stage. -/
  last : ∀ (k : Nat) (s : StageState α), l[k]? = some s → l[k + 1]? = none →
    s.riccati.costVec = s.condensed.grad.slice s.nu s.nx

namespace Riccati

theorem pulled_pullGradient (next : RiccatiData α) (s : StageState α) :
    (s.pullGradient next).Pulled next := ⟨rfl, rfl, rfl⟩

/-- The backward sweep writes vectors of the recursion and intermediate results alone. -/
theorem gradients_frame {β : Type} {f : StageState α → β} (hf : Undisturbed f)
    (l : List (StageState α)) : (gradients l).map f = l.map f := by
  induction l with
  | nil => rfl
  | cons s rest ih =>
      cases rest with
      | nil => exact congrArg (fun b => [b]) (hf s _ s.riccati.feed _ s.direction s.scratch)
      | cons next rest =>
          rw [gradients]
          cases hg : gradients (next :: rest) with
          | nil =>
              rw [hg] at ih
              cases ih
          | cons done after =>
              rw [hg] at ih
              rw [List.map_cons, ih]
              exact congrArg (fun b => b :: (next :: rest).map f) (hf s _ _ _ s.direction _)

theorem gradients_given (l : List (StageState α)) :
    (gradients l).map StageState.given = l.map StageState.given :=
  gradients_frame (fun _ _ _ _ _ _ => rfl) l

/-- The local equations of the backward sweep. -/
theorem gradients_pulled (l : List (StageState α)) : GradientsPulled (gradients l) := by
  induction l with
  | nil => exact ⟨fun k s next hs => (nomatch hs), fun k s hs => (nomatch hs)⟩
  | cons s₀ rest ih =>
      cases rest with
      | nil =>
          constructor
          · intro k s next _ hnext
            cases hnext
          · intro k s hs _
            cases k with
            | zero =>
                obtain rfl := Option.some.inj hs
                rfl
            | succ k => cases hs
      | cons next₀ rest =>
          rw [gradients]
          cases hg : gradients (next₀ :: rest) with
          | nil => exact ⟨fun k s next hs => (nomatch hs), fun k s hs => (nomatch hs)⟩
          | cons done after =>
              rw [hg] at ih
              constructor
              · intro k s next hs hnext
                cases k with
                | zero =>
                    obtain rfl := Option.some.inj hs
                    obtain rfl := Option.some.inj hnext
                    exact pulled_pullGradient _ s₀
                | succ k => exact ih.inner k s next hs hnext
              · intro k s hs hnext
                cases k with
                | zero => cases hnext
                | succ k => exact ih.last k s hs hnext

end Riccati

/-! ## Forward over the directions -/

/-- The direction of the next stage's states that belongs to the direction of the stage vector. -/
def StageState.leaving (s : StageState α) : Vec α :=
  Mat.addMulVec s.residual.dyn s.data.dyn s.direction.dv

/-- The direction of the states of stage `k`, where `dx` is that of the first stage. -/
def entering (dx : Vec α) (l : List (StageState α)) : Nat → Vec α
  | 0 => dx
  | k + 1 => l[k]?.elim Vec.empty StageState.leaving

theorem entering_succ (dx : Vec α) {l : List (StageState α)} {k : Nat} {s : StageState α}
    (h : l[k]? = some s) : entering dx l (k + 1) = s.leaving := by
  rw [entering, h]
  rfl

theorem entering_cons (dx : Vec α) (s : StageState α) (l : List (StageState α)) (k : Nat) :
    entering dx (s :: l) (k + 1) = entering s.leaving l k := by
  cases k with
  | zero => rfl
  | succ k => rfl

/-- The directions along a chain, where `dx` is the direction of the first stage's states. -/
structure RolledOut (dx : Vec α) (l : List (StageState α)) : Prop where
  /-- A stage with a successor follows its feedback law, and its multipliers are the gradient of the
  cost-to-go of the stage after. -/
  inner : ∀ (k : Nat) (s next : StageState α), l[k]? = some s → l[k + 1]? = some next →
    s.direction.dv = (s.feedback (entering dx l k)).append (entering dx l k) ∧
      s.direction.dpi = Mat.addMulVec next.riccati.costVec next.riccati.cost s.leaving
  /-- The last stage has no controls to choose. -/
  last : ∀ (k : Nat) (s : StageState α), l[k]? = some s → l[k + 1]? = none →
    ∃ dv, s.direction.dv = Vec.withTail dv s.nu (entering dx l k)

namespace Riccati

theorem rollout_cons_cons (dx : Vec α) (s next : StageState α) (rest : List (StageState α)) :
    ∃ s', s'.given = s.given ∧ s'.riccati = s.riccati ∧
      s'.direction.dv = (s'.feedback dx).append dx ∧
      s'.direction.dpi = Mat.addMulVec next.riccati.costVec next.riccati.cost s'.leaving ∧
      rollout dx (s :: next :: rest) = s' :: rollout s'.leaving (next :: rest) :=
  ⟨{ s with
      scratch.nv := (s.feedback dx).append (s.scratch.nv.slice s.nu s.nx)
      direction.dv := (s.feedback dx).append dx
      direction.dpi := Mat.addMulVec next.riccati.costVec next.riccati.cost
        (Mat.addMulVec s.residual.dyn s.data.dyn ((s.feedback dx).append dx)) },
    rfl, rfl, rfl, rfl, rfl⟩

/-- What the forward sweep leaves alone: all but the direction. -/
def undirected (s : StageState α) :
    ((StageCore α × StageFactors α) × Sides (Vec α) × Condensed α) × RiccatiData α :=
  (s.given, s.riccati)

theorem rollout_undirected (l : List (StageState α)) :
    ∀ dx, (rollout dx l).map undirected = l.map undirected := by
  induction l with
  | nil => intro dx; rfl
  | cons s rest ih =>
      intro dx
      cases rest with
      | nil => rfl
      | cons next rest =>
          obtain ⟨s', hgiven, hric, _, _, heq⟩ := rollout_cons_cons dx s next rest
          rw [heq, List.map_cons, ih, List.map_cons, undirected, hgiven, hric]
          rfl

/-- The local equations of the forward sweep. -/
theorem rollout_rolledOut (l : List (StageState α)) : ∀ dx, RolledOut dx (rollout dx l) := by
  induction l with
  | nil => intro dx; exact ⟨fun k s next hs => (nomatch hs), fun k s hs => (nomatch hs)⟩
  | cons s₀ rest ih =>
      intro dx
      cases rest with
      | nil =>
          constructor
          · intro k s next _ hnext
            cases hnext
          · intro k s hs _
            cases k with
            | zero =>
                obtain rfl := Option.some.inj hs
                exact ⟨_, rfl⟩
            | succ k => cases hs
      | cons next₀ rest =>
          obtain ⟨s', _, _, hdv, hdpi, heq⟩ := rollout_cons_cons dx s₀ next₀ rest
          have hlater := ih s'.leaving
          rw [heq]
          constructor
          · intro k s next hs hnext
            cases k with
            | zero =>
                obtain rfl := Option.some.inj hs
                -- the sweep reads the recursion of the stage after before it passes that stage
                obtain ⟨next₁, hn, hund⟩ :=
                  exists_getElem?_of_map_eq (rollout_undirected (next₀ :: rest) _) hnext
                obtain rfl := Option.some.inj hn
                rw [show next.riccati = next₀.riccati from congrArg Prod.snd hund]
                exact ⟨hdv, hdpi⟩
            | succ k =>
                rw [entering_cons]
                exact hlater.inner k s next hs hnext
          · intro k s hs hnext
            cases k with
            | zero =>
                have hlen := congrArg List.length (rollout_undirected (next₀ :: rest) s'.leaving)
                rw [List.getElem?_cons_succ, List.getElem?_eq_none_iff] at hnext
                simp only [List.length_map, List.length_cons] at hlen
                omega
            | succ k =>
                rw [entering_cons]
                exact hlater.last k s hs hnext

/-- The forward sweep writes the direction and intermediate results alone. -/
theorem rollout_frame {β : Type} {f : StageState α → β} (hf : Undisturbed f)
    (l : List (StageState α)) : ∀ dx, (rollout dx l).map f = l.map f := by
  induction l with
  | nil => intro dx; rfl
  | cons s rest ih =>
      intro dx
      have hs := hf s s.riccati.totalVec s.riccati.feed s.riccati.costVec
      cases rest with
      | nil => exact congrArg (fun b => [b]) (hs _ s.scratch)
      | cons next rest =>
          rw [rollout, List.map_cons, ih, List.map_cons]
          exact congrArg (fun b => b :: (next :: rest).map f) (hs _ _)

/-- Whatever the first stage enters the forward sweep with, the two sweeps leave the rest alone. -/
theorem solve_frame {β : Type} {f : StageState α → β} (hf : Undisturbed f)
    (l : List (StageState α)) : (solve l).map f = l.map f := by
  have hsolve : ∃ dx, solve l = rollout dx (gradients l) := by
    rw [solve]
    cases gradients l with
    | nil => exact ⟨Vec.empty, rfl⟩
    | cons s rest => exact ⟨s.direction.dv.slice s.nu s.nx, rfl⟩
  obtain ⟨dx, heq⟩ := hsolve
  rw [heq]
  exact (rollout_frame hf _ dx).trans (gradients_frame hf l)

theorem solve_given (l : List (StageState α)) :
    (solve l).map StageState.given = l.map StageState.given :=
  solve_frame (fun _ _ _ _ _ _ => rfl) l

/-- The first stage has no states, so it enters the forward sweep with none. -/
theorem solve_eq_rollout {l : List (StageState α)}
    (hfirst : ∀ s, l[0]? = some s → s.nx = 0) : solve l = rollout Vec.empty (gradients l) := by
  rw [solve]
  cases hg : gradients l with
  | nil => rfl
  | cons s rest =>
      have hs : (gradients l)[0]? = some s := by rw [hg]; rfl
      obtain ⟨s₀, hs₀, hgiven⟩ := exists_getElem?_of_map_eq (gradients_given l) hs
      have hnx : s.nx = 0 := by
        rw [show s.nx = s₀.nx from congrArg (fun p => p.1.1.nx) hgiven]
        exact hfirst s₀ hs₀
      have hempty : s.direction.dv.slice s.nu s.nx = Vec.empty := by
        rw [hnx]
        rfl
      show rollout (s.direction.dv.slice s.nu s.nx) (s :: rest) = _
      rw [hempty]

end Riccati

/-! ## Newton directions -/

/-- What every stage of a list of stages with a direction knows about itself and its neighbours. -/
structure Directed (l : List (StageState α)) : Prop where
  /-- The gradients of the costs-to-go. -/
  pulled : GradientsPulled l
  /-- The directions of stage vectors and dynamics' multipliers. -/
  rolled : RolledOut Vec.empty l
  /-- The condensed gradient is that of the current right-hand side. -/
  condensed : ∀ (k : Nat) (s : StageState α), l[k]? = some s →
    s.condensed.grad = s.condenseGradient.condensed.grad
  /-- The slack directions are those of the direction of the stage vector. -/
  slack : ∀ (k : Nat) (s : StageState α), l[k]? = some s →
    s.direction.dt = s.expand.direction.dt
  /-- So are the directions of the inequality multipliers. -/
  multiplier : ∀ (k : Nat) (s : StageState α), l[k]? = some s →
    s.direction.dlam = s.expand.direction.dlam

namespace Riccati

theorem pulled_of_undirected {s s' : StageState α} {next next' : RiccatiData α}
    (hs : undirected s' = undirected s) (hnext : next' = next) (h : s.Pulled next) :
    s'.Pulled next' := by
  have hric : s'.riccati = s.riccati := congrArg Prod.snd hs
  have hcond : s'.condensed = s.condensed := congrArg (fun p => p.1.2.2) hs
  have hdata : s'.data = s.data := congrArg (fun p => p.1.1.1.data) hs
  have hdyn : s'.residual.dyn = s.residual.dyn := congrArg (fun p => p.1.1.1.dyn) hs
  have hnu : s'.nu = s.nu := congrArg (fun p => p.1.1.1.nu) hs
  have hnx : s'.nx = s.nx := congrArg (fun p => p.1.1.1.nx) hs
  subst hnext
  refine ⟨?_, ?_, ?_⟩
  · rw [hric, hcond, hdata, hdyn]
    exact h.total
  · rw [hric, hnu]
    exact h.feed
  · rw [StageState.crossBlock, hric, hnu, hnx]
    exact h.cost

/-- The gradients of the costs-to-go do not depend on the direction. -/
theorem gradientsPulled_of_undirected {l l' : List (StageState α)}
    (hl : l'.map undirected = l.map undirected) (h : GradientsPulled l) : GradientsPulled l' := by
  constructor
  · intro k s' next' hs hnext
    obtain ⟨s, hls, hund⟩ := exists_getElem?_of_map_eq hl hs
    obtain ⟨next, hlnext, hundNext⟩ := exists_getElem?_of_map_eq hl hnext
    exact pulled_of_undirected hund (congrArg Prod.snd hundNext) (h.inner k s next hls hlnext)
  · intro k s' hs hnext
    obtain ⟨s, hls, hund⟩ := exists_getElem?_of_map_eq hl hs
    have hlast := h.last k s hls (getElem?_eq_none_of_map_eq hl hnext)
    rw [show s'.riccati = s.riccati from congrArg Prod.snd hund,
      show s'.condensed = s.condensed from congrArg (fun p => p.1.2.2) hund,
      show s'.nu = s.nu from congrArg (fun p => p.1.1.1.nu) hund,
      show s'.nx = s.nx from congrArg (fun p => p.1.1.1.nx) hund]
    exact hlast

end Riccati

theorem entering_map_expand (dx : Vec α) (l : List (StageState α)) (k : Nat) :
    entering dx (l.map StageState.expand) k = entering dx l k := by
  cases k with
  | zero => rfl
  | succ k =>
      rw [entering, entering, List.getElem?_map]
      cases l[k]? with
      | none => rfl
      | some s => rfl

/-- The directions of slacks and inequality multipliers are filled in beside the others. -/
theorem RolledOut.map_expand {dx : Vec α} {l : List (StageState α)} (h : RolledOut dx l) :
    RolledOut dx (l.map StageState.expand) := by
  constructor
  · intro k s' next' hs hnext
    rw [List.getElem?_map] at hs hnext
    obtain ⟨s, hls, rfl⟩ := Option.map_eq_some_iff.1 hs
    obtain ⟨next, hlnext, rfl⟩ := Option.map_eq_some_iff.1 hnext
    rw [entering_map_expand]
    exact h.inner k s next hls hlnext
  · intro k s' hs hnext
    rw [List.getElem?_map] at hs hnext
    obtain ⟨s, hls, rfl⟩ := Option.map_eq_some_iff.1 hs
    rw [entering_map_expand]
    exact h.last k s hls (Option.map_eq_none_iff.1 hnext)

/-- Core, factors and the right-hand side of the complementarity equations. -/
def StageState.aimed (s : StageState α) : (StageCore α × StageFactors α) × Sides (Vec α) :=
  (s.ground, s.residual.comp)

/-- A direction is sought for a given point, factorization and right-hand side. -/
theorem newtonDirection_aimed {l : List (StageState α)} (hfirst : ∀ s, l[0]? = some s → s.nx = 0) :
    (newtonDirection l).map StageState.aimed = l.map StageState.aimed := by
  have hgiven : (Riccati.solve (l.map StageState.condenseGradient)).map StageState.given =
      (l.map StageState.condenseGradient).map StageState.given := by
    rw [Riccati.solve_eq_rollout (fun s hs => ?_)]
    · exact (map_map_eq (g := Prod.fst) (Riccati.rollout_undirected _ _)).trans
        (Riccati.gradients_given _)
    · rw [List.getElem?_map] at hs
      obtain ⟨s₀, hs₀, rfl⟩ := Option.map_eq_some_iff.1 hs
      exact hfirst s₀ hs₀
  have haimed : (Riccati.solve (l.map StageState.condenseGradient)).map StageState.aimed =
      (l.map StageState.condenseGradient).map StageState.aimed :=
    map_map_eq (f := StageState.given) (g := fun p => (p.1, p.2.1)) hgiven
  rw [newtonDirection, List.map_map]
  show (Riccati.solve (l.map StageState.condenseGradient)).map StageState.aimed = _
  rw [haimed, List.map_map]
  rfl

/-- What a direction is sought for, and the predictor that is kept beside it. -/
def StageState.sought (s : StageState α) :
    ((StageCore α × StageFactors α) × Sides (Vec α)) × Sides (Vec α) × Sides (Vec α) :=
  (s.aimed, s.affineT, s.affineLam)

/-- A direction leaves these alone, whatever the ends of the chain are. -/
theorem newtonDirection_sought (l : List (StageState α)) :
    (newtonDirection l).map StageState.sought = l.map StageState.sought := by
  have hsolve : (Riccati.solve (l.map StageState.condenseGradient)).map StageState.sought =
      (l.map StageState.condenseGradient).map StageState.sought :=
    Riccati.solve_frame (fun _ _ _ _ _ _ => rfl) _
  rw [newtonDirection, List.map_map]
  show (Riccati.solve (l.map StageState.condenseGradient)).map StageState.sought = _
  rw [hsolve, List.map_map]
  rfl

/-- Slacks and inequality multipliers get the directions that belong to that of the stage vector,
whatever the ends of the chain are. -/
theorem expanded_newtonDirection {l : List (StageState α)} {s : StageState α}
    (hs : s ∈ newtonDirection l) :
    s.direction.dt = s.expand.direction.dt ∧ s.direction.dlam = s.expand.direction.dlam := by
  rw [newtonDirection] at hs
  obtain ⟨s₀, _, rfl⟩ := List.mem_map.1 hs
  exact ⟨rfl, rfl⟩

/-- The local equations of a Newton direction. -/
theorem directed_newtonDirection {l : List (StageState α)}
    (hfirst : ∀ s, l[0]? = some s → s.nx = 0) : Directed (newtonDirection l) := by
  have hfirst' : ∀ s, (l.map StageState.condenseGradient)[0]? = some s → s.nx = 0 := by
    intro s hs
    rw [List.getElem?_map] at hs
    obtain ⟨s₀, hs₀, rfl⟩ := Option.map_eq_some_iff.1 hs
    exact hfirst s₀ hs₀
  have hund := Riccati.rollout_undirected
    (Riccati.gradients (l.map StageState.condenseGradient)) Vec.empty
  have hexpanded := fun s => expanded_newtonDirection (l := l) (s := s)
  rw [newtonDirection, Riccati.solve_eq_rollout hfirst'] at hexpanded ⊢
  refine ⟨?_, (Riccati.rollout_rolledOut _ _).map_expand, ?_, ?_, ?_⟩
  · have hpulled := Riccati.gradients_pulled (l.map StageState.condenseGradient)
    refine Riccati.gradientsPulled_of_undirected ?_ hpulled
    rw [List.map_map]
    exact hund
  · intro k s hs
    rw [List.getElem?_map] at hs
    obtain ⟨s₁, hs₁, rfl⟩ := Option.map_eq_some_iff.1 hs
    obtain ⟨s₂, hs₂, hgiven⟩ := exists_getElem?_of_map_eq
      ((map_map_eq (g := Prod.fst) hund).trans (Riccati.gradients_given _)) hs₁
    rw [List.getElem?_map] at hs₂
    obtain ⟨s₃, _, rfl⟩ := Option.map_eq_some_iff.1 hs₂
    have hcore : s₁.core = s₃.core := congrArg (fun p => p.1.1) hgiven
    have hdata : s₁.data = s₃.data := congrArg StageCore.data hcore
    have hpoint : s₁.point = s₃.point := congrArg StageCore.point hcore
    have hstat : s₁.residual.stat = s₃.residual.stat := congrArg StageCore.stat hcore
    have hineq : s₁.residual.ineq = s₃.residual.ineq := congrArg StageCore.ineq hcore
    have hcomp : s₁.residual.comp = s₃.residual.comp := congrArg (fun p => p.2.1) hgiven
    have hgrad : s₁.condensed.grad = s₃.condenseGradient.condensed.grad :=
      congrArg (fun p => p.2.2.grad) hgiven
    show s₁.condensed.grad = s₁.condenseGradient.condensed.grad
    rw [hgrad]
    simp only [StageState.condenseGradient, hdata, hpoint, hstat, hineq, hcomp]
  · intro k s hs
    exact (hexpanded s (List.mem_of_getElem? hs)).1
  · intro k s hs
    exact (hexpanded s (List.mem_of_getElem? hs)).2

end StagedQP
