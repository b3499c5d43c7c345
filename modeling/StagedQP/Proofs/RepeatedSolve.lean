import StagedQP.Proofs.BlockSystem
import StagedQP.Proofs.EqualityConstrained

/-!
# One factorization, any number of right-hand sides

The matrix part of the recursion is done once, and the vector part for each right-hand side. Here a
chain is factorized and then solved any number of times, each time for another gradient `grad` of
the cost and another offset `r` of the dynamics. Each answer solves the block system of its own
right-hand side,

```text
hess dv + [shift du; 0] + grad + dynᵀ dpi - [0; dpi before] = 0
dx after = dyn dv + r
```

with the Hessians that were factorized and the shifts that were used on them: no call disturbs what
the next one rests on. The Hessians only have to be symmetric.

The invariant of the calls is the frame `StageState.unposed`, everything but the linear part of the
problem, the vector recursion and the direction.

## Main results

* `Riccati.solveEach_unposed` — what any number of calls leaves alone.
* `Riccati.answered_solveEach` — what the stages know after the last of them.
* `solveEach_solves_blocks` — the last answer solves the block system.
-/

namespace StagedQP

open Finset

/-! ## Right-hand sides -/

/-- The linear part of the linear-quadratic problem at one stage. -/
structure LinearPart (α : Type) where
  /-- Gradient of the cost. -/
  grad : Vec α
  /-- Offset of the dynamics. -/
  offset : Vec α

section Calls

variable {α : Type} [Scalar α]

/-- The linear part fits a stage whose successor has `n` states. -/
structure LinearPart.Fits (n : Nat) (s : StageState α) (b : LinearPart α) : Prop where
  grad : b.grad.size = s.nu + s.nx
  offset : b.offset.size = n

/-- The stage with another linear part. -/
def StageState.withLinear (b : LinearPart α) (s : StageState α) : StageState α :=
  { s with
    condensed.grad := b.grad
    residual.dyn := b.offset }

/-- Everything of a stage but the linear part, the recursion over the vectors and the direction. -/
def StageState.unposed (s : StageState α) : StageCore α × StageFactors α :=
  ({ s.core with dyn := Vec.empty }, s.factors)

namespace Riccati

/-- The chain with the linear part `b k` at stage `k`. -/
def pose (b : Nat → LinearPart α) (l : List (StageState α)) : List (StageState α) :=
  l.mapIdx fun k s => s.withLinear (b k)

/-- The chain after one call for each of the linear parts listed. -/
def solveEach (l : List (StageState α)) (parts : List (Nat → LinearPart α)) :
    List (StageState α) := parts.foldl (fun l b => solve (pose b l)) l

/-! ## What the calls leave alone -/

omit [Scalar α] in
theorem pose_unposed (b : Nat → LinearPart α) (l : List (StageState α)) :
    (pose b l).map StageState.unposed = l.map StageState.unposed := by
  apply List.ext_getElem?
  intro k
  rw [List.getElem?_map, pose, List.getElem?_mapIdx, Option.map_map, List.getElem?_map]
  rfl

/-- One call keeps sizes, data, point and factors. -/
theorem solve_unposed (b : Nat → LinearPart α) (l : List (StageState α)) :
    (solve (pose b l)).map StageState.unposed = l.map StageState.unposed :=
  (solve_frame (fun _ _ _ _ _ _ => rfl) (pose b l)).trans (pose_unposed b l)

/-- So does any number of calls. -/
theorem solveEach_unposed (parts : List (Nat → LinearPart α)) (l : List (StageState α)) :
    (solveEach l parts).map StageState.unposed = l.map StageState.unposed := by
  induction parts generalizing l with
  | nil => rfl
  | cons b parts ih => exact (ih (solve (pose b l))).trans (solve_unposed b l)

theorem solveEach_concat (l : List (StageState α)) (parts : List (Nat → LinearPart α))
    (b : Nat → LinearPart α) :
    solveEach l (parts ++ [b]) = solve (pose b (solveEach l parts)) := by
  rw [solveEach, List.foldl_append]
  rfl

/-- The linear part of the last call is still there after it. -/
theorem linear_of_solve {b : Nat → LinearPart α} {l : List (StageState α)} {k : Nat}
    {s : StageState α} (hs : (solve (pose b l))[k]? = some s) :
    s.condensed.grad = (b k).grad ∧ s.residual.dyn = (b k).offset := by
  obtain ⟨s₁, hs₁, hgiven⟩ := exists_getElem?_of_map_eq (solve_given (pose b l)) hs
  rw [pose, List.getElem?_mapIdx] at hs₁
  obtain ⟨s₀, _, rfl⟩ := Option.map_eq_some_iff.1 hs₁
  exact ⟨congrArg (fun p => p.2.2.grad) hgiven, congrArg (fun p => p.1.1.dyn) hgiven⟩

end Riccati

namespace StageState

variable {s s' : StageState α} {n : Nat}

omit [Scalar α] in
theorem ground_of_unposed (h : s'.unposed = s.unposed) :
    s'.ground = { s with residual.dyn := s'.residual.dyn }.ground := by
  have hcore := congrArg Prod.fst h
  have hfactors : s'.factors = s.factors := congrArg Prod.snd h
  have hnx : s'.nx = s.nx := congrArg StageCore.nx hcore
  have hnu : s'.nu = s.nu := congrArg StageCore.nu hcore
  have hdata : s'.data = s.data := congrArg StageCore.data hcore
  have hpoint : s'.point = s.point := congrArg StageCore.point hcore
  have hstat : s'.residual.stat = s.residual.stat := congrArg StageCore.stat hcore
  have hineq : s'.residual.ineq = s.residual.ineq := congrArg StageCore.ineq hcore
  rw [ground, hfactors, core, hnx, hnu, hdata, hpoint, hstat, hineq]
  rfl

omit [Scalar α] in
/-- The shape of a stage depends on the linear part through the size of the offset alone. -/
theorem Shaped.of_unposed (h : s'.unposed = s.unposed) (hs : s.Shaped n)
    (hdyn : s'.residual.dyn.size = n) : s'.Shaped n := by
  have hposed : { s with residual.dyn := s'.residual.dyn }.Shaped n := { hs with dyn := hdyn }
  exact hposed.of_ground (ground_of_unposed h)

/-- A stage is swept whatever its linear part. -/
theorem Swept.of_unposed {next next' : Mat α} {shift : Option α} (h : s'.unposed = s.unposed)
    (hnext : next' = next) (hs : s.Swept next shift) : s'.Swept next' shift := by
  have hposed : { s with residual.dyn := s'.residual.dyn }.Swept next shift :=
    ⟨hs.total, hs.unfactored, hs.factored, hs.gain, hs.cost⟩
  exact hposed.of_ground (ground_of_unposed h) hnext

end StageState

omit [Scalar α] in
/-- The shape of a chain depends on the linear part through the sizes of the offsets alone. -/
theorem HorizonShaped.of_unposed {l l' : List (StageState α)} (h : HorizonShaped l)
    (hframe : l'.map StageState.unposed = l.map StageState.unposed)
    (hdyn : ∀ (k : Nat) (s : StageState α), l'[k]? = some s →
      s.residual.dyn.size = nextNx l k) : HorizonShaped l' := by
  have hnx : l'.map StageState.nx = l.map StageState.nx :=
    map_eq_of_map_eq hframe fun _ _ heq => congrArg (fun p => p.1.nx) heq
  refine ⟨fun k s' hs' => ?_, fun s' hs' => ?_, fun k s' hs' hnone => ?_⟩
  · obtain ⟨s, hs, heq⟩ := exists_getElem?_of_map_eq hframe hs'
    rw [nextNx_of_map_eq hnx]
    exact (h.chained k s hs).of_unposed heq (hdyn k s' hs')
  · obtain ⟨s, hs, heq⟩ := exists_getElem?_of_map_eq hframe hs'
    rw [show s'.nx = s.nx from congrArg (fun p => p.1.nx) heq]
    exact h.first s hs
  · obtain ⟨s, hs, heq⟩ := exists_getElem?_of_map_eq hframe hs'
    rw [show s'.nu = s.nu from congrArg (fun p => p.1.nu) heq]
    exact h.last k s hs (getElem?_eq_none_of_map_eq hframe hnone)

theorem horizonShaped_factorize {l : List (StageState α)} (hl : HorizonShaped l) :
    HorizonShaped (Riccati.factorize l).stages :=
  hl.of_core (Riccati.factorize_core l) (Riccati.factorize_chained hl.chained)

end Calls

/-! ## After the calls -/

variable {K : Type} [Field K] [LinearOrder K] [SquareRoot K]

/-- A sweep over the matrices that did not fail. -/
theorem Riccati.sweptChain_factorize {l : List (StageState K)}
    (hok : (factorize l).failed = none) :
    SweptChain (factorize l).shiftAt? (factorize l).stages :=
  ⟨fun _ _ _ => swept_of_factorize hok, fun _ _ => cost_last_of_factorize hok⟩

/-- A chain is swept whatever its linear part. -/
theorem SweptChain.of_unposed {shift : Nat → Option K} {l l' : List (StageState K)}
    (h : SweptChain shift l) (hframe : l'.map StageState.unposed = l.map StageState.unposed) :
    SweptChain shift l' := by
  refine ⟨fun k s' next' hs' hnext' => ?_, fun k s' hs' hnone => ?_⟩
  · obtain ⟨s, hs, heq⟩ := exists_getElem?_of_map_eq hframe hs'
    obtain ⟨next, hnext, heqNext⟩ := exists_getElem?_of_map_eq hframe hnext'
    exact (h.inner k s next hs hnext).of_unposed heq (congrArg (fun p => p.2.cost) heqNext)
  · obtain ⟨s, hs, heq⟩ := exists_getElem?_of_map_eq hframe hs'
    have hlast := h.last k s hs (getElem?_eq_none_of_map_eq hframe hnone)
    rw [show s'.riccati.cost = s.riccati.cost from congrArg (fun p => p.2.cost) heq,
      show s'.condensed.hess = s.condensed.hess from congrArg (fun p => p.2.hess) heq,
      show s'.nu = s.nu from congrArg (fun p => p.1.nu) heq,
      show s'.nx = s.nx from congrArg (fun p => p.1.nx) heq]
    exact hlast

/-- Both sweeps over the vectors, for gradients of the right sizes. -/
theorem Riccati.solvedChain_solve {l : List (StageState K)}
    (hfirst : ∀ s, l[0]? = some s → s.nx = 0)
    (hgrad : ∀ (k : Nat) (s : StageState K), (solve l)[k]? = some s →
      s.condensed.grad.size = s.nu + s.nx) : SolvedChain (solve l) := by
  refine ⟨?_, ?_, hgrad⟩
  · rw [solve_eq_rollout hfirst]
    exact gradientsPulled_of_undirected (rollout_undirected _ _) (gradients_pulled _)
  · rw [solve_eq_rollout hfirst]
    exact rollout_rolledOut _ _

omit [LinearOrder K] [SquareRoot K] in
theorem StageState.CondensedSymmetric.of_hess {s s' : StageState K}
    (hhess : s'.condensed.hess = s.condensed.hess) (hnu : s'.nu = s.nu) (hnx : s'.nx = s.nx)
    (h : s.CondensedSymmetric) : s'.CondensedSymmetric := by
  refine ⟨?_, ?_, ?_⟩
  · rw [hhess, hnu, hnx]
    exact h.rows
  · rw [hhess, hnu, hnx]
    exact h.cols
  · rw [hhess, hnu, hnx]
    exact h.symm

/-- The stages `l'` hold the answer for the linear part `b` by the factorization of `l`. -/
structure Riccati.Answered (l : List (StageState K)) (b : Nat → LinearPart K)
    (l' : List (StageState K)) : Prop where
  /-- The sizes are those of a horizon. -/
  shaped : HorizonShaped l'
  /-- The factorization is still there. -/
  swept : SweptChain (factorize l).shiftAt? l'
  /-- Both sweeps over the vectors have passed. -/
  solved : SolvedChain l'
  /-- The Hessians are symmetric. -/
  symmetric : ∀ s ∈ l', s.CondensedSymmetric
  /-- The factors are those of the factorization. -/
  frame : l'.map StageState.unposed = (factorize l).stages.map StageState.unposed
  /-- The linear part is the one asked for. -/
  linear : ∀ (k : Nat) (s : StageState K), l'[k]? = some s →
    s.condensed.grad = (b k).grad ∧ s.residual.dyn = (b k).offset

namespace Riccati

/-- The factorization and the calls leave sizes, data and Hessians alone. -/
theorem sweptFrom_of_unposed {l l' : List (StageState K)}
    (hframe : l'.map StageState.unposed = (factorize l).stages.map StageState.unposed) :
    l'.map StageState.sweptFrom = l.map StageState.sweptFrom := by
  have hcalls : l'.map StageState.sweptFrom = (factorize l).stages.map StageState.sweptFrom :=
    map_eq_of_map_eq hframe fun _ _ heq =>
      congrArg (fun p => (((p.1.nx, p.1.nu), p.1.data), p.2.hess)) heq
  have hsweep : (factorize l).stages.map StageState.sweptFrom = l.map StageState.sweptFrom :=
    map_eq_of_map_eq (factorizeFrom_kept l 0) fun _ _ heq =>
      congrArg (fun p => (((p.1.nx, p.1.nu), p.1.data), p.2.hess)) heq
  exact hcalls.trans hsweep

/-- The same, at one stage. -/
theorem exists_before_factorize {l l' : List (StageState K)}
    (hframe : l'.map StageState.unposed = (factorize l).stages.map StageState.unposed)
    {k : Nat} {s' : StageState K} (hs' : l'[k]? = some s') :
    ∃ s, l[k]? = some s ∧ s'.nu = s.nu ∧ s'.nx = s.nx ∧ s'.data = s.data ∧
      s'.condensed.hess = s.condensed.hess := by
  obtain ⟨s, hs, heq⟩ := exists_getElem?_of_map_eq (sweptFrom_of_unposed hframe) hs'
  exact ⟨s, hs, congrArg (fun p => p.1.1.2) heq, congrArg (fun p => p.1.1.1) heq,
    congrArg (fun p => p.1.2) heq, congrArg Prod.snd heq⟩

section Answered

variable {l : List (StageState K)} (hl : HorizonShaped l)
  (hsymm : ∀ s ∈ l, s.CondensedSymmetric) (hok : (factorize l).failed = none)
  {b : Nat → LinearPart K}
  (hb : ∀ (k : Nat) (s : StageState K), l[k]? = some s → (b k).Fits (nextNx l k) s)

include hl hsymm hok hb

/-- After any number of calls, the stages hold the answer for the last linear part. -/
theorem answered_solveEach (earlier : List (Nat → LinearPart K)) :
    Answered l b (solveEach (factorize l).stages (earlier ++ [b])) := by
  rw [solveEach_concat]
  set l₀ := solveEach (factorize l).stages earlier with hl₀
  have hposed : (pose b l₀).map StageState.unposed =
      (factorize l).stages.map StageState.unposed :=
    (pose_unposed b l₀).trans (solveEach_unposed earlier _)
  have hframe : (solve (pose b l₀)).map StageState.unposed =
      (factorize l).stages.map StageState.unposed :=
    (solve_unposed b l₀).trans (solveEach_unposed earlier _)
  have hfactorized := horizonShaped_factorize hl
  have hfirst : ∀ s, (pose b l₀)[0]? = some s → s.nx = 0 := by
    intro s hs
    obtain ⟨t, ht, heq⟩ := exists_getElem?_of_map_eq hposed hs
    rw [show s.nx = t.nx from congrArg (fun p => p.1.nx) heq]
    exact hfactorized.first t ht
  refine ⟨hfactorized.of_unposed hframe ?_, (sweptChain_factorize hok).of_unposed hframe,
    solvedChain_solve hfirst ?_, ?_, hframe, fun k s hs => linear_of_solve hs⟩
  · intro k s' hs'
    obtain ⟨s, hs, _⟩ := exists_before_factorize hframe hs'
    rw [(linear_of_solve hs').2, (hb k s hs).offset,
      nextNx_of_map_eq (map_nx_of_core (factorize_core l))]
  · intro k s' hs'
    obtain ⟨s, hs, hnu, hnx, _⟩ := exists_before_factorize hframe hs'
    rw [(linear_of_solve hs').1, (hb k s hs).grad, hnu, hnx]
  · intro s' hmem
    obtain ⟨k, hs'⟩ := List.getElem?_of_mem hmem
    obtain ⟨s, hs, hnu, hnx, _, hhess⟩ := exists_before_factorize hframe hs'
    exact (hsymm s (List.mem_of_getElem? hs)).of_hess hhess hnu hnx

end Answered

end Riccati

/-! ## The block system -/

/-- The directions `dv` and `dpi` solve the block system at the stage, for the linear part `b` and a
control block shifted by `shift`. Beyond the last stage the dynamics have no rows. -/
structure StageState.BlockRows (b : LinearPart K) (shift : K) (dv dpi before after : Vec K)
    (s : StageState K) : Prop where
  /-- Stationarity. -/
  stat : ∀ i < s.nu + s.nx,
    (s.condensed.hess.mulVec dv).get i + (if i < s.nu then shift * dv.get i else 0)
        + b.grad.get i + (s.data.dyn.trMulVec dpi).get i
        - (if i < s.nu then 0 else before.get (i - s.nu)) = 0
  /-- Dynamics. -/
  dyn : ∀ i < s.data.dyn.rows, after.get i = (s.data.dyn.mulVec dv).get i + b.offset.get i

/-- The rows read sizes, dynamics and Hessian of the stage. -/
theorem StageState.BlockRows.of_hess {b : LinearPart K} {shift : K}
    {dv dpi before after : Vec K} {s s' : StageState K} (hnu : s'.nu = s.nu) (hnx : s'.nx = s.nx)
    (hdata : s'.data = s.data) (hhess : s'.condensed.hess = s.condensed.hess)
    (h : s.BlockRows b shift dv dpi before after) :
    s'.BlockRows b shift dv dpi before after := by
  refine ⟨fun i hi => ?_, fun i hi => ?_⟩
  · rw [hnu, hnx] at hi
    rw [hhess, hdata, hnu]
    exact h.stat i hi
  · rw [hdata] at hi ⊢
    exact h.dyn i hi

/-- The factors of an answer factor the shifted control blocks. -/
theorem Riccati.Answered.factored [ExactRoots K] {l l' : List (StageState K)}
    {b : Nat → LinearPart K} (h : Answered l b l') {k : Nat} {s : StageState K}
    (hs : l'[k]? = some s) (hnu : s.nu ≠ 0) : ∃ c, s.riccati.factor = some c ∧
      c.Factors (shiftDiagonal ((factorize l).shiftAt k) s.controlBlock.get) s.nu := by
  obtain ⟨next, hnext⟩ := h.shaped.exists_next hs hnu
  exact (h.swept.inner k s next hs hnext).factors
    (h.swept.total_symm h.shaped.chained h.symmetric hs hnext) hnu

/-- The rows at one stage of an answer. -/
theorem Riccati.Answered.blockRows [ExactRoots K] [IsStrictOrderedRing K]
    {l l' : List (StageState K)} {b : Nat → LinearPart K} (h : Answered l b l') {k : Nat}
    {s : StageState K} (hs : l'[k]? = some s) :
    s.BlockRows (b k) ((factorize l).shiftAt k) s.direction.dv s.direction.dpi (dpiBefore l' k)
      (dxAfter l' k) := by
  have hshape := h.shaped.chained k s hs
  have hhess := h.symmetric s (List.mem_of_getElem? hs)
  obtain ⟨hgrad, hoffset⟩ := h.linear k s hs
  refine ⟨fun i hi => ?_, fun i hi => ?_⟩
  · have hrow := h.solved.condensed_rows h.shaped h.swept h.symmetric hs hi
    rw [hgrad] at hrow
    rw [Mat.get_mulVec_eq _ _ (hhess.rows.symm ▸ hi), hhess.cols,
      Mat.get_trMulVec _ _ (hshape.dyn_cols.symm ▸ hi), Sweep.shiftAt]
    by_cases hiu : i < s.nu
    · rw [if_pos hiu] at hrow
      rw [if_pos hiu, if_pos hiu]
      linear_combination hrow
    · rw [if_neg hiu] at hrow
      rw [if_neg hiu, if_neg hiu]
      linear_combination hrow
  · rw [h.solved.get_dxAfter h.shaped.chained hs hi, hoffset, Mat.get_mulVec_eq _ _ hi,
      hshape.dyn_cols, add_comm]

/-- **A factorization serves any number of right-hand sides.** Let the backward sweep over a chain
with symmetric Hessians succeed. It holds a factor of every control block, with the shift that was
used on it. After any number of calls with whatever linear parts, the directions solve the block
system of the last linear part, and cost-to-go, total Hessian, gain and factor of every stage are
those of the factorization. -/
theorem solveEach_solves_blocks [ExactRoots K] [IsStrictOrderedRing K] {l : List (StageState K)}
    (hl : HorizonShaped l) (hsymm : ∀ s ∈ l, s.CondensedSymmetric)
    (hok : (Riccati.factorize l).failed = none) (earlier : List (Nat → LinearPart K))
    (b : Nat → LinearPart K)
    (hb : ∀ (k : Nat) (s : StageState K), l[k]? = some s → (b k).Fits (nextNx l k) s) :
    ∀ (k : Nat) (s : StageState K), l[k]? = some s →
      ∃ t s' : StageState K, (Riccati.factorize l).stages[k]? = some t ∧
        (Riccati.solveEach (Riccati.factorize l).stages (earlier ++ [b]))[k]? = some s' ∧
        (s.nu ≠ 0 → ∃ c, t.riccati.factor = some c ∧ c.Factors
          (shiftDiagonal ((Riccati.factorize l).shiftAt k) t.controlBlock.get) s.nu) ∧
        s'.factors = t.factors ∧
        s.BlockRows (b k) ((Riccati.factorize l).shiftAt k) s'.direction.dv s'.direction.dpi
          (dpiBefore (Riccati.solveEach (Riccati.factorize l).stages (earlier ++ [b])) k)
          (dxAfter (Riccati.solveEach (Riccati.factorize l).stages (earlier ++ [b])) k) := by
  have hanswered := Riccati.answered_solveEach hl hsymm hok hb earlier
  set l' := Riccati.solveEach (Riccati.factorize l).stages (earlier ++ [b]) with hl'
  intro k s hs
  obtain ⟨t, ht, hkept⟩ := exists_getElem?_of_map_eq (Riccati.factorizeFrom_kept l 0).symm hs
  obtain ⟨s', hs', hunposed⟩ := exists_getElem?_of_map_eq hanswered.frame.symm ht
  obtain ⟨s₀, hs₀, hnu, hnx, hdata, hhess⟩ :=
    Riccati.exists_before_factorize hanswered.frame hs'
  obtain rfl := Option.some.inj (hs.symm.trans hs₀)
  have hblock : t.controlBlock = s'.controlBlock := by
    rw [StageState.controlBlock, StageState.controlBlock,
      show t.riccati.total = s'.riccati.total from congrArg (fun p => p.2.total) hunposed,
      show t.nu = s'.nu from congrArg (fun p => p.1.nu) hunposed]
  refine ⟨t, s', ht, hs', fun hcontrol => ?_, (congrArg Prod.snd hunposed).symm, ?_⟩
  · rw [show t.riccati.factor = s'.riccati.factor from congrArg (fun p => p.2.factor) hunposed,
      hblock, ← hnu]
    exact hanswered.factored hs' (hnu ▸ hcontrol)
  · exact (hanswered.blockRows hs').of_hess hnu.symm hnx.symm hdata.symm hhess.symm

/-! ## The chain of a horizon -/

/-- The buffers of a stage with its Hessian in place of the condensed one. -/
theorem StageState.shaped_uncondensed {d : Stage K} (hd : d.WellShaped) :
    d.uncondensed.Shaped d.nxNext := by
  have hnc : d.uncondensed.nc = d.sizes.nc := by
    show (d.lb.append d.lg).size = d.sizes.nb + d.sizes.ng
    rw [Vec.size_append, hd.lb, hd.lg]
  constructor
  case grad =>
    show (d.r.append d.q).size = d.sizes.nu + d.sizes.nx
    rw [Vec.size_append, hd.r, hd.q]
  case bound_up =>
    rw [hnc]
    show (d.ub.append d.ug).size = d.sizes.nb + d.sizes.ng
    rw [Vec.size_append, hd.ub, hd.ug]
  case off => exact hd.b
  case jac_rows => exact hnc.symm
  case factor =>
    intro c hc
    obtain rfl := Option.some.inj hc
    rfl
  case t_lo | t_up | lam_lo | lam_up | ineq_lo | ineq_up => exact (Vec.size_zeros _).trans hnc.symm
  case v | pi | stat | dyn => exact Vec.size_zeros _
  all_goals rfl

theorem Horizon.horizonShaped_uncondensed (h : Horizon K) :
    HorizonShaped (h.stages.map Stage.uncondensed) := by
  have hcons := h.consistent
  refine ⟨fun k s hs => ?_, fun s hs => ?_, fun k s hs hnone => ?_⟩
  · rw [List.getElem?_map] at hs
    obtain ⟨d, hd, rfl⟩ := Option.map_eq_some_iff.1 hs
    have hnext : nextNx (h.stages.map Stage.uncondensed) k = d.nxNext := by
      rw [nextNx, List.getElem?_map]
      cases hn : h.stages[k + 1]? with
      | none => exact (hcons.last k d hd hn).2.symm
      | some e => exact (hcons.link k d e hd hn).symm
    rw [hnext]
    exact StageState.shaped_uncondensed (hcons.shaped d (List.mem_of_getElem? hd))
  · rw [List.getElem?_map] at hs
    obtain ⟨d, hd, rfl⟩ := Option.map_eq_some_iff.1 hs
    exact hcons.first d hd
  · rw [List.getElem?_map] at hs hnone
    obtain ⟨d, hd, rfl⟩ := Option.map_eq_some_iff.1 hs
    exact (hcons.last k d hd (Option.map_eq_none_iff.1 hnone)).1

theorem Horizon.Symmetric.uncondensed {h : Horizon K} (hsymm : h.Symmetric) :
    ∀ s ∈ h.stages.map Stage.uncondensed, s.CondensedSymmetric := by
  intro s hmem
  obtain ⟨d, hd, rfl⟩ := List.mem_map.1 hmem
  obtain ⟨hQ, hR⟩ := hsymm d hd
  exact ⟨rfl, rfl, PackedStage.hess_symm hQ hR⟩

/-! ## One control and one state -/

theorem Mat.get_mulVec_single {m : Mat K} (hrows : m.rows = 1) (hcols : m.cols = 1) (x : Vec K) :
    (m.mulVec x).get 0 = m.get 0 0 * x.get 0 := by
  rw [get_mulVec_eq _ _ (by omega), hcols, rowSum, sum_range_one]

theorem Mat.get_trMulVec_single {m : Mat K} (hrows : m.rows = 1) (hcols : m.cols = 1) (x : Vec K) :
    (m.trMulVec x).get 0 = m.get 0 0 * x.get 0 := by
  rw [get_trMulVec _ _ (by omega), hrows, colSum, sum_range_one]

namespace StageState.BlockRows

variable {b : LinearPart K} {shift : K} {dv dpi before after : Vec K} {s : StageState K}
  (h : s.BlockRows b shift dv dpi before after) (hrows : s.condensed.hess.rows = 1)
  (hcols : s.condensed.hess.cols = 1)

include h hrows hcols

/-- The row of a stage with one control, which leads to one state. -/
theorem single_control (hnu : s.nu = 1) (hdynRows : s.data.dyn.rows = 1)
    (hdynCols : s.data.dyn.cols = 1) :
    s.condensed.hess.get 0 0 * dv.get 0 + shift * dv.get 0 + b.grad.get 0 +
      s.data.dyn.get 0 0 * dpi.get 0 = 0 := by
  have hcontrol : 0 < s.nu := by omega
  have hstat := h.stat 0 (by omega)
  rwa [if_pos hcontrol, if_pos hcontrol, sub_zero, Mat.get_mulVec_single hrows hcols,
    Mat.get_trMulVec_single hdynRows hdynCols] at hstat

/-- The row of a last stage with one state. -/
theorem single_state (hnu : s.nu = 0) (hnx : s.nx = 1) (hdynRows : s.data.dyn.rows = 0)
    (hdynCols : s.data.dyn.cols = 1) :
    s.condensed.hess.get 0 0 * dv.get 0 + b.grad.get 0 - before.get 0 = 0 := by
  have hcontrol : ¬ 0 < s.nu := by omega
  have hstat := h.stat 0 (by omega)
  rwa [if_neg hcontrol, if_neg hcontrol, Mat.get_mulVec_single hrows hcols,
    Mat.get_trMulVec _ _ (by omega), hdynRows, colSum, range_zero, sum_empty, add_zero, add_zero,
    Nat.zero_sub] at hstat

end StageState.BlockRows

/-- Linear parts for one control and one state after it: gradients `g` and `q`, offset `r`. -/
def LinearPart.pair (g r q : K) : Nat → LinearPart K
  | 0 => ⟨Vec.ofList [g], Vec.ofList [r]⟩
  | _ => ⟨Vec.ofList [q], Vec.empty⟩

omit [Field K] [LinearOrder K] [SquareRoot K] in
theorem LinearPart.fits_pair (g r q : K) {s last : StageState K} (hs : s.nu + s.nx = 1)
    (hlast : last.nu + last.nx = 1) (hnx : last.nx = 1) :
    ∀ (k : Nat) (s' : StageState K), [s, last][k]? = some s' →
      (pair g r q k).Fits (nextNx [s, last] k) s' := by
  intro k s' hs'
  match k with
  | 0 =>
      obtain rfl := Option.some.inj hs'
      exact ⟨hs.symm, hnx.symm⟩
  | 1 =>
      obtain rfl := Option.some.inj hs'
      exact ⟨hlast.symm, rfl⟩
  | k + 2 => cases hs'

/-- For instance `minimize -½ u² + x²  subject to  x = u + 1`, after a call for another linear
part. The Hessian of the control is negative. -/
theorem solveEach_solves_blocks_pushed :
    (Horizon.pushed (-1 : ℝ) 2).ownSweep.failed = none ∧ ∃ s' : StageState ℝ,
      (Riccati.solveEach (Horizon.pushed (-1 : ℝ) 2).ownSweep.stages
        ([LinearPart.pair 1 1 1] ++ [LinearPart.pair 0 1 0]))[0]? = some s' ∧
      s'.direction.dv.get 0 = -2 := by
  have hclean := Horizon.clean_pushed (r := (-1 : ℝ)) (q := 2) (by norm_num)
  have hrows := solveEach_solves_blocks (Horizon.pushed (-1 : ℝ) 2).horizonShaped_uncondensed
    Horizon.symmetric_pushed.uncondensed hclean.failed [LinearPart.pair 1 1 1]
    (LinearPart.pair 0 1 0) (LinearPart.fits_pair 0 1 0 rfl rfl rfl)
  obtain ⟨_, s', _, hs', _, _, hrow⟩ := hrows 0 (Stage.pushed (-1)).uncondensed rfl
  obtain ⟨_, last', _, hlast', _, _, hrowLast⟩ := hrows 1 (Stage.final 2).uncondensed rfl
  refine ⟨hclean.failed, s', hs', ?_⟩
  obtain ⟨_, hlast₀, hnu, hnx, _⟩ :=
    Riccati.exists_before_factorize (Riccati.solveEach_unposed _ _) hlast'
  obtain rfl := Option.some.inj hlast₀
  have hshift : (Riccati.factorize
      ((Horizon.pushed (-1 : ℝ) 2).stages.map Stage.uncondensed)).shiftAt 0 = 0 :=
    hclean.shiftAt_eq 0
  -- the three rows of the system, for the control, the state and the multiplier
  have hcontrol := hrow.single_control rfl rfl rfl rfl rfl
  have hstate := hrowLast.single_state rfl rfl rfl rfl rfl rfl
  have hdyn := hrow.dyn 0 Nat.one_pos
  rw [dpiBefore_succ hs'] at hstate
  rw [dxAfter_of_next hlast', Mat.get_mulVec_single rfl rfl, hnu, hnx] at hdyn
  rw [hshift] at hcontrol
  have hweight : (Stage.pushed (-1 : ℝ)).uncondensed.condensed.hess.get 0 0 = -1 :=
    PackedStage.hess_pushed
  have hlead : (Stage.pushed (-1 : ℝ)).uncondensed.data.dyn.get 0 0 = 1 := PackedStage.dyn_pushed
  have hfinal : (Stage.final (2 : ℝ)).uncondensed.condensed.hess.get 0 0 = 2 :=
    PackedStage.hess_final
  have hslice : (last'.direction.dv.slice 0 1).get 0 = last'.direction.dv.get 0 :=
    Vec.get_slice_of_lt _ _ Nat.one_pos
  have hlinear : (LinearPart.pair (0 : ℝ) 1 0 0).grad.get 0 = 0 ∧
      (LinearPart.pair (0 : ℝ) 1 0 0).offset.get 0 = 1 ∧
      (LinearPart.pair (0 : ℝ) 1 0 1).grad.get 0 = 0 := ⟨rfl, rfl, rfl⟩
  change (last'.direction.dv.slice 0 1).get 0 = _ at hdyn
  rw [hweight, hlead, hlinear.1] at hcontrol
  rw [hfinal, hlinear.2.2] at hstate
  rw [hslice, hlead, hlinear.2.1] at hdyn
  linarith

end StagedQP
