import Mathlib.Analysis.Convex.Function
import StagedQP.Proofs.FeedbackForm
import StagedQP.Proofs.RepeatedSolve

/-!
# The answer of the recursion is the minimizer

The block system alone would also hold at a saddle point. That a backward sweep succeeds says more:
along the dynamics, the cost with half the shifts added,

```text
Σ_k ½ d_kᵀ hess_k d_k + grad_kᵀ d_k + ½ s_k |u_k|²,     d_k = [u_k; x_k],
```

is strictly convex, even if the Hessians are not semidefinite, and the answer `v` of the recursion
is its minimizer. Any other family of vectors that follows the dynamics costs more by

```text
½ Σ_k e_kᵀ (M_k + s_k I) e_k,     e_k = u_k - G_k x_k - g_k,
```

where `M_k` is the control block, `G_k` the gain and `g_k` the feedforward control. The linear part
of the difference vanishes, since the rows of the block system trade it for multipliers of the
dynamics and these cancel along the chain; the quadratic part is the form of the chain.

Without shifts this is the cost as it stands. With a shift it is not: a control without any weight
is given one by the sweep, while the cost itself may have no minimizer at all.

## Main results

* `Riccati.Answered.shiftedCost_excess` — the cost about the answer.
* `Riccati.Answered.strictConvexOn` — strict convexity along the dynamics.
* `solveEach_minimizes` — both, after any number of calls.
* `chainCost_unbounded_idle` — a sweep that succeeds where the cost has no minimizer.
-/

namespace StagedQP

open Finset

variable {K : Type} [Field K]

/-! ## The problem -/

theorem halfForm_eq_quadForm (a : Nat → Nat → K) (n : Nat) (x : Nat → K) :
    halfForm a n x = quadForm a n x / 2 := rfl

theorem halfSquares_eq_sumSquares (n : Nat) (x : Nat → K) :
    halfSquares n x = sumSquares n x / 2 := rfl

namespace Riccati

/-- The table `d` is a family of stage vectors that follow the dynamics of the chain, with the
offsets of `b`. -/
structure Follows (l : List (StageState K)) (b : Nat → LinearPart K) (d : Nat → Nat → K) :
    Prop where
  /-- There is nothing beyond the stage vectors. -/
  support : ∀ k i, (l[k]?.elim 0 fun s => s.nu + s.nx) ≤ i → d k i = 0
  /-- The states follow from the stage before. -/
  dynamics : ∀ (k : Nat) (s next : StageState K), l[k]? = some s → l[k + 1]? = some next →
    ∀ i < next.nx, d (k + 1) (next.nu + i) =
      rowSum s.data.dyn.get (s.nu + s.nx) (d k) i + (b k).offset.get i

/-- The cost of the linear-quadratic problem. -/
def chainCost (l : List (StageState K)) (b : Nat → LinearPart K) (d : Nat → Nat → K) : K :=
  indexedSum l fun k s => halfForm s.condensed.hess.get (s.nu + s.nx) (d k) +
    ∑ i ∈ range (s.nu + s.nx), (b k).grad.get i * d k i

/-- The cost with half of `shift k` times the square of the controls added at stage `k`. -/
def shiftedCost (shift : Nat → K) (l : List (StageState K)) (b : Nat → LinearPart K)
    (d : Nat → Nat → K) : K :=
  chainCost l b d + indexedSum l fun k s => shift k * halfSquares s.nu (d k)

/-- The directions of the stage vectors. -/
def directions (l : List (StageState K)) (k i : Nat) : K :=
  l[k]?.elim 0 fun s => s.direction.dv.get i

/-- The table follows the dynamics, and every other one that does costs more. -/
structure Solves [LinearOrder K] (cost : (Nat → Nat → K) → K) (l : List (StageState K))
    (b : Nat → LinearPart K) (v : Nat → Nat → K) : Prop where
  /-- It follows the dynamics. -/
  follows : Follows l b v
  /-- It costs less than any other. -/
  least : ∀ d, Follows l b d → d ≠ v → cost v < cost d

end Riccati

/-- What the controls of a stage vector add to the answer of the affine feedback law. -/
def StageState.controlGap (s : StageState K) (v : Nat → K) (i : Nat) : K :=
  v i - rowSum s.riccati.gain.get s.nx (fun j => v (s.nu + j)) i - s.riccati.feed.get i

namespace Riccati

/-! ## The same problem before and after the calls -/

section Congr

variable {l l' : List (StageState K)}
  (hframe : l'.map StageState.sweptFrom = l.map StageState.sweptFrom) {b : Nat → LinearPart K}

include hframe

theorem shiftedCost_congr (shift : Nat → K) (d : Nat → Nat → K) :
    shiftedCost shift l' b d = shiftedCost shift l b d := by
  have hlen : l'.length = l.length := by
    simpa only [List.length_map] using congrArg List.length hframe
  rw [shiftedCost, shiftedCost, chainCost, chainCost]
  congr 1
  · refine indexedSum_congr hlen fun k s' s hs' hs => ?_
    have heq := apply_eq_of_map_eq hframe hs hs'
    rw [show s'.nu = s.nu from congrArg (fun p => p.1.1.2) heq,
      show s'.nx = s.nx from congrArg (fun p => p.1.1.1) heq,
      show s'.condensed.hess = s.condensed.hess from congrArg Prod.snd heq]
  · refine indexedSum_congr hlen fun k s' s hs' hs => ?_
    rw [show s'.nu = s.nu from congrArg (fun p => p.1.1.2) (apply_eq_of_map_eq hframe hs hs')]

theorem Follows.congr {d : Nat → Nat → K} (h : Follows l b d) : Follows l' b d := by
  constructor
  · intro k i hi
    refine h.support k i ?_
    cases hs : l[k]? with
    | none => exact Nat.zero_le i
    | some s =>
        obtain ⟨s', hs', heq⟩ := exists_getElem?_of_map_eq hframe.symm hs
        have hnu : s.nu = s'.nu := congrArg (fun p => p.1.1.2) heq
        have hnx : s.nx = s'.nx := congrArg (fun p => p.1.1.1) heq
        rw [hs', Option.elim_some] at hi
        rw [Option.elim_some, hnu, hnx]
        exact hi
  · intro k s' next' hs' hnext' i hi
    obtain ⟨s, hs, heq⟩ := exists_getElem?_of_map_eq hframe hs'
    obtain ⟨next, hnext, heqNext⟩ := exists_getElem?_of_map_eq hframe hnext'
    have hnuNext : next'.nu = next.nu := congrArg (fun p => p.1.1.2) heqNext
    have hnxNext : next'.nx = next.nx := congrArg (fun p => p.1.1.1) heqNext
    rw [hnxNext] at hi
    rw [hnuNext, show s'.nu = s.nu from congrArg (fun p => p.1.1.2) heq,
      show s'.nx = s.nx from congrArg (fun p => p.1.1.1) heq,
      show s'.data = s.data from congrArg (fun p => p.1.2) heq]
    exact h.dynamics k s next hs hnext i hi

end Congr

/-! ## Families that follow the dynamics -/

section Follows

variable {l : List (StageState K)} {b : Nat → LinearPart K} {d d' : Nat → Nat → K}

/-- The difference of two of them follows the dynamics without their offsets. -/
theorem Follows.sub (h : Follows l b d) (h' : Follows l b d') :
    Homogeneous l fun k i => d k i - d' k i := by
  intro k s next hs hnext i hi
  have hdyn := h.dynamics k s next hs hnext i hi
  have hdyn' := h'.dynamics k s next hs hnext i hi
  rw [rowSum_sub]
  linear_combination hdyn - hdyn'

/-- They form an affine space. -/
theorem Follows.combination (h : Follows l b d) (h' : Follows l b d') {p q : K} (hpq : p + q = 1) :
    Follows l b fun k i => p * d k i + q * d' k i := by
  constructor
  · intro k i hi
    simp only [h.support k i hi, h'.support k i hi, mul_zero, add_zero]
  · intro k s next hs hnext i hi
    have hdyn := h.dynamics k s next hs hnext i hi
    have hdyn' := h'.dynamics k s next hs hnext i hi
    have hrow : rowSum s.data.dyn.get (s.nu + s.nx) (fun j => p * d k j + q * d' k j) i =
        p * rowSum s.data.dyn.get (s.nu + s.nx) (d k) i +
          q * rowSum s.data.dyn.get (s.nu + s.nx) (d' k) i := by
      simp only [rowSum, mul_sum, ← sum_add_distrib]
      refine sum_congr rfl fun j _ => ?_
      ring
    rw [hrow]
    linear_combination p * hdyn + q * hdyn' + (b k).offset.get i * hpq

/-- A difference that is zero on all stage vectors is zero. -/
theorem Follows.eq_of_entries (h : Follows l b d) (h' : Follows l b d')
    (heq : ∀ (k : Nat) (s : StageState K), l[k]? = some s → ∀ i < s.nu + s.nx,
      d k i - d' k i = 0) : d = d' := by
  funext k i
  by_cases hi : (l[k]?.elim 0 fun s => s.nu + s.nx) ≤ i
  · rw [h.support k i hi, h'.support k i hi]
  · cases hs : l[k]? with
    | none =>
        rw [hs] at hi
        exact absurd (Nat.zero_le i) hi
    | some s =>
        rw [hs, Option.elim_some] at hi
        exact sub_eq_zero.1 (heq k s hs i (Nat.lt_of_not_le hi))

end Follows

end Riccati

/-! ## Forms between two points -/

/-- What a form lacks, between two points, to the combination of its values. -/
theorem quadForm_combination (a : Nat → Nat → K) (n : Nat) (x y : Nat → K) {p q : K}
    (hpq : p + q = 1) :
    p * quadForm a n x + q * quadForm a n y - quadForm a n (fun i => p * x i + q * y i) =
      p * q * quadForm a n fun i => x i - y i := by
  have hq : q = 1 - p := by linear_combination hpq
  have hrow : ∀ i, rowSum a n (fun j => p * x j + q * y j) i =
      p * rowSum a n x i + q * rowSum a n y i := by
    intro i
    simp only [rowSum, mul_sum, ← sum_add_distrib]
    refine sum_congr rfl fun j _ => ?_
    ring
  simp only [quadForm, mul_sum, ← sum_add_distrib, ← sum_sub_distrib]
  refine sum_congr rfl fun i _ => ?_
  rw [hrow, rowSum_sub, hq]
  ring

namespace Riccati

variable {l : List (StageState K)} {b : Nat → LinearPart K} {d d' : Nat → Nat → K}

/-- The Hessian of a stage with the shift on its controls. -/
def shiftedHess (shift : Nat → K) (k : Nat) (s : StageState K) : Nat → Nat → K :=
  shiftLeading s.nu (shift k) s.condensed.hess.get

theorem quadForm_shiftedHess (shift : Nat → K) (k : Nat) (s : StageState K) (x : Nat → K) :
    quadForm (shiftedHess shift k s) (s.nu + s.nx) x =
      quadForm s.condensed.hess.get (s.nu + s.nx) x + shift k * sumSquares s.nu x :=
  quadForm_shiftLeading _ (Nat.le_add_right ..) x

/-- The cost with the shifts is the cost of the shifted Hessians. -/
theorem shiftedCost_eq (shift : Nat → K) (l : List (StageState K)) (b : Nat → LinearPart K)
    (d : Nat → Nat → K) : shiftedCost shift l b d = indexedSum l fun k s =>
      quadForm (shiftedHess shift k s) (s.nu + s.nx) (d k) / 2 +
        ∑ i ∈ range (s.nu + s.nx), (b k).grad.get i * d k i := by
  rw [shiftedCost, chainCost, ← indexedSum_add]
  refine indexedSum_congr rfl fun k s s' hs hs' => ?_
  obtain rfl := Option.some.inj (hs.symm.trans hs')
  rw [quadForm_shiftedHess, halfForm_eq_quadForm, halfSquares_eq_sumSquares]
  ring

/-- Without shifts it is the cost. -/
theorem shiftedCost_zero (l : List (StageState K)) (b : Nat → LinearPart K)
    (d : Nat → Nat → K) : shiftedCost (fun _ => 0) l b d = chainCost l b d := by
  rw [shiftedCost, indexedSum_mul, zero_mul, add_zero]

/-- The forms of a chain, with the shifts on the controls. -/
def shiftedForm (shift : Nat → K) (l : List (StageState K)) (d : Nat → Nat → K) : K :=
  indexedSum l fun k s => quadForm s.condensed.hess.get (s.nu + s.nx) (d k) +
    shift k * sumSquares s.nu (d k)

/-- What the cost lacks, between two families, to the combination of its values. -/
theorem shiftedCost_combination (shift : Nat → K) (l : List (StageState K))
    (b : Nat → LinearPart K) (d d' : Nat → Nat → K) {p q : K} (hpq : p + q = 1) :
    p * shiftedCost shift l b d + q * shiftedCost shift l b d' -
        shiftedCost shift l b (fun k i => p * d k i + q * d' k i) =
      p * q / 2 * shiftedForm shift l fun k i => d k i - d' k i := by
  have hstage : ∀ (k : Nat) (s : StageState K),
      p * (quadForm (shiftedHess shift k s) (s.nu + s.nx) (d k) / 2 +
        ∑ i ∈ range (s.nu + s.nx), (b k).grad.get i * d k i) +
      q * (quadForm (shiftedHess shift k s) (s.nu + s.nx) (d' k) / 2 +
        ∑ i ∈ range (s.nu + s.nx), (b k).grad.get i * d' k i) =
      (quadForm (shiftedHess shift k s) (s.nu + s.nx) (fun i => p * d k i + q * d' k i) / 2 +
        ∑ i ∈ range (s.nu + s.nx), (b k).grad.get i * (p * d k i + q * d' k i)) +
      p * q / 2 * (quadForm s.condensed.hess.get (s.nu + s.nx) (fun i => d k i - d' k i) +
        shift k * sumSquares s.nu fun i => d k i - d' k i) := by
    intro k s
    have hform := quadForm_combination (shiftedHess shift k s) (s.nu + s.nx) (d k) (d' k) hpq
    have hlinear : ∑ i ∈ range (s.nu + s.nx), (b k).grad.get i * (p * d k i + q * d' k i) =
        p * ∑ i ∈ range (s.nu + s.nx), (b k).grad.get i * d k i +
          q * ∑ i ∈ range (s.nu + s.nx), (b k).grad.get i * d' k i := by
      simp only [mul_sum, ← sum_add_distrib]
      refine sum_congr rfl fun i _ => ?_
      ring
    rw [← quadForm_shiftedHess, hlinear]
    linear_combination hform / 2
  rw [shiftedCost_eq, shiftedCost_eq, shiftedCost_eq, ← indexedSum_mul, ← indexedSum_mul,
    ← indexedSum_add, shiftedForm, ← indexedSum_mul, sub_eq_iff_eq_add', ← indexedSum_add]
  refine indexedSum_congr rfl fun k s s' hs hs' => ?_
  obtain rfl := Option.some.inj (hs.symm.trans hs')
  exact hstage k s

end Riccati

/-! ## The cost about the answer -/

variable [LinearOrder K] [SquareRoot K]

omit [LinearOrder K] [SquareRoot K] in
theorem StageState.deviation_sub (s : StageState K) (v w : Nat → K) (i : Nat) :
    s.deviation (fun i => v i - w i) i = s.deviation v i - s.deviation w i := by
  simp only [deviation, rowSum_sub]
  ring

/-- The controls of an answer add the feedforward control to the answer of the feedback law. -/
theorem SolvedChain.deviation_dv {l : List (StageState K)} (hd : SolvedChain l)
    (hl : HorizonShaped l) {k : Nat} {s : StageState K} (hs : l[k]? = some s) {i : Nat}
    (hi : i < s.nu) : s.deviation s.direction.dv.get i = s.riccati.feed.get i := by
  obtain ⟨next, hnext⟩ := hl.exists_next hs (by omega)
  have hshape := hl.chained k s hs
  have hp := hd.pulled.inner k s next hs hnext
  have hdv := (hd.rolled.inner k s next hs hnext).1
  have hstates : rowSum s.riccati.gain.get s.nx (fun j => s.direction.dv.get (s.nu + j)) i =
      rowSum s.riccati.gain.get s.nx (entering Vec.empty l k).get i :=
    rowSum_congr _ i fun j _ => hd.get_states hl.chained hs j
  rw [StageState.deviation, hstates, StageState.get_dv_control hshape hp hdv hi]
  ring

namespace Riccati

/-- The multipliers before stage `k`, applied to the states of a family of stage vectors. -/
def carried (l : List (StageState K)) (d : Nat → Nat → K) (k : Nat) : K :=
  l[k]?.elim 0 fun s => ∑ j ∈ range s.nx, (dpiBefore l k).get j * d k (s.nu + j)

omit [LinearOrder K] [SquareRoot K] in
theorem directions_eq {l : List (StageState K)} {k : Nat} {s : StageState K}
    (hs : l[k]? = some s) : directions l k = s.direction.dv.get := by
  funext i
  rw [directions, hs, Option.elim_some]

namespace Answered

variable {l l' : List (StageState K)} {b : Nat → LinearPart K} (h : Answered l b l')

include h

/-- An answer follows the dynamics. -/
theorem follows : Follows l' b (directions l') := by
  constructor
  · intro k i hi
    cases hs : l'[k]? with
    | none => rw [directions, hs, Option.elim_none]
    | some s =>
        rw [hs, Option.elim_some] at hi
        rw [directions_eq hs]
        exact Vec.get_of_size_le (by rw [h.solved.size_dv h.shaped hs]; exact hi)
  · intro k s next hs hnext i hi
    have hrows : i < s.data.dyn.rows := by
      rw [(h.shaped.chained k s hs).dyn_rows, nextNx, hnext]
      exact hi
    have hafter := h.solved.get_dxAfter h.shaped.chained hs hrows
    rw [dxAfter_of_next hnext, Vec.get_slice_of_lt _ _ hi, (h.linear k s hs).2] at hafter
    rw [directions_eq hnext, directions_eq hs, hafter, add_comm]

variable {d : Nat → Nat → K}

/-- The rows of the block system trade the slope of the cost for multipliers of the dynamics. -/
theorem slope [ExactRoots K] [IsStrictOrderedRing K] (hd : Homogeneous l' d) {k : Nat}
    {s : StageState K} (hs : l'[k]? = some s) : ∑ i ∈ range (s.nu + s.nx),
      (rowSum (shiftedHess (factorize l).shiftAt k s) (s.nu + s.nx) (directions l' k) i +
        (b k).grad.get i) * d k i = carried l' d k - carried l' d (k + 1) := by
  have hshape := h.shaped.chained k s hs
  have hrow : ∀ i ∈ range (s.nu + s.nx),
      (rowSum (shiftedHess (factorize l).shiftAt k s) (s.nu + s.nx) (directions l' k) i +
        (b k).grad.get i) * d k i =
      (if i < s.nu then 0 else (dpiBefore l' k).get (i - s.nu)) * d k i -
        colSum s.data.dyn.get s.data.dyn.rows s.direction.dpi.get i * d k i := by
    intro i hi
    have hcondensed := h.solved.condensed_rows h.shaped h.swept h.symmetric hs (mem_range.1 hi)
    rw [(h.linear k s hs).1] at hcondensed
    rw [directions_eq hs, shiftedHess, rowSum_shiftLeading _ _ (mem_range.1 hi), Sweep.shiftAt]
    by_cases hiu : i < s.nu
    · rw [if_pos hiu] at hcondensed
      rw [if_pos hiu, if_pos hiu]
      linear_combination d k i * hcondensed
    · rw [if_neg hiu] at hcondensed
      rw [if_neg hiu, if_neg hiu]
      linear_combination d k i * hcondensed
  have hbefore : ∑ i ∈ range (s.nu + s.nx),
      (if i < s.nu then 0 else (dpiBefore l' k).get (i - s.nu)) * d k i = carried l' d k := by
    rw [carried, hs, Option.elim_some, sum_range_add]
    have hcontrols : ∑ i ∈ range s.nu,
        (if i < s.nu then 0 else (dpiBefore l' k).get (i - s.nu)) * d k i = 0 := by
      apply sum_eq_zero
      intro i hi
      rw [if_pos (mem_range.1 hi), zero_mul]
    rw [hcontrols, zero_add]
    refine sum_congr rfl fun j _ => ?_
    rw [if_neg (by omega), Nat.add_sub_cancel_left]
  have hafter : ∑ i ∈ range (s.nu + s.nx),
      colSum s.data.dyn.get s.data.dyn.rows s.direction.dpi.get i * d k i =
        carried l' d (k + 1) := by
    rw [← sum_mul_rowSum, hshape.dyn_rows, nextNx, carried]
    cases hnext : l'[k + 1]? with
    | none => rw [Option.elim_none, Option.elim_none, range_zero, sum_empty]
    | some next =>
        rw [Option.elim_some, Option.elim_some, dpiBefore_succ hs]
        refine sum_congr rfl fun j hj => ?_
        rw [hd k s next hs hnext j (mem_range.1 hj)]
  rw [sum_congr rfl hrow, sum_sub_distrib, hbefore, hafter]

/-- What a family that follows the dynamics costs more than the answer. -/
theorem shiftedCost_excess [ExactRoots K] [IsStrictOrderedRing K] (hd : Follows l' b d) :
    shiftedCost (factorize l).shiftAt l' b d -
        shiftedCost (factorize l).shiftAt l' b (directions l') =
      shiftedForm (factorize l).shiftAt l' (fun k i => d k i - directions l' k i) / 2 := by
  set δ : Nat → Nat → K := fun k i => d k i - directions l' k i with hδ
  have hhomogeneous : Homogeneous l' δ := hd.sub h.follows
  have hfirst : carried l' δ 0 = 0 := by
    rw [carried]
    cases hs : l'[0]? with
    | none => rfl
    | some s => rw [Option.elim_some, h.shaped.first s hs, range_zero, sum_empty]
  have hend : carried l' δ l'.length = 0 := by
    rw [carried, List.getElem?_eq_none le_rfl, Option.elim_none]
  have htelescope : indexedSum l' (fun k _ => carried l' δ (k + 1) - carried l' δ k) = 0 := by
    rw [indexedSum_differences, hfirst, hend, sub_zero]
  have hstage : shiftedCost (factorize l).shiftAt l' b d +
      indexedSum l' (fun k _ => carried l' δ (k + 1) - carried l' δ k) =
        shiftedCost (factorize l).shiftAt l' b (directions l') +
          1 / 2 * shiftedForm (factorize l).shiftAt l' δ := by
    rw [shiftedCost_eq, shiftedCost_eq, shiftedForm, ← indexedSum_mul, ← indexedSum_add,
      ← indexedSum_add]
    refine indexedSum_congr rfl fun k s s' hs hs' => ?_
    obtain rfl := Option.some.inj (hs.symm.trans hs')
    have hsymm := (h.symmetric s (List.mem_of_getElem? hs)).symm
    have hexpand : quadForm (shiftedHess (factorize l).shiftAt k s) (s.nu + s.nx) (d k) =
        quadForm (shiftedHess (factorize l).shiftAt k s) (s.nu + s.nx) (directions l' k) +
          2 * ∑ i ∈ range (s.nu + s.nx), rowSum (shiftedHess (factorize l).shiftAt k s)
            (s.nu + s.nx) (directions l' k) i * (d k i - directions l' k i) +
          quadForm (shiftedHess (factorize l).shiftAt k s) (s.nu + s.nx) (δ k) :=
      quadForm_expansion (hsymm.shiftLeading _) (directions l' k) (d k)
    have hslope := h.slope hhomogeneous hs
    have hsplit : ∑ i ∈ range (s.nu + s.nx),
        (rowSum (shiftedHess (factorize l).shiftAt k s) (s.nu + s.nx) (directions l' k) i +
          (b k).grad.get i) * δ k i =
        ∑ i ∈ range (s.nu + s.nx), rowSum (shiftedHess (factorize l).shiftAt k s)
          (s.nu + s.nx) (directions l' k) i * (d k i - directions l' k i) +
        (∑ i ∈ range (s.nu + s.nx), (b k).grad.get i * d k i -
          ∑ i ∈ range (s.nu + s.nx), (b k).grad.get i * directions l' k i) := by
      rw [← sum_sub_distrib, ← sum_add_distrib]
      refine sum_congr rfl fun i _ => ?_
      ring
    rw [hsplit] at hslope
    rw [← quadForm_shiftedHess]
    linear_combination hexpand / 2 + hslope
  rw [htelescope, add_zero] at hstage
  rw [hstage]
  ring

/-- The form of the difference is that of the shifted control blocks, at what the controls add to
the answer of the affine feedback law. -/
theorem shiftedForm_eq [ExactRoots K] [IsStrictOrderedRing K] (hd : Follows l' b d) :
    shiftedForm (factorize l).shiftAt l' (fun k i => d k i - directions l' k i) =
      indexedSum l' fun k s => quadForm (shiftDiagonal ((factorize l).shiftAt k)
        s.controlBlock.get) s.nu (s.controlGap (d k)) := by
  refine (h.swept.form_eq h.shaped h.symmetric (hd.sub h.follows)).trans ?_
  refine indexedSum_congr rfl fun k s s' hs hs' => ?_
  obtain rfl := Option.some.inj (hs.symm.trans hs')
  refine quadForm_congr _ fun i hi => ?_
  rw [StageState.deviation_sub, directions_eq hs, h.solved.deviation_dv h.shaped hs hi]
  rfl

/-- The form of the difference of two families that follow the dynamics is positive. -/
theorem shiftedForm_pos [ExactRoots K] [IsStrictOrderedRing K] {d' : Nat → Nat → K}
    (hd : Follows l' b d) (hd' : Follows l' b d') (hne : d ≠ d') :
    0 < shiftedForm (factorize l).shiftAt l' fun k i => d k i - d' k i := by
  have hform := h.swept.form_nonneg h.shaped h.symmetric (hd.sub hd')
  refine lt_of_le_of_ne hform fun hzero => hne ?_
  apply hd.eq_of_entries hd'
  exact h.swept.eq_zero_of_form h.shaped h.symmetric (hd.sub hd') hzero.symm

/-- Along the dynamics the cost with the shifts is strictly convex. -/
theorem strictConvexOn [ExactRoots K] [IsStrictOrderedRing K] :
    StrictConvexOn K {d | Follows l' b d} (shiftedCost (factorize l).shiftAt l' b) := by
  refine ⟨fun d hd d' hd' p q _ _ hpq => ?_, fun d hd d' hd' hne p q hp hq hpq => ?_⟩
  · exact hd.combination hd' hpq
  · have hpos := h.shiftedForm_pos hd hd' hne
    have hgap := shiftedCost_combination (factorize l).shiftAt l' b d d' hpq
    have hlack : 0 < p * q / 2 * shiftedForm (factorize l).shiftAt l' fun k i =>
        d k i - d' k i := mul_pos (half_pos (mul_pos hp hq)) hpos
    rw [← hgap] at hlack
    exact sub_pos.1 hlack

/-- The answer is the minimizer. -/
theorem solves [ExactRoots K] [IsStrictOrderedRing K] :
    Solves (shiftedCost (factorize l).shiftAt l' b) l' b (directions l') := by
  refine ⟨h.follows, fun d hd hne => ?_⟩
  have hpos := h.shiftedForm_pos hd h.follows hne
  have hexcess := h.shiftedCost_excess hd
  linarith

end Answered

/-! ## The answer of any number of calls -/

/-- Strict convexity and the minimizer are those of the chain before the factorization. -/
theorem Answered.before {l l' : List (StageState K)} {b : Nat → LinearPart K}
    (h : Answered l b l') : {d | Follows l' b d} = {d | Follows l b d} ∧
      ∀ shift, shiftedCost shift l' b = shiftedCost shift l b := by
  have hframe := sweptFrom_of_unposed h.frame
  refine ⟨Set.ext fun d => ⟨fun hd => ?_, fun hd => ?_⟩, fun shift => funext fun d => ?_⟩
  · exact Follows.congr hframe.symm hd
  · exact Follows.congr hframe hd
  · exact shiftedCost_congr hframe shift d

end Riccati

/-- **The answer is the unique minimizer, even for indefinite Hessians.** Let the backward sweep
over a chain with symmetric Hessians succeed. Along the dynamics the cost with the shifts of the
sweep is strictly convex, and after any number of calls the directions are its minimizer for the
last linear part. What any other family costs more is the form of the shifted control blocks at what
its controls add to the answer of the feedback law. If no control block was shifted, this is the
cost itself. -/
theorem solveEach_minimizes [ExactRoots K] [IsStrictOrderedRing K] {l l' : List (StageState K)}
    (hl : HorizonShaped l) (hsymm : ∀ s ∈ l, s.CondensedSymmetric)
    (hok : (Riccati.factorize l).failed = none) (earlier : List (Nat → LinearPart K))
    (b : Nat → LinearPart K)
    (hb : ∀ (k : Nat) (s : StageState K), l[k]? = some s → (b k).Fits (nextNx l k) s)
    (hcalls : Riccati.solveEach (Riccati.factorize l).stages (earlier ++ [b]) = l') :
    Riccati.Solves (Riccati.shiftedCost (Riccati.factorize l).shiftAt l b) l b
        (Riccati.directions l') ∧
      (∀ d, Riccati.Follows l b d →
        Riccati.shiftedCost (Riccati.factorize l).shiftAt l b d -
            Riccati.shiftedCost (Riccati.factorize l).shiftAt l b (Riccati.directions l') =
          indexedSum l' (fun k s => quadForm (shiftDiagonal ((Riccati.factorize l).shiftAt k)
            s.controlBlock.get) s.nu (s.controlGap (d k))) / 2 ∧
        (d ≠ Riccati.directions l' →
          0 < indexedSum l' fun k s => quadForm (shiftDiagonal ((Riccati.factorize l).shiftAt k)
            s.controlBlock.get) s.nu (s.controlGap (d k)))) ∧
      StrictConvexOn K {d | Riccati.Follows l b d}
        (Riccati.shiftedCost (Riccati.factorize l).shiftAt l b) ∧
      ((∀ k, (Riccati.factorize l).shiftAt k = 0) →
        StrictConvexOn K {d | Riccati.Follows l b d} (Riccati.chainCost l b) ∧
          Riccati.Solves (Riccati.chainCost l b) l b (Riccati.directions l')) := by
  have hanswered := Riccati.answered_solveEach hl hsymm hok hb earlier
  rw [hcalls] at hanswered
  obtain ⟨hfollows, hcost⟩ := hanswered.before
  have hmem : ∀ d, Riccati.Follows l b d → Riccati.Follows l' b d := fun d hd => by
    have hd' : d ∈ {d | Riccati.Follows l b d} := hd
    rwa [← hfollows] at hd'
  have hconvex := hanswered.strictConvexOn
  rw [hfollows, hcost] at hconvex
  have hsolves : Riccati.Solves (Riccati.shiftedCost (Riccati.factorize l).shiftAt l b) l b
      (Riccati.directions l') := by
    have hsolves' := hanswered.solves
    rw [hcost] at hsolves'
    have hd : Riccati.directions l' ∈ {d | Riccati.Follows l b d} := hfollows ▸ hsolves'.follows
    exact ⟨hd, fun d hd => hsolves'.least d (hmem d hd)⟩
  refine ⟨hsolves, fun d hd => ⟨?_, fun hne => ?_⟩, hconvex, fun hshift => ?_⟩
  · have hexcess := hanswered.shiftedCost_excess (hmem d hd)
    rwa [hcost, hanswered.shiftedForm_eq (hmem d hd)] at hexcess
  · rw [← hanswered.shiftedForm_eq (hmem d hd)]
    exact hanswered.shiftedForm_pos (hmem d hd) (hmem _ hsolves.follows) hne
  · have hzero : Riccati.shiftedCost (Riccati.factorize l).shiftAt l b =
        Riccati.chainCost l b := by
      funext d
      rw [funext hshift, Riccati.shiftedCost_zero]
    rw [hzero] at hconvex hsolves
    exact ⟨hconvex, hsolves⟩

/-- For instance `minimize -½ u² + x²  subject to  x = u + 1`, after a call for another linear
part: no control block is shifted, and the answer is the minimizer of the cost itself. -/
theorem solveEach_minimizes_pushed :
    Riccati.Solves (Riccati.chainCost ((Horizon.pushed (-1 : ℝ) 2).stages.map Stage.uncondensed)
        (LinearPart.pair 0 1 0))
      ((Horizon.pushed (-1 : ℝ) 2).stages.map Stage.uncondensed) (LinearPart.pair 0 1 0)
      (Riccati.directions (Riccati.solveEach (Horizon.pushed (-1 : ℝ) 2).ownSweep.stages
        ([LinearPart.pair 1 1 1] ++ [LinearPart.pair 0 1 0]))) := by
  have hclean := Horizon.clean_pushed (r := (-1 : ℝ)) (q := 2) (by norm_num)
  obtain ⟨_, _, _, hunshifted⟩ :=
    solveEach_minimizes (Horizon.pushed (-1 : ℝ) 2).horizonShaped_uncondensed
      Horizon.symmetric_pushed.uncondensed hclean.failed [LinearPart.pair 1 1 1]
      (LinearPart.pair 0 1 0) (LinearPart.fits_pair 0 1 0 rfl rfl rfl) rfl
  exact (hunshifted hclean.shiftAt_eq).2

/-! ## A cost without a minimizer -/

omit [LinearOrder K] [SquareRoot K] in
/-- A stage without data has no Hessian and no dynamics. -/
theorem PackedStage.get_zeros (nx nu nxNext i j : Nat) :
    (ofStage (Stage.zeros nx nu nxNext : Stage K)).hess.get i j = 0 ∧
      (ofStage (Stage.zeros nx nu nxNext : Stage K)).dyn.get i j = 0 := by
  have hA : ∀ i j, (Stage.zeros nx nu nxNext : Stage K).A.get i j = 0 := Mat.get_zeros _ _
  have hB : ∀ i j, (Stage.zeros nx nu nxNext : Stage K).B.get i j = 0 := Mat.get_zeros _ _
  have hQ : ∀ i j, (Stage.zeros nx nu nxNext : Stage K).Q.get i j = 0 := Mat.get_zeros _ _
  have hS : ∀ i j, (Stage.zeros nx nu nxNext : Stage K).S.get i j = 0 := Mat.get_zeros _ _
  have hR : ∀ i j, (Stage.zeros nx nu nxNext : Stage K).R.get i j = 0 := Mat.get_zeros _ _
  constructor
  · simp only [ofStage, Mat.get_ofFn, hQ, hS, hR, ite_self]
  · simp only [ofStage, Mat.get_ofFn, hA, hB, ite_self]

theorem StageState.quadForm_zeros (nx nu nxNext n : Nat) (x : Nat → K) :
    quadForm (Stage.zeros nx nu nxNext : Stage K).uncondensed.condensed.hess.get n x = 0 := by
  have hzero : ∀ i j, (Stage.zeros nx nu nxNext : Stage K).uncondensed.condensed.hess.get i j =
      0 := fun i j => (PackedStage.get_zeros nx nu nxNext i j).1
  simp only [quadForm, rowSum, hzero, zero_mul, sum_const_zero, mul_zero]

namespace Horizon

/-- The stages of the idle horizon, with their own Hessians. -/
noncomputable def idleStages : List (StageState ℝ) := idle.stages.map Stage.uncondensed

/-- The control `u` and nothing else. -/
def idleControl (u : ℝ) (k i : Nat) : ℝ := if k = 0 ∧ i = 0 then u else 0

/-- Whatever the control, the state stays at zero. -/
theorem follows_idleControl (u : ℝ) :
    Riccati.Follows idleStages (LinearPart.pair 1 0 0) (idleControl u) := by
  constructor
  · intro k i hi
    by_cases hk : k = 0
    · subst hk
      have hi' : 1 ≤ i := hi
      rw [idleControl, if_neg (by omega)]
    · rw [idleControl, if_neg (by omega)]
  · intro k s next hs hnext i hi
    match k with
    | 0 =>
        obtain rfl := Option.some.inj hs
        have hzero : ∀ i j, (Stage.zeros 0 1 1 : Stage ℝ).uncondensed.data.dyn.get i j = 0 :=
          fun i j => (PackedStage.get_zeros 0 1 1 i j).2
        have hrow : rowSum (Stage.zeros 0 1 1 : Stage ℝ).uncondensed.data.dyn.get 1
            (idleControl u 0) i = 0 := by
          simp only [rowSum, hzero, zero_mul, sum_const_zero]
        obtain rfl := Option.some.inj hnext
        obtain rfl : i = 0 := Nat.lt_one_iff.1 hi
        refine Eq.trans ?_ (congrArg (· + (0 : ℝ)) hrow).symm
        rw [idleControl, if_neg (by omega), add_zero]
    | k + 1 => cases hnext

/-- The cost is the control. -/
theorem chainCost_idle (d : Nat → Nat → ℝ) :
    Riccati.chainCost idleStages (LinearPart.pair 1 0 0) d = d 0 0 := by
  have hsum : ∀ f : Nat → StageState ℝ → ℝ, indexedSum idleStages f =
      f 0 (Stage.zeros 0 1 1).uncondensed + f 1 (Stage.zeros 1 0 0).uncondensed := by
    intro f
    show ∑ k ∈ range 2, _ = _
    rw [sum_range_succ, sum_range_one]
    rfl
  rw [Riccati.chainCost, hsum, halfForm_eq_quadForm, halfForm_eq_quadForm,
    StageState.quadForm_zeros, StageState.quadForm_zeros]
  show 0 / 2 + ∑ i ∈ range 1, (LinearPart.pair (1 : ℝ) 0 0 0).grad.get i * d 0 i +
    (0 / 2 + ∑ i ∈ range 1, (LinearPart.pair (1 : ℝ) 0 0 1).grad.get i * d 1 i) = _
  rw [sum_range_one, sum_range_one, show (LinearPart.pair (1 : ℝ) 0 0 0).grad.get 0 = 1 from rfl,
    show (LinearPart.pair (1 : ℝ) 0 0 1).grad.get 0 = 0 from rfl]
  ring

/-- The sweep over the idle stages succeeds, since they are convex. -/
theorem swept_idle : (Riccati.factorize idleStages).failed = none := by
  have hshaped : HorizonShaped idleStages := idle.horizonShaped_uncondensed
  refine (Riccati.convex_factorizeFrom idleStages 0 hshaped.chained ?_ hshaped.last).1
  have hconvex : ∀ nx nu nxNext : Nat,
      (Stage.zeros nx nu nxNext : Stage ℝ).uncondensed.CondensedConvex := by
    intro nx nu nxNext
    refine ⟨rfl, rfl, fun i _ j _ => ?_, fun x => ?_⟩
    · exact (PackedStage.get_zeros nx nu nxNext i j).1.trans
        (PackedStage.get_zeros nx nu nxNext j i).1.symm
    · rw [StageState.quadForm_zeros]
  intro s hmem
  have hpair : s ∈ [(Stage.zeros 0 1 1).uncondensed, (Stage.zeros 1 0 0).uncondensed] := hmem
  rcases List.mem_pair.1 hpair with rfl | rfl
  · exact hconvex 0 1 1
  · exact hconvex 1 0 0

end Horizon

/-- The control of the idle horizon has no weight, so a cost of it has neither a minimizer nor any
curvature. The sweep succeeds all the same: it shifts the control block. -/
theorem chainCost_unbounded_idle :
    (Riccati.factorize Horizon.idleStages).failed = none ∧
      ¬ StrictConvexOn ℝ {d | Riccati.Follows Horizon.idleStages (LinearPart.pair 1 0 0) d}
        (Riccati.chainCost Horizon.idleStages (LinearPart.pair 1 0 0)) ∧
      ¬ ∃ v, Riccati.Solves (Riccati.chainCost Horizon.idleStages (LinearPart.pair 1 0 0))
        Horizon.idleStages (LinearPart.pair 1 0 0) v := by
  refine ⟨Horizon.swept_idle, fun hconvex => ?_, fun ⟨v, hv⟩ => ?_⟩
  · have hne : Horizon.idleControl 0 ≠ Horizon.idleControl 2 := by
      intro heq
      have hvalue := congrFun (congrFun heq 0) 0
      simp [Horizon.idleControl] at hvalue
    have hhalf : (1 / 2 : ℝ) + 1 / 2 = 1 := by norm_num
    have hlt := hconvex.2 (Horizon.follows_idleControl 0) (Horizon.follows_idleControl 2) hne
      one_half_pos one_half_pos hhalf
    rw [Horizon.chainCost_idle, Horizon.chainCost_idle, Horizon.chainCost_idle] at hlt
    simp [Horizon.idleControl] at hlt
  · have hless : Horizon.idleControl (v 0 0 - 1) ≠ v := by
      intro heq
      have hvalue := congrFun (congrFun heq 0) 0
      simp [Horizon.idleControl] at hvalue
    have hlt := hv.least _ (Horizon.follows_idleControl (v 0 0 - 1)) hless
    rw [Horizon.chainCost_idle, Horizon.chainCost_idle] at hlt
    simp [Horizon.idleControl] at hlt
    linarith

end StagedQP
