import StagedQP.Proofs.ConvexSweep
import StagedQP.Proofs.NewtonRows

/-!
# The form of a chain along its dynamics

The Hessian of a stage may be indefinite, and so may the sum of the forms of all stages. Along
directions that follow the dynamics it is not, once a backward sweep has gone through, if what the
sweep added to the diagonals of the control blocks is counted in. Completing the square at a stage
with control block `M`, shift `s` and feedback gain `G` gives

```text
[u; x]ᵀ total [u; x] + s |u|² = xᵀ cost x + (u - G x)ᵀ (M + s I) (u - G x)
```

and since `total` is the stage's own Hessian plus the cost-to-go of the stage after, pulled back,
the costs-to-go cancel between neighbours:

```text
Σ_k d_kᵀ hess_k d_k + s_k |u_k|² = Σ_k (u_k - G_k x_k)ᵀ (M_k + s_k I) (u_k - G_k x_k),

d_k = [u_k; x_k]
```

Every `M_k + s_k I` has a factor with a positive diagonal, so it is positive definite. The sum is
therefore not negative, and it is zero only if all controls follow the feedback law; then, since the
first stage has no states, nothing moves at all.

## Main results

* `Cholesky.Factors.definite` — what has a factor is positive definite.
* `StageState.Swept.total_square` — the square completed at one stage.
* `SweptChain.form_eq` — the sum over a chain.
* `SweptChain.form_nonneg`, `SweptChain.eq_zero_of_form` — it is positive definite.
-/

namespace StagedQP

open Finset

variable {K : Type} [Field K] [LinearOrder K]

/-! ## Positive definite tables -/

/-- The table is positive definite on its first `n` rows and columns. -/
structure DefiniteUpTo (n : Nat) (a : Nat → Nat → K) : Prop where
  /-- No value of the form is negative. -/
  nonneg : ∀ x, 0 ≤ quadForm a n x
  /-- Its only zero is zero. -/
  eq_zero : ∀ x, quadForm a n x = 0 → ∀ i < n, x i = 0

omit [LinearOrder K] in
/-- What is orthogonal to the columns of a triangular table is zero: from the last entry backward,
each column adds one entry that the columns after it do not reach. -/
theorem eq_zero_of_colSum {l : Nat → Nat → K} {n : Nat} (hlow : ∀ i k, i < k → l i k = 0)
    (hdiag : ∀ i < n, l i i ≠ 0) {x : Nat → K} (hx : ∀ k < n, colSum l n x k = 0) :
    ∀ m i, n ≤ i + m → i < n → x i = 0 := by
  intro m
  induction m with
  | zero =>
      intro i hm hi
      omega
  | succ m ih =>
      intro i hm hi
      have hterm : colSum l n x i = l i i * x i := by
        apply sum_eq_single i
        · intro j hj hne
          by_cases hji : j < i
          · rw [hlow j i hji, zero_mul]
          · rw [ih j (by omega) (mem_range.1 hj), mul_zero]
        · intro hnot
          exact absurd (mem_range.2 hi) hnot
      have hzero : l i i * x i = 0 := hterm ▸ hx i hi
      exact (mul_eq_zero.1 hzero).resolve_left (hdiag i hi)

/-- What has a factor is positive definite. -/
theorem Cholesky.Factors.definite [SquareRoot K] [IsStrictOrderedRing K] {c : Cholesky K}
    {m : Nat → Nat → K} {n : Nat} (h : c.Factors m n) : DefiniteUpTo n m := by
  have hform : ∀ x, quadForm m n x = sumSquares n (colSum c.lower.get n x) := by
    intro x
    rw [quadForm_congr_table x h.prod, quadForm_gram]
  constructor
  · intro x
    rw [hform]
    exact sumSquares_nonneg _ _
  · intro x hx
    rw [hform, sumSquares, sum_eq_zero_iff_of_nonneg fun i _ => mul_self_nonneg _] at hx
    have hcolumn : ∀ k < n, colSum c.lower.get n x k = 0 := fun k hk =>
      mul_self_eq_zero.1 (hx k (mem_range.2 hk))
    exact fun i hi => eq_zero_of_colSum h.above (fun j hj => (h.diag j hj).ne') hcolumn n i
      (Nat.le_add_left ..) hi

/-! ## Shifted controls -/

/-- The table with `shift` added on the diagonal of its first `m` rows. -/
def shiftLeading (m : Nat) (shift : K) (a : Nat → Nat → K) (i j : Nat) : K :=
  if i < m then shiftDiagonal shift a i j else a i j

section ShiftLeading

variable {m n : Nat} {a : Nat → Nat → K} (shift : K)

omit [LinearOrder K] in
theorem rowSum_shiftLeading (x : Nat → K) {i : Nat} (hi : i < n) :
    rowSum (shiftLeading m shift a) n x i =
      rowSum a n x i + if i < m then shift * x i else 0 := by
  by_cases him : i < m
  · have hrow : ∀ j < n, shiftLeading m shift a i j = shiftDiagonal shift a i j :=
      fun j _ => if_pos him
    rw [rowSum_congr_table x i hrow, rowSum_shiftDiagonal shift a x hi, if_pos him]
  · have hrow : ∀ j < n, shiftLeading m shift a i j = a i j := fun j _ => if_neg him
    rw [rowSum_congr_table x i hrow, if_neg him, add_zero]

omit [LinearOrder K] in
/-- It adds the square of the first `m` entries to the form. -/
theorem quadForm_shiftLeading (hmn : m ≤ n) (x : Nat → K) :
    quadForm (shiftLeading m shift a) n x = quadForm a n x + shift * sumSquares m x := by
  have hsquares : ∑ i ∈ range n, x i * (if i < m then shift * x i else 0) =
      shift * sumSquares m x := by
    rw [sumSquares, mul_sum, ← sum_subset (range_mono hmn) fun i _ hi => ?_]
    · refine sum_congr rfl fun i hi => ?_
      rw [if_pos (mem_range.1 hi)]
      ring
    · rw [if_neg fun h => hi (mem_range.2 h), mul_zero]
  rw [quadForm, quadForm, ← hsquares, ← sum_add_distrib]
  refine sum_congr rfl fun i hi => ?_
  rw [rowSum_shiftLeading shift x (mem_range.1 hi), mul_add]

omit [LinearOrder K] in
theorem SymmetricUpTo.shiftLeading (h : SymmetricUpTo n a) :
    SymmetricUpTo n (shiftLeading m shift a) := by
  intro i hi j hj
  by_cases hij : i = j
  · rw [hij]
  · have hoff : ∀ {i j : Nat}, i ≠ j → StagedQP.shiftLeading m shift a i j = a i j := by
      intro i j hne
      simp only [StagedQP.shiftLeading, StagedQP.shiftDiagonal, if_neg hne, ite_self]
    rw [hoff hij, hoff (Ne.symm hij), h i hi j hj]

end ShiftLeading

variable [SquareRoot K]

/-! ## One stage -/

namespace StageState

/-- What the controls of a stage vector add to the answer of the feedback law. -/
def deviation (s : StageState K) (v : Nat → K) (i : Nat) : K :=
  v i - rowSum s.riccati.gain.get s.nx (fun j => v (s.nu + j)) i

variable {s : StageState K} {next : Mat K} {shift : Option K}

omit [LinearOrder K] [SquareRoot K] in
/-- A stage vector is the answer to its states, plus the deviation. -/
theorem sub_answer (s : StageState K) (v : Nat → K) : (fun i => v i - stageVector s.nu
    (rowSum s.riccati.gain.get s.nx fun j => v (s.nu + j)) (fun j => v (s.nu + j)) i) =
      stageVector s.nu (s.deviation v) fun _ => 0 := by
  funext i
  by_cases hi : i < s.nu
  · rw [stageVector_control _ _ hi, stageVector_control _ _ hi, deviation]
  · obtain ⟨j, rfl⟩ : ∃ j, i = s.nu + j := ⟨i - s.nu, by omega⟩
    rw [stageVector_state, stageVector_state, sub_self]

/-- The square completed: with the shift on the controls, the total form is the form of the
cost-to-go at the states, plus the form of the shifted control block at the deviation. -/
theorem Swept.total_square [ExactRoots K] [IsStrictOrderedRing K] (h : s.Swept next shift)
    (hsymm : SymmetricUpTo (s.nu + s.nx) s.riccati.total.get) (v : Nat → K) :
    quadForm s.riccati.total.get (s.nu + s.nx) v + shift.getD 0 * sumSquares s.nu v =
      quadForm s.riccati.cost.get s.nx (fun j => v (s.nu + j)) +
        quadForm (shiftDiagonal (shift.getD 0) s.controlBlock.get) s.nu (s.deviation v) := by
  set x : Nat → K := fun j => v (s.nu + j) with hx
  set y : Nat → K := stageVector s.nu (rowSum s.riccati.gain.get s.nx x) x with hy
  have hdifference : (fun i => v i - y i) = stageVector s.nu (s.deviation v) fun _ => 0 :=
    s.sub_answer v
  have hle : s.nu ≤ s.nu + s.nx := Nat.le_add_right ..
  have hsquares : ∀ u : Nat → K, ∀ z : Nat → K,
      sumSquares s.nu (stageVector s.nu u z) = sumSquares s.nu u := by
    intro u z
    refine sum_congr rfl fun i hi => ?_
    rw [stageVector_control _ _ (mem_range.1 hi)]
  -- the control rows of the shifted table vanish at the answer; the deviation is one of controls
  have hcross : ∑ i ∈ range (s.nu + s.nx),
      rowSum (shiftLeading s.nu (shift.getD 0) s.riccati.total.get) (s.nu + s.nx) y i *
        (v i - y i) = 0 := by
    apply sum_eq_zero
    intro i hi
    rw [rowSum_shiftLeading _ _ (mem_range.1 hi)]
    by_cases hiu : i < s.nu
    · have hrow := h.rowSum_total_answer hsymm x hiu
      rw [if_pos hiu, hy, hrow, stageVector_control _ _ hiu, neg_add_cancel, zero_mul]
    · obtain ⟨j, rfl⟩ : ∃ j, i = s.nu + j := ⟨i - s.nu, by omega⟩
      rw [hy, stageVector_state, hx, sub_self, mul_zero]
  have hanswer : quadForm s.riccati.total.get (s.nu + s.nx) y +
      shift.getD 0 * sumSquares s.nu y = quadForm s.riccati.cost.get s.nx x := by
    rw [hy, hsquares, ← h.cost_form hsymm x]
  have hcontrol : quadForm s.riccati.total.get (s.nu + s.nx) (fun i => v i - y i) +
      shift.getD 0 * sumSquares s.nu (fun i => v i - y i) =
        quadForm (shiftDiagonal (shift.getD 0) s.controlBlock.get) s.nu (s.deviation v) := by
    rw [hdifference, hsquares, total_form_control, quadForm_shiftDiagonal]
  rw [← quadForm_shiftLeading _ hle, quadForm_expansion (hsymm.shiftLeading _) y v, hcross,
    mul_zero, add_zero, quadForm_shiftLeading _ hle, quadForm_shiftLeading _ hle, hanswer, hcontrol]

omit [LinearOrder K] [SquareRoot K] in
/-- Controls that follow the feedback law rest when the states do. -/
theorem eq_zero_of_deviation {v : Nat → K} (hfollow : ∀ i < s.nu, s.deviation v i = 0)
    (hrest : ∀ j < s.nx, v (s.nu + j) = 0) : ∀ i < s.nu + s.nx, v i = 0 := by
  intro i hi
  by_cases hiu : i < s.nu
  · have hanswer : rowSum s.riccati.gain.get s.nx (fun j => v (s.nu + j)) i = 0 := by
      apply sum_eq_zero
      intro j hj
      exact mul_eq_zero_of_right _ (hrest j (mem_range.1 hj))
    have hfollows := hfollow i hiu
    rwa [deviation, hanswer, sub_zero] at hfollows
  · obtain ⟨j, rfl⟩ : ∃ j, i = s.nu + j := ⟨i - s.nu, by omega⟩
    exact hrest j (by omega)

end StageState

/-! ## A chain -/

/-- The stage vectors follow the dynamics without their offsets. -/
def Homogeneous (l : List (StageState K)) (d : Nat → Nat → K) : Prop :=
  ∀ (k : Nat) (s next : StageState K), l[k]? = some s → l[k + 1]? = some next →
    ∀ i < next.nx, d (k + 1) (next.nu + i) = rowSum s.data.dyn.get (s.nu + s.nx) (d k) i

/-- The form of the cost-to-go at the states of stage `k`. -/
def costToGo (l : List (StageState K)) (d : Nat → Nat → K) (k : Nat) : K :=
  l[k]?.elim 0 fun s => quadForm s.riccati.cost.get s.nx fun j => d k (s.nu + j)

namespace SweptChain

variable {l : List (StageState K)} {shift : Nat → Option K} (hw : SweptChain shift l)
  (hl : HorizonShaped l) (hsymm : ∀ s ∈ l, s.CondensedSymmetric)

include hw hl hsymm

/-- The control blocks are positive definite with their shifts. -/
theorem controlBlock_definite [ExactRoots K] [IsStrictOrderedRing K] {k : Nat} {s : StageState K}
    (hs : l[k]? = some s) :
    DefiniteUpTo s.nu (shiftDiagonal ((shift k).getD 0) s.controlBlock.get) := by
  by_cases hnu : s.nu = 0
  · rw [hnu]
    exact ⟨fun x => le_rfl, fun x _ i hi => absurd hi (Nat.not_lt_zero i)⟩
  · obtain ⟨next, hnext⟩ := hl.exists_next hs hnu
    obtain ⟨c, _, hfactors⟩ := (hw.inner k s next hs hnext).factors
      (hw.total_symm hl.chained hsymm hs hnext) hnu
    exact hfactors.definite

variable {d : Nat → Nat → K}

omit hsymm in
/-- The last stage passes its own form on: it has no controls. -/
theorem last_form {k : Nat} {s : StageState K} (hs : l[k]? = some s) (hnext : l[k + 1]? = none) :
    quadForm s.riccati.cost.get s.nx (fun j => d k (s.nu + j)) =
      quadForm s.condensed.hess.get (s.nu + s.nx) (d k) := by
  have hnu := hl.last k s hs hnext
  rw [hw.last k s hs hnext, hnu, Nat.zero_add, quadForm_congr _ fun j _ => by rw [Nat.zero_add]]
  apply quadForm_congr_table
  intro i hi j hj
  rw [Mat.get_block_of_lt _ _ _ hi hj, Nat.zero_add, Nat.zero_add]

variable (hd : Homogeneous l d)

include hd

/-- A stage before the last passes on what comes after as well. -/
theorem inner_form [ExactRoots K] [IsStrictOrderedRing K] {k : Nat} {s next : StageState K}
    (hs : l[k]? = some s) (hnext : l[k + 1]? = some next) :
    quadForm s.condensed.hess.get (s.nu + s.nx) (d k) +
        (shift k).getD 0 * sumSquares s.nu (d k) +
        quadForm next.riccati.cost.get next.nx (fun j => d (k + 1) (next.nu + j)) =
      quadForm s.riccati.cost.get s.nx (fun j => d k (s.nu + j)) +
        quadForm (shiftDiagonal ((shift k).getD 0) s.controlBlock.get) s.nu
          (s.deviation (d k)) := by
  have hshape : s.Shaped next.nx := by
    have h := hl.chained k s hs
    rwa [nextNx, hnext] at h
  have hhess := hsymm s (List.mem_of_getElem? hs)
  have hswept := hw.inner k s next hs hnext
  have hsquare := hswept.total_square (hw.total_symm hl.chained hsymm hs hnext) (d k)
  have hform := StageState.total_form hswept.total hshape
    (hl.chained (k + 1) next hnext).cost_cols hhess.rows hhess.cols (d k)
  rw [quadForm_congr _ (hd k s next hs hnext), ← hsquare, hform]
  ring

/-- The form of one stage: what its controls add to the feedback law, and what is passed on. -/
theorem stage_form [ExactRoots K] [IsStrictOrderedRing K] {k : Nat} {s : StageState K}
    (hs : l[k]? = some s) : quadForm s.condensed.hess.get (s.nu + s.nx) (d k) +
        (shift k).getD 0 * sumSquares s.nu (d k) + (costToGo l d (k + 1) - costToGo l d k) =
      quadForm (shiftDiagonal ((shift k).getD 0) s.controlBlock.get) s.nu
        (s.deviation (d k)) := by
  have hcost : costToGo l d k = quadForm s.riccati.cost.get s.nx fun j => d k (s.nu + j) := by
    rw [costToGo, hs, Option.elim_some]
  cases hnext : l[k + 1]? with
  | none =>
      have hafter : costToGo l d (k + 1) = 0 := by
        rw [costToGo, hnext, Option.elim_none]
      rw [hafter, hcost, hw.last_form hl hs hnext, hl.last k s hs hnext]
      simp [quadForm, sumSquares]
  | some next =>
      have hafter : costToGo l d (k + 1) =
          quadForm next.riccati.cost.get next.nx fun j => d (k + 1) (next.nu + j) := by
        rw [costToGo, hnext, Option.elim_some]
      rw [hafter, hcost]
      linear_combination hw.inner_form hl hsymm hd hs hnext

/-- **Along the dynamics the forms of all stages add up to those of the control blocks**, at what
the controls add to the feedback law. On both sides the shifts are counted in. -/
theorem form_eq [ExactRoots K] [IsStrictOrderedRing K] :
    indexedSum l (fun k s => quadForm s.condensed.hess.get (s.nu + s.nx) (d k) +
        (shift k).getD 0 * sumSquares s.nu (d k)) =
      indexedSum l fun k s => quadForm (shiftDiagonal ((shift k).getD 0) s.controlBlock.get) s.nu
        (s.deviation (d k)) := by
  have hfirst : costToGo l d 0 = 0 := by
    rw [costToGo]
    cases hs : l[0]? with
    | none => rfl
    | some s => rw [Option.elim_some, hl.first s hs, quadForm, range_zero, sum_empty]
  have hend : costToGo l d l.length = 0 := by
    rw [costToGo, List.getElem?_eq_none le_rfl, Option.elim_none]
  calc indexedSum l (fun k s => quadForm s.condensed.hess.get (s.nu + s.nx) (d k) +
          (shift k).getD 0 * sumSquares s.nu (d k))
      = indexedSum l fun k s => (quadForm s.condensed.hess.get (s.nu + s.nx) (d k) +
          (shift k).getD 0 * sumSquares s.nu (d k)) +
            (costToGo l d (k + 1) - costToGo l d k) := by
        rw [indexedSum_add _ fun k _ => costToGo l d (k + 1) - costToGo l d k,
          indexedSum_differences, hfirst, hend, sub_zero, add_zero]
    _ = indexedSum l fun k s => quadForm (shiftDiagonal ((shift k).getD 0) s.controlBlock.get)
          s.nu (s.deviation (d k)) := by
        apply indexedSum_congr rfl
        intro k s s' hs hs'
        obtain rfl := Option.some.inj (hs.symm.trans hs')
        exact hw.stage_form hl hsymm hd hs

theorem form_nonneg [ExactRoots K] [IsStrictOrderedRing K] :
    0 ≤ indexedSum l fun k s => quadForm s.condensed.hess.get (s.nu + s.nx) (d k) +
      (shift k).getD 0 * sumSquares s.nu (d k) := by
  rw [hw.form_eq hl hsymm hd]
  exact indexedSum_nonneg fun k s hs => (hw.controlBlock_definite hl hsymm hs).nonneg _

/-- If the forms add up to zero, all controls follow the feedback law. -/
theorem deviation_eq_zero [ExactRoots K] [IsStrictOrderedRing K]
    (hzero : indexedSum l (fun k s => quadForm s.condensed.hess.get (s.nu + s.nx) (d k) +
      (shift k).getD 0 * sumSquares s.nu (d k)) = 0)
    {k : Nat} {s : StageState K} (hs : l[k]? = some s) : ∀ i < s.nu, s.deviation (d k) i = 0 := by
  rw [hw.form_eq hl hsymm hd] at hzero
  apply (hw.controlBlock_definite hl hsymm hs).eq_zero
  exact eq_zero_of_indexedSum (fun j s hs => (hw.controlBlock_definite hl hsymm hs).nonneg _)
    hzero hs

/-- Then nothing moves: stage after stage, the states that enter are zero, and so are the controls
that answer them. -/
theorem eq_zero_of_form [ExactRoots K] [IsStrictOrderedRing K]
    (hzero : indexedSum l (fun k s => quadForm s.condensed.hess.get (s.nu + s.nx) (d k) +
      (shift k).getD 0 * sumSquares s.nu (d k)) = 0) :
    ∀ (k : Nat) (s : StageState K), l[k]? = some s → ∀ i < s.nu + s.nx, d k i = 0 := by
  have hfollow := fun {k : Nat} {s : StageState K} (hs : l[k]? = some s) =>
    hw.deviation_eq_zero hl hsymm hd hzero hs
  intro k
  induction k with
  | zero =>
      intro s hs
      apply StageState.eq_zero_of_deviation (hfollow hs)
      intro j hj
      rw [hl.first s hs] at hj
      omega
  | succ k ih =>
      intro s hs
      obtain ⟨p, hp⟩ := exists_getElem?_before hs
      apply StageState.eq_zero_of_deviation (hfollow hs)
      intro j hj
      rw [hd k p s hp hs j hj]
      apply sum_eq_zero
      intro i hi
      rw [ih p hp i (mem_range.1 hi), mul_zero]

end SweptChain

end StagedQP
