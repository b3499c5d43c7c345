import StagedQP.Proofs.CostToGo

/-!
# The block system along a chain

The linear-quadratic problem of a Riccati recursion has one multiplier vector for each stretch of
the dynamics. Its optimality system has a block row for each stage,

```text
hess dv + [shift du; 0] + grad + dynᵀ dpi - [0; dpi before] = 0
dx after = dyn dv + r
```

where `shift` is what was added to the diagonal of the control block of the stage. This module
derives the rows from the local equations of the sweeps alone: where the Hessians and the gradients
come from does not matter here.

The induction over the chain is hidden in the local equations. What is left is to see that the
multipliers before a stage are the gradient of its cost-to-go at the states that enter, so that the
rows of the total system are the rows of the block.

## Main results

* `SweptChain.cost_symm`, `SweptChain.total_symm` — the sweep over the matrices keeps symmetry.
* `SolvedChain.get_dxAfter` — the rows of the dynamics.
* `SolvedChain.condensed_rows` — the rows of the stages.
-/

namespace StagedQP

open Finset

variable {K : Type} [Field K] [LinearOrder K] [SquareRoot K]

/-! ## Neighbours -/

/-- The direction of the multipliers of the dynamics that lead to stage `k`. -/
def dpiBefore (l : List (StageState K)) : Nat → Vec K
  | 0 => Vec.empty
  | k + 1 => l[k]?.elim Vec.empty fun s => s.direction.dpi

/-- The direction of the states of the stage after stage `k`. -/
def dxAfter (l : List (StageState K)) (k : Nat) : Vec K :=
  l[k + 1]?.elim Vec.empty fun s => s.direction.dv.slice s.nu s.nx

omit [Field K] [LinearOrder K] [SquareRoot K] in
theorem dpiBefore_succ {l : List (StageState K)} {k : Nat} {s : StageState K}
    (hs : l[k]? = some s) : dpiBefore l (k + 1) = s.direction.dpi := by
  rw [dpiBefore, hs, Option.elim_some]

omit [LinearOrder K] [SquareRoot K] in
theorem dxAfter_of_next {l : List (StageState K)} {k : Nat} {next : StageState K}
    (hnext : l[k + 1]? = some next) :
    dxAfter l k = next.direction.dv.slice next.nu next.nx := by
  rw [dxAfter, hnext, Option.elim_some]

/-- A stage after another one has a predecessor. -/
theorem exists_getElem?_before {β : Type} {l : List β} {k : Nat} {b : β}
    (hs : l[k + 1]? = some b) : ∃ p, l[k]? = some p := by
  have hlt := (List.getElem?_eq_some_iff.1 hs).1
  exact ⟨_, List.getElem?_eq_getElem (Nat.lt_of_succ_lt hlt)⟩

omit [Field K] [LinearOrder K] [SquareRoot K] in
/-- A stage with controls is not the last. -/
theorem HorizonShaped.exists_next {l : List (StageState K)} (hl : HorizonShaped l) {k : Nat}
    {s : StageState K} (hs : l[k]? = some s) (hnu : s.nu ≠ 0) : ∃ next, l[k + 1]? = some next := by
  apply Option.ne_none_iff_exists'.1
  intro hnone
  exact hnu (hl.last k s hs hnone)

/-! ## What the sweeps leave -/

/-- The condensed Hessian of a stage has the size of the stage vector and is symmetric. -/
structure StageState.CondensedSymmetric (s : StageState K) : Prop where
  rows : s.condensed.hess.rows = s.nu + s.nx
  cols : s.condensed.hess.cols = s.nu + s.nx
  symm : SymmetricUpTo (s.nu + s.nx) s.condensed.hess.get

/-- The chain has been swept over the matrices, with the shifts `shift k`. Nothing is said about
where the Hessians come from. -/
structure SweptChain (shift : Nat → Option K) (l : List (StageState K)) : Prop where
  /-- A stage with a successor. -/
  inner : ∀ (k : Nat) (s next : StageState K), l[k]? = some s → l[k + 1]? = some next →
    s.Swept next.riccati.cost (shift k)
  /-- The last stage. -/
  last : ∀ (k : Nat) (s : StageState K), l[k]? = some s → l[k + 1]? = none →
    s.riccati.cost = s.condensed.hess.block s.nu s.nu s.nx s.nx

/-- The chain has been swept over the vectors, backward and forward. Nothing is said about where
the gradients come from. -/
structure SolvedChain (l : List (StageState K)) : Prop where
  /-- The gradients of the costs-to-go. -/
  pulled : GradientsPulled l
  /-- The directions of stage vectors and dynamics' multipliers. -/
  rolled : RolledOut Vec.empty l
  /-- The condensed gradients have the size of the stage vector. -/
  grad : ∀ (k : Nat) (s : StageState K), l[k]? = some s → s.condensed.grad.size = s.nu + s.nx

/-! ## Symmetry -/

namespace SweptChain

variable {l : List (StageState K)} {shift : Nat → Option K} (hw : SweptChain shift l)
  (hl : Chained l) (hsymm : ∀ s ∈ l, s.CondensedSymmetric)

include hw hl hsymm

omit hl in
/-- Every cost-to-go is symmetric. -/
theorem cost_symm {k : Nat} {s : StageState K} (hs : l[k]? = some s) :
    SymmetricUpTo s.nx s.riccati.cost.get := by
  intro i hi j hj
  cases hnext : l[k + 1]? with
  | none =>
      have hhess := (hsymm s (List.mem_of_getElem? hs)).symm
      rw [hw.last k s hs hnext, Mat.get_block_of_lt _ _ _ hi hj, Mat.get_block_of_lt _ _ _ hj hi]
      exact hhess _ (by omega) _ (by omega)
  | some next =>
      rw [(hw.inner k s next hs hnext).cost (by omega)]
      exact Mat.get_symmetrize_comm _ hi hj rfl

/-- So is the total Hessian of a stage with a successor. -/
theorem total_symm {k : Nat} {s next : StageState K} (hs : l[k]? = some s)
    (hnext : l[k + 1]? = some next) : SymmetricUpTo (s.nu + s.nx) s.riccati.total.get := by
  have hshape : s.Shaped next.nx := by
    have h := hl k s hs
    rwa [nextNx, hnext] at h
  have hhess := hsymm s (List.mem_of_getElem? hs)
  exact StageState.total_symm (hw.inner k s next hs hnext).total hshape
    (hl (k + 1) next hnext).cost_cols hhess.rows hhess.cols hhess.symm
    (hw.cost_symm hsymm hnext)

end SweptChain

/-! ## The dynamics -/

namespace SolvedChain

variable {l : List (StageState K)} (hd : SolvedChain l)

section Dynamics

variable (hl : Chained l)

include hd hl

/-- The directions of a stage's states are those that enter the stage. -/
theorem get_states {k : Nat} {s : StageState K} (hs : l[k]? = some s) (j : Nat) :
    s.direction.dv.get (s.nu + j) = (entering Vec.empty l k).get j := by
  cases hnext : l[k + 1]? with
  | none =>
      obtain ⟨dv, heq⟩ := hd.rolled.last k s hs hnext
      rw [heq, Vec.withTail]
      exact Vec.get_append_right _ _ (Vec.size_slice ..) j
  | some next =>
      exact StageState.get_dv_state (hl k s hs) (hd.pulled.inner k s next hs hnext)
        (hd.rolled.inner k s next hs hnext).1 j

omit hd in
/-- The states that leave a stage, entry by entry. -/
theorem get_leaving {k : Nat} {s : StageState K} (hs : l[k]? = some s) {i : Nat}
    (hi : i < s.data.dyn.rows) : s.leaving.get i = s.residual.dyn.get i +
      rowSum s.data.dyn.get (s.nu + s.nx) s.direction.dv.get i := by
  have hshape := hl k s hs
  rw [StageState.leaving,
    Mat.get_addMulVec _ _ _ (by rw [hshape.dyn, ← hshape.dyn_rows]; exact hi), hshape.dyn_cols]

/-- The states of the stage after follow the linearised dynamics. -/
theorem get_dxAfter {k : Nat} {s : StageState K} (hs : l[k]? = some s) {i : Nat}
    (hi : i < s.data.dyn.rows) : (dxAfter l k).get i = s.residual.dyn.get i +
      rowSum s.data.dyn.get (s.nu + s.nx) s.direction.dv.get i := by
  have hn : s.data.dyn.rows = nextNx l k := (hl k s hs).dyn_rows
  cases hnext : l[k + 1]? with
  | none =>
      rw [nextNx, hnext] at hn
      exact absurd hi (by rw [hn]; exact Nat.not_lt_zero i)
  | some next =>
      rw [nextNx, hnext] at hn
      have hi' : i < next.nx := lt_of_lt_of_eq hi hn
      rw [dxAfter_of_next hnext, Vec.get_slice_of_lt _ _ hi', hd.get_states hl hnext,
        entering_succ _ hs, get_leaving hl hs hi]

end Dynamics

omit hd in
/-- The states that enter a stage are as many as the stage has. -/
theorem size_entering {l : List (StageState K)} (hl : HorizonShaped l) {k : Nat}
    {s : StageState K} (hs : l[k]? = some s) : (entering Vec.empty l k).size = s.nx := by
  cases k with
  | zero => exact (hl.first s hs).symm
  | succ k =>
      obtain ⟨p, hp⟩ := exists_getElem?_before hs
      rw [entering_succ _ hp, StageState.leaving, Mat.size_addMulVec, (hl.chained k p hp).dyn,
        nextNx, hs, Option.elim_some]

/-! ## The stages -/

include hd

/-- The direction of a stage vector has the size of the stage vector. -/
theorem size_dv (hl : HorizonShaped l) {k : Nat} {s : StageState K} (hs : l[k]? = some s) :
    s.direction.dv.size = s.nu + s.nx := by
  cases hnext : l[k + 1]? with
  | none =>
      obtain ⟨dv, heq⟩ := hd.rolled.last k s hs hnext
      rw [heq, Vec.withTail, Vec.size_append, Vec.size_slice, size_entering hl hs]
  | some next =>
      rw [(hd.rolled.inner k s next hs hnext).1, Vec.size_append, size_entering hl hs,
        StageState.feedback, Mat.size_addMulVec,
        StageState.size_feed (hl.chained k s hs) (hd.pulled.inner k s next hs hnext)]

theorem size_costVec {k : Nat} {s : StageState K} (hs : l[k]? = some s) :
    s.riccati.costVec.size = s.nx := by
  cases hnext : l[k + 1]? with
  | none => rw [hd.pulled.last k s hs hnext, Vec.size_slice]
  | some next =>
      rw [(hd.pulled.inner k s next hs hnext).cost, Mat.size_addTrMulVec, Vec.size_slice]

variable (hl : HorizonShaped l)

include hl

/-- The multipliers before a stage are the gradient of its cost-to-go at the states that enter. -/
theorem get_dpiBefore {k : Nat} {s : StageState K} (hs : l[k]? = some s) {j : Nat} (hj : j < s.nx) :
    (dpiBefore l k).get j = s.riccati.costVec.get j +
      rowSum s.riccati.cost.get s.nx (entering Vec.empty l k).get j := by
  cases k with
  | zero =>
      have hnx := hl.first s hs
      omega
  | succ k =>
      obtain ⟨p, hp⟩ := exists_getElem?_before hs
      rw [dpiBefore_succ hp, entering_succ _ hp, (hd.rolled.inner k p s hp hs).2,
        Mat.get_addMulVec _ _ _ (by rw [hd.size_costVec hs]; exact hj),
        (hl.chained _ s hs).cost_cols]

variable {shift : Nat → Option K} (hw : SweptChain shift l)
  (hsymm : ∀ s ∈ l, s.CondensedSymmetric)

include hw hsymm

/-- The total system is the condensed one with the multipliers of the dynamics eliminated. -/
theorem total_balance {k : Nat} {s next : StageState K} (hs : l[k]? = some s)
    (hnext : l[k + 1]? = some next) {i : Nat} (hi : i < s.nu + s.nx) :
    s.riccati.totalVec.get i + rowSum s.riccati.total.get (s.nu + s.nx) s.direction.dv.get i =
      s.condensed.grad.get i + rowSum s.condensed.hess.get (s.nu + s.nx) s.direction.dv.get i
        + colSum s.data.dyn.get next.nx s.direction.dpi.get i := by
  have hshape : s.Shaped next.nx := by
    have h := hl.chained k s hs
    rwa [nextNx, hnext] at h
  have hnshape := hl.chained (k + 1) next hnext
  have hhess := hsymm s (List.mem_of_getElem? hs)
  have hp := hd.pulled.inner k s next hs hnext
  have hsize := hd.size_costVec hnext
  have htotal : s.riccati.totalVec.get i = s.condensed.grad.get i +
      colSum s.data.dyn.get next.nx (fun l => next.riccati.costVec.get l +
        rowSum next.riccati.cost.get next.nx s.residual.dyn.get l) i := by
    rw [hp.total, Mat.get_addTrMulVec _ _ _ (by rw [hd.grad k s hs]; exact hi), hshape.dyn_rows]
    congr 1
    refine colSum_congr _ i fun l hl => ?_
    rw [Mat.get_addMulVec _ _ _ (hsize.symm ▸ hl), hnshape.cost_cols]
  have hdpi : ∀ l < next.nx, s.direction.dpi.get l = (next.riccati.costVec.get l +
      rowSum next.riccati.cost.get next.nx s.residual.dyn.get l) +
      rowSum next.riccati.cost.get next.nx
        (rowSum s.data.dyn.get (s.nu + s.nx) s.direction.dv.get) l := by
    intro l hl'
    rw [(hd.rolled.inner k s next hs hnext).2, Mat.get_addMulVec _ _ _ (hsize.symm ▸ hl'),
      hnshape.cost_cols, rowSum_congr _ l fun m hm =>
        get_leaving hl.chained hs (hshape.dyn_rows.symm ▸ hm), rowSum_add]
    ring
  rw [colSum_congr _ i hdpi, colSum_add, htotal,
    StageState.rowSum_total (hw.inner k s next hs hnext).total hshape hnshape.cost_cols
      hhess.rows hhess.cols _ hi]
  ring

/-- The rows of the stages. Beyond the last stage there are no dynamics, and before the first no
multipliers. -/
theorem condensed_rows [ExactRoots K] [IsStrictOrderedRing K] {k : Nat} {s : StageState K}
    (hs : l[k]? = some s) {i : Nat} (hi : i < s.nu + s.nx) :
    s.condensed.grad.get i + rowSum s.condensed.hess.get (s.nu + s.nx) s.direction.dv.get i
        + colSum s.data.dyn.get s.data.dyn.rows s.direction.dpi.get i =
      if i < s.nu then -((shift k).getD 0 * s.direction.dv.get i)
      else (dpiBefore l k).get (i - s.nu) := by
  have hshape := hl.chained k s hs
  cases hnext : l[k + 1]? with
  | none =>
      have hnu := hl.last k s hs hnext
      have hrows : s.data.dyn.rows = 0 := by
        rw [hshape.dyn_rows, nextNx, hnext]
        rfl
      rw [hrows, if_neg (by omega), hd.get_dpiBefore hl hs (by omega),
        hd.pulled.last k s hs hnext, Vec.get_slice_of_lt _ _ (by omega)]
      have hcost : rowSum s.riccati.cost.get s.nx (entering Vec.empty l k).get (i - s.nu) =
          rowSum s.condensed.hess.get (s.nu + s.nx) s.direction.dv.get i := by
        rw [hnu, Nat.zero_add, Nat.sub_zero]
        refine sum_congr rfl fun j hj => ?_
        rw [hw.last k s hs hnext, Mat.get_block_of_lt _ _ _ (by omega) (mem_range.1 hj), hnu,
          ← hd.get_states hl.chained hs, hnu, Nat.zero_add, Nat.zero_add]
      rw [hcost, show s.nu + (i - s.nu) = i by omega]
      simp [colSum]
  | some next =>
      have hn : nextNx l k = next.nx := by
        rw [nextNx, hnext]
        rfl
      rw [hn] at hshape
      have hswept := hw.inner k s next hs hnext
      have htotal := hw.total_symm hl.chained hsymm hs hnext
      have hp := hd.pulled.inner k s next hs hnext
      have hdv := (hd.rolled.inner k s next hs hnext).1
      rw [hshape.dyn_rows, ← hd.total_balance hl hw hsymm hs hnext hi]
      split
      · exact hswept.controlRow hshape hp hdv htotal ‹_›
      · obtain ⟨j, rfl⟩ : ∃ j, i = s.nu + j := ⟨i - s.nu, by omega⟩
        have hj : j < s.nx := by omega
        rw [Nat.add_sub_cancel_left, hd.get_dpiBefore hl hs hj]
        exact hswept.stateRow hshape hp hdv htotal hj

end SolvedChain

end StagedQP
