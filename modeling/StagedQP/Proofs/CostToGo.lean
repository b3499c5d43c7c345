import StagedQP.Proofs.CholeskySolve
import StagedQP.Proofs.DirectionSweep

/-!
# The rows of the total system

With the cost-to-go `P`, `p` of the stage after, the total Hessian and gradient of a stage are
`M = hess + Dᵀ P D` and `m = grad + Dᵀ (p + P r)`. This module reads off what the backward sweep
did to `M` and `m`, in terms of the rows of `m + M dv`.

The feedback law makes the control rows `-shift du`, and the definition of the stage's own
cost-to-go makes the state rows its gradient at `dx`. The latter needs the cost-to-go to be
symmetric *before* it is symmetrized, which is where symmetry of the data and exactness of the
factor enter.

## Main results

* `ControlFactor.factors_of?` — a control block is factored up to its shift.
* `StageState.rowSum_total` — the action of the total Hessian.
* `StageState.Swept.controlRow`, `StageState.Swept.stateRow` — the two kinds of rows of `m + M dv`.
-/

namespace StagedQP

open Finset

variable {K : Type} [Field K] [LinearOrder K] [SquareRoot K]

/-! ## Shifted diagonals -/

/-- The table with `shift` added on the diagonal. -/
def shiftDiagonal (shift : K) (a : Nat → Nat → K) (i j : Nat) : K :=
  if i = j then a i j + shift else a i j

omit [LinearOrder K] [SquareRoot K] in
theorem rowSum_shiftDiagonal (shift : K) (a : Nat → Nat → K) {n : Nat} (x : Nat → K) {i : Nat}
    (hi : i < n) : rowSum (shiftDiagonal shift a) n x i = rowSum a n x i + shift * x i := by
  have hsplit : ∀ j, shiftDiagonal shift a i j * x j =
      a i j * x j + if i = j then shift * x j else 0 := by
    intro j
    rw [shiftDiagonal]
    split
    · ring
    · ring
  rw [rowSum, rowSum, sum_congr rfl fun j _ => hsplit j, sum_add_distrib, sum_ite_eq,
    if_pos (mem_range.2 hi)]

omit [LinearOrder K] [SquareRoot K] in
theorem SymmetricUpTo.shiftDiagonal {n : Nat} {a : Nat → Nat → K} (h : SymmetricUpTo n a)
    (shift : K) : SymmetricUpTo n (shiftDiagonal shift a) := by
  intro i hi j hj
  rw [StagedQP.shiftDiagonal, StagedQP.shiftDiagonal, h i hi j hj]
  rcases eq_or_ne i j with rfl | hne
  · rfl
  · rw [if_neg hne, if_neg hne.symm]

/-! ## Control blocks -/

namespace ControlFactor

/-- A symmetric control block is factored by its factor, up to the shift that was used. -/
theorem factors_of? [ExactRoots K] {m : Mat K} {c : ControlFactor K} (hsq : m.cols = m.rows)
    (hsymm : SymmetricUpTo m.rows m.get) (h : of? m = some c) :
    c.factor.Factors (shiftDiagonal (c.shift.getD 0) m.get) m.rows := by
  have hzero : ∀ i j, shiftDiagonal 0 m.get i j = m.get i j := by
    intro i j
    rw [shiftDiagonal, add_zero, ite_self]
  rcases factor_of_of? h with ⟨hshift, hfactor⟩ | ⟨eps, _, hshift, hfactor⟩
  · have hf := Cholesky.factor_factors hsq hsymm hfactor
    rw [hshift]
    refine { hf with prod := fun i hi k hk => ?_ }
    show shiftDiagonal 0 m.get i k = _
    rw [hzero]
    exact hf.prod i hi k hk
  · have hget : ∀ i < m.rows, ∀ k < m.rows, (shifted m (eps * scale m)).get i k =
        shiftDiagonal (eps * scale m) m.get i k :=
      fun i hi k hk => Mat.get_ofFn_of_lt _ hi (hsq ▸ hk)
    have hsymm' : SymmetricUpTo m.rows (shifted m (eps * scale m)).get := by
      intro i hi k hk
      rw [hget i hi k hk, hget k hk i hi]
      exact hsymm.shiftDiagonal _ i hi k hk
    have hf : c.factor.Factors (shifted m (eps * scale m)).get m.rows :=
      Cholesky.factor_factors (m := shifted m (eps * scale m)) hsq hsymm' hfactor
    rw [hshift]
    refine { hf with prod := fun i hi k hk => ?_ }
    show shiftDiagonal (eps * scale m) m.get i k = _
    rw [← hget i hi k hk]
    exact hf.prod i hi k hk

end ControlFactor

/-! ## The total Hessian -/

namespace StageState

variable {s : StageState K} {n : Nat} {next : Mat K} {shift : Option K}

section Total

variable (htotal : s.riccati.total = Mat.addMul s.condensed.hess (s.data.dyn.trMul next) s.data.dyn)
  (hs : s.Shaped n) (hnext : next.cols = n) (hrows : s.condensed.hess.rows = s.nu + s.nx)
  (hcols : s.condensed.hess.cols = s.nu + s.nx)

include htotal hs hnext hrows hcols

/-- The total Hessian acts as the condensed one plus the cost-to-go of the stage after, pulled back
through the dynamics. -/
theorem get_total {i j : Nat} (hi : i < s.nu + s.nx) (hj : j < s.nu + s.nx) :
    s.riccati.total.get i j = s.condensed.hess.get i j +
      ∑ k ∈ range n, (∑ l ∈ range n, s.data.dyn.get l i * next.get l k) * s.data.dyn.get k j := by
  rw [htotal, Mat.get_addMul _ _ _ (hrows ▸ hi) (hcols ▸ hj)]
  congr 1
  show ∑ k ∈ range next.cols, _ = _
  rw [hnext]
  refine sum_congr rfl fun k hk => ?_
  rw [Mat.get_trMul _ _ (hs.dyn_cols ▸ hi) (hnext.symm ▸ mem_range.1 hk), hs.dyn_rows]

theorem rowSum_total (x : Nat → K) {i : Nat} (hi : i < s.nu + s.nx) :
    rowSum s.riccati.total.get (s.nu + s.nx) x i = rowSum s.condensed.hess.get (s.nu + s.nx) x i +
      colSum s.data.dyn.get n (rowSum next.get n (rowSum s.data.dyn.get (s.nu + s.nx) x)) i := by
  have hpulled : colSum s.data.dyn.get n
      (rowSum next.get n (rowSum s.data.dyn.get (s.nu + s.nx) x)) i =
      rowSum (fun i j => ∑ k ∈ range n, (∑ l ∈ range n, s.data.dyn.get l i * next.get l k) *
        s.data.dyn.get k j) (s.nu + s.nx) x i := by
    rw [rowSum_comp (a := fun i k => ∑ l ∈ range n, s.data.dyn.get l i * next.get l k)
      (b := s.data.dyn.get) (m := n) x i fun j _ => rfl]
    exact (rowSum_comp (a := fun i l => s.data.dyn.get l i) (b := next.get) (m := n) _ i
      fun k _ => rfl).symm
  rw [hpulled]
  simp only [rowSum]
  rw [← sum_add_distrib]
  refine sum_congr rfl fun j hj => ?_
  rw [get_total htotal hs hnext hrows hcols hi (mem_range.1 hj), add_mul]

theorem total_symm (hhess : SymmetricUpTo (s.nu + s.nx) s.condensed.hess.get)
    (hcost : SymmetricUpTo n next.get) :
    SymmetricUpTo (s.nu + s.nx) s.riccati.total.get := by
  intro i hi j hj
  rw [get_total htotal hs hnext hrows hcols hi hj, get_total htotal hs hnext hrows hcols hj hi,
    hhess i hi j hj]
  congr 1
  exact hcost.pullBack s.data.dyn.get i hi j hj

end Total

/-! ## Feedback and cost-to-go -/

theorem get_controlBlock (s : StageState K) {i j : Nat} (hi : i < s.nu) (hj : j < s.nu) :
    s.controlBlock.get i j = s.riccati.total.get i j := by
  rw [controlBlock, Mat.get_block_of_lt _ _ _ hi hj, Nat.zero_add, Nat.zero_add]

theorem get_crossBlock (s : StageState K) {i j : Nat} (hi : i < s.nu) (hj : j < s.nx) :
    s.crossBlock.get i j = s.riccati.total.get i (s.nu + j) := by
  rw [crossBlock, Mat.get_block_of_lt _ _ _ hi hj, Nat.zero_add]

section Loop

variable [ExactRoots K] (h : s.Swept next shift)
  (hsymm : SymmetricUpTo (s.nu + s.nx) s.riccati.total.get)

include h hsymm

/-- The factor of a swept stage factors its shifted control block. -/
theorem Swept.factors (hnu : s.nu ≠ 0) : ∃ c, s.riccati.factor = some c ∧
    c.Factors (shiftDiagonal (shift.getD 0) s.controlBlock.get) s.nu := by
  obtain ⟨c, hof, hfactor, hshift⟩ := h.factored hnu
  have hblock : SymmetricUpTo s.nu s.controlBlock.get := by
    intro i hi j hj
    rw [get_controlBlock s hi hj, get_controlBlock s hj hi]
    exact hsymm i (by omega) j (by omega)
  refine ⟨c.factor, hfactor, ?_⟩
  rw [← hshift]
  exact ControlFactor.factors_of? rfl hblock hof

/-- The gain solves the shifted control block for the cross block. -/
theorem Swept.gain_solves {i j : Nat} (hi : i < s.nu) (hj : j < s.nx) :
    rowSum (shiftDiagonal (shift.getD 0) s.controlBlock.get) s.nu
      (fun l => s.riccati.gain.get l j) i = -s.crossBlock.get i j := by
  obtain ⟨c, hc, hf⟩ := h.factors hsymm (by omega)
  have hgain : ∀ l < s.nu, s.riccati.gain.get l j = -1 * (c.solve s.crossBlock).get l j + 0 := by
    intro l hl
    have hrow : l < c.size := hf.size.symm ▸ hl
    rw [h.gain (by omega), hc, add_zero, neg_one_mul]
    exact Mat.get_neg (c.solve s.crossBlock) hrow hj
  rw [rowSum_congr _ i hgain, rowSum_advance, hf.solve s.crossBlock hj le_rfl i hi]
  simp [rowSum]

/-- So does the feedforward control for the total gradient. -/
theorem Swept.feed_solves {nextData : RiccatiData K} (hp : s.Pulled nextData) {i : Nat}
    (hi : i < s.nu) : rowSum (shiftDiagonal (shift.getD 0) s.controlBlock.get) s.nu
      s.riccati.feed.get i = -s.riccati.totalVec.get i := by
  obtain ⟨c, hc, hf⟩ := h.factors hsymm (by omega)
  have hfeed : ∀ l < s.nu, s.riccati.feed.get l =
      -1 * (c.solveVec (s.riccati.totalVec.slice 0 s.nu)).get l + 0 := by
    intro l hl
    have hrow : l < (c.solveVec (s.riccati.totalVec.slice 0 s.nu)).size := by
      rw [Cholesky.size_solveVec, hf.size]
      exact hl
    rw [hp.feed, hc, add_zero, neg_one_mul]
    exact Vec.get_neg (c.solveVec (s.riccati.totalVec.slice 0 s.nu)) hrow
  rw [rowSum_congr _ i hfeed, rowSum_advance, hf.solveVec _ i hi, Vec.get_slice_of_lt _ _ hi]
  simp [rowSum]

/-- The pulled-back cost is symmetric before it is symmetrized, so it is the cost-to-go. -/
theorem Swept.get_cost [IsStrictOrderedRing K] {i j : Nat} (hi : i < s.nx) (hj : j < s.nx) :
    s.riccati.cost.get i j = s.riccati.total.get (s.nu + i) (s.nu + j) +
      ∑ l ∈ range s.nu, s.crossBlock.get l i * s.riccati.gain.get l j := by
  set f := shiftDiagonal (shift.getD 0) s.controlBlock.get with hf
  have hfsymm : SymmetricUpTo s.nu f := by
    refine SymmetricUpTo.shiftDiagonal ?_ _
    intro a ha b hb
    rw [get_controlBlock s ha hb, get_controlBlock s hb ha]
    exact hsymm a (by omega) b (by omega)
  have hsum : ∀ a < s.nx, ∀ b < s.nx,
      ∑ l ∈ range s.nu, s.crossBlock.get l a * s.riccati.gain.get l b =
        -∑ l ∈ range s.nu, s.riccati.gain.get l b * rowSum f s.nu
          (fun m => s.riccati.gain.get m a) l := by
    intro a ha b _
    rw [← sum_neg_distrib]
    refine sum_congr rfl fun l hl => ?_
    rw [hf, h.gain_solves hsymm (mem_range.1 hl) ha]
    ring
  have hswap : ∀ a < s.nx, ∀ b < s.nx,
      ∑ l ∈ range s.nu, s.crossBlock.get l a * s.riccati.gain.get l b =
        ∑ l ∈ range s.nu, s.crossBlock.get l b * s.riccati.gain.get l a := by
    intro a ha b hb
    rw [hsum a ha b hb, hsum b hb a ha, sum_mul_rowSum]
    congr 1
    refine sum_congr rfl fun l hl => ?_
    rw [mul_comm, colSum, rowSum]
    congr 1
    refine sum_congr rfl fun m hm => ?_
    rw [hfsymm m (mem_range.1 hm) l (mem_range.1 hl)]
  have hget : ∀ a < s.nx, ∀ b < s.nx,
      (Mat.addTrMul (s.riccati.total.block s.nu s.nu s.nx s.nx) s.crossBlock
        s.riccati.gain).get a b = s.riccati.total.get (s.nu + a) (s.nu + b) +
        ∑ l ∈ range s.nu, s.crossBlock.get l a * s.riccati.gain.get l b := by
    intro a ha b hb
    rw [Mat.get_addTrMul _ _ _ ha hb, Mat.get_block_of_lt _ _ _ ha hb]
    rfl
  rw [h.cost (by omega), Mat.get_symmetrize_of_comm _ hi hj]
  · exact hget i hi j hj
  · rw [hget i hi j hj, hget j hj i hi, hswap i hi j hj,
      hsymm (s.nu + i) (by omega) (s.nu + j) (by omega)]

end Loop

/-! ## The rows of the total system -/

section Rows

variable {nextData : RiccatiData K} {dx : Vec K} (hs : s.Shaped n) (hp : s.Pulled nextData)

include hs hp

theorem size_feed : s.riccati.feed.size = s.nu := by
  rw [hp.feed, Vec.size_neg]
  cases hf : s.riccati.factor with
  | none => exact Vec.size_slice ..
  | some c =>
      rw [solveVecWith, Cholesky.size_solveVec]
      exact hs.factor c hf

variable (hdv : s.direction.dv = (s.feedback dx).append dx)

include hdv

/-- The controls follow the feedback law. -/
theorem get_dv_control {i : Nat} (hi : i < s.nu) : s.direction.dv.get i =
    s.riccati.feed.get i + rowSum s.riccati.gain.get s.nx dx.get i := by
  have hsize := size_feed hs hp
  rw [hdv, Vec.get_append_left _ _ (by rw [feedback, Mat.size_addMulVec, hsize]; exact hi),
    feedback, Mat.get_addMulVec _ _ _ (hsize.symm ▸ hi), hs.gain_cols]

/-- The rest of the stage vector is the states. -/
theorem get_dv_state (j : Nat) : s.direction.dv.get (s.nu + j) = dx.get j := by
  rw [hdv]
  exact Vec.get_append_right _ _ (by rw [feedback, Mat.size_addMulVec]; exact size_feed hs hp) j

omit hs hp hdv in
omit [LinearOrder K] [SquareRoot K] in
/-- The columns of the controls and those of the states. -/
theorem rowSum_total_split (x : Nat → K) (i : Nat) :
    rowSum s.riccati.total.get (s.nu + s.nx) x i = rowSum s.riccati.total.get s.nu x i +
      rowSum (fun i j => s.riccati.total.get i (s.nu + j)) s.nx (fun j => x (s.nu + j)) i :=
  rowSum_split ..

variable [ExactRoots K] (h : s.Swept next shift)
  (hsymm : SymmetricUpTo (s.nu + s.nx) s.riccati.total.get)

include h hsymm

/-- The feedback law cancels the control rows, up to the shift. -/
theorem Swept.controlRow {i : Nat} (hi : i < s.nu) :
    s.riccati.totalVec.get i + rowSum s.riccati.total.get (s.nu + s.nx) s.direction.dv.get i =
      -(shift.getD 0 * s.direction.dv.get i) := by
  set f := shiftDiagonal (shift.getD 0) s.controlBlock.get with hf
  have hgain : rowSum f s.nu (rowSum s.riccati.gain.get s.nx dx.get) i =
      -rowSum s.crossBlock.get s.nx dx.get i := by
    rw [← rowSum_comp (c := fun i j => -s.crossBlock.get i j) dx.get i
      fun j hj => (h.gain_solves hsymm hi hj).symm]
    simp only [rowSum, neg_mul, sum_neg_distrib]
  have hcontrol : rowSum f s.nu s.direction.dv.get i =
      -s.riccati.totalVec.get i - rowSum s.crossBlock.get s.nx dx.get i := by
    rw [rowSum_congr f i fun l hl => get_dv_control hs hp hdv hl, rowSum_add, hgain,
      h.feed_solves hsymm hp hi]
    ring
  have hblock : rowSum s.riccati.total.get s.nu s.direction.dv.get i +
      shift.getD 0 * s.direction.dv.get i = rowSum f s.nu s.direction.dv.get i := by
    rw [hf, rowSum_shiftDiagonal _ _ _ hi]
    congr 1
    exact rowSum_congr_table _ i fun j hj => (get_controlBlock s hi hj).symm
  have hcross : rowSum (fun i j => s.riccati.total.get i (s.nu + j)) s.nx
      (fun j => s.direction.dv.get (s.nu + j)) i = rowSum s.crossBlock.get s.nx dx.get i := by
    rw [rowSum_congr _ i fun j _ => get_dv_state hs hp hdv j]
    exact rowSum_congr_table _ i fun j hj => (get_crossBlock s hi hj).symm
  rw [rowSum_total_split, hcross]
  linear_combination hblock + hcontrol

/-- The state rows are the gradient of the stage's own cost-to-go. -/
theorem Swept.stateRow [IsStrictOrderedRing K] {j : Nat} (hj : j < s.nx) :
    s.riccati.totalVec.get (s.nu + j) +
        rowSum s.riccati.total.get (s.nu + s.nx) s.direction.dv.get (s.nu + j) =
      s.riccati.costVec.get j + rowSum s.riccati.cost.get s.nx dx.get j := by
  have hcross : rowSum s.riccati.total.get s.nu s.direction.dv.get (s.nu + j) =
      colSum s.crossBlock.get s.nu s.riccati.feed.get j +
        colSum s.crossBlock.get s.nu (rowSum s.riccati.gain.get s.nx dx.get) j := by
    rw [← colSum_add, rowSum, colSum]
    refine sum_congr rfl fun l hl => ?_
    rw [get_dv_control hs hp hdv (mem_range.1 hl), get_crossBlock s (mem_range.1 hl) hj,
      hsymm (s.nu + j) (by omega) l (by have := mem_range.1 hl; omega)]
  have hstates : rowSum (fun i j => s.riccati.total.get i (s.nu + j)) s.nx
      (fun j => s.direction.dv.get (s.nu + j)) (s.nu + j) =
      rowSum (fun i j => s.riccati.total.get (s.nu + i) (s.nu + j)) s.nx dx.get j := by
    rw [rowSum_congr _ _ fun j _ => get_dv_state hs hp hdv j]
    rfl
  have hcostVec : s.riccati.costVec.get j = s.riccati.totalVec.get (s.nu + j) +
      colSum s.crossBlock.get s.nu s.riccati.feed.get j := by
    rw [hp.cost, Mat.get_addTrMulVec _ _ _ (by rw [Vec.size_slice]; exact hj),
      Vec.get_slice_of_lt _ _ hj]
    rfl
  have hcost : rowSum s.riccati.cost.get s.nx dx.get j =
      rowSum (fun i j => s.riccati.total.get (s.nu + i) (s.nu + j)) s.nx dx.get j +
        colSum s.crossBlock.get s.nu (rowSum s.riccati.gain.get s.nx dx.get) j := by
    have hpulled : colSum s.crossBlock.get s.nu (rowSum s.riccati.gain.get s.nx dx.get) j =
        rowSum (fun i j => ∑ l ∈ range s.nu, s.crossBlock.get l i * s.riccati.gain.get l j)
          s.nx dx.get j :=
      (rowSum_comp (a := fun i l => s.crossBlock.get l i) dx.get j fun k _ => rfl).symm
    rw [hpulled, rowSum, rowSum, rowSum, ← sum_add_distrib]
    refine sum_congr rfl fun k hk => ?_
    rw [h.get_cost hsymm hj (mem_range.1 hk), add_mul]
  rw [rowSum_total_split, hcross, hstates, hcostVec, hcost]
  ring

end Rows

end StageState

end StagedQP
