import StagedQP.Proofs.ExactArithmetic
import StagedQP.Proofs.WorkspaceUse

/-!
# Packed data against the stages it came from

A solve works on packed stages. This module says in terms of controls and states what the problem
is: the objective of a trajectory, and which trajectories are feasible. It then relates this to the
packed data: the cost of a packed stage is the cost of the stage, its dynamics lead where those of
the stage lead, and its rows are within bounds where box and general rows are.

Controls and states are read as total functions, so that one notion serves trajectories and the
stage vectors of a workspace.

## Main results

* `PackedStage.hess_symm` — symmetric blocks make a symmetric Hessian.
* `PackedStage.ofStage_cost`, `PackedStage.ofStage_dyn`, `PackedStage.ofStage_rows` — cost, dynamics
  and rows.
* `Horizon.Feasible.packed`, `Horizon.objective_eq`, `Horizon.distance_eq` — the problem in terms of
  stage vectors.
-/

namespace StagedQP

open Finset

variable {K : Type} [Field K]

/-! ## Sums along a chain -/

/-- The sum over a list of a function of index and element. -/
def indexedSum {β : Type} (l : List β) (f : Nat → β → K) : K :=
  ∑ k ∈ range l.length, l[k]?.elim 0 (f k)

section IndexedSum

variable {β γ : Type} {l : List β}

theorem indexedSum_le [LinearOrder K] [IsStrictOrderedRing K] {f g : Nat → β → K}
    (h : ∀ k b, l[k]? = some b → f k b ≤ g k b) : indexedSum l f ≤ indexedSum l g := by
  refine sum_le_sum fun k hk => ?_
  have hget := List.getElem?_eq_getElem (mem_range.1 hk)
  rw [hget]
  exact h k _ hget

theorem indexedSum_nonneg [LinearOrder K] [IsStrictOrderedRing K] {f : Nat → β → K}
    (h : ∀ k b, l[k]? = some b → 0 ≤ f k b) : 0 ≤ indexedSum l f := by
  refine sum_nonneg fun k hk => ?_
  have hget := List.getElem?_eq_getElem (mem_range.1 hk)
  rw [hget]
  exact h k _ hget

/-- Terms that are not negative and add up to zero are zero. -/
theorem eq_zero_of_indexedSum [LinearOrder K] [IsStrictOrderedRing K] {f : Nat → β → K}
    (h : ∀ k b, l[k]? = some b → 0 ≤ f k b) (hsum : indexedSum l f = 0) {k : Nat} {b : β}
    (hb : l[k]? = some b) : f k b = 0 := by
  have hnonneg : ∀ j ∈ range l.length, 0 ≤ l[j]?.elim 0 (f j) := by
    intro j hj
    have hget := List.getElem?_eq_getElem (mem_range.1 hj)
    rw [hget]
    exact h j _ hget
  have hterm := (sum_eq_zero_iff_of_nonneg hnonneg).1 hsum k
    (mem_range.2 (List.getElem?_eq_some_iff.1 hb).1)
  rwa [hb] at hterm

/-- Sums over lists of one length agree when their terms do. -/
theorem indexedSum_congr {l' : List γ} (hlen : l.length = l'.length) {f : Nat → β → K}
    {g : Nat → γ → K} (h : ∀ k b c, l[k]? = some b → l'[k]? = some c → f k b = g k c) :
    indexedSum l f = indexedSum l' g := by
  rw [indexedSum, indexedSum, hlen]
  refine sum_congr rfl fun k hk => ?_
  have hget := List.getElem?_eq_getElem (l := l) (hlen ▸ mem_range.1 hk)
  have hget' := List.getElem?_eq_getElem (mem_range.1 hk)
  rw [hget, hget']
  exact h k _ _ hget hget'

theorem indexedSum_add (f g : Nat → β → K) :
    indexedSum l (fun k b => f k b + g k b) = indexedSum l f + indexedSum l g := by
  rw [indexedSum, indexedSum, indexedSum, ← sum_add_distrib]
  refine sum_congr rfl fun k _ => ?_
  cases l[k]? with
  | none => exact (add_zero 0).symm
  | some b => rfl

theorem indexedSum_mul (c : K) (f : Nat → β → K) :
    indexedSum l (fun k b => c * f k b) = c * indexedSum l f := by
  rw [indexedSum, indexedSum, mul_sum]
  refine sum_congr rfl fun k _ => ?_
  cases l[k]? with
  | none => exact (mul_zero c).symm
  | some b => rfl

/-- A sum with one term. -/
theorem indexedSum_single {f : Nat → β → K} {k : Nat} {b : β} (hb : l[k]? = some b)
    (h : ∀ k' b', k' ≠ k → f k' b' = 0) : indexedSum l f = f k b := by
  have hk : k ∈ range l.length := mem_range.2 (List.getElem?_eq_some_iff.1 hb).1
  rw [indexedSum, sum_eq_single_of_mem k hk, hb, Option.elim_some]
  intro k' _ hne
  cases l[k']? with
  | none => rfl
  | some b' => exact h k' b' hne

/-- Without the index it is the sum of the images. -/
theorem indexedSum_eq_sum (f : β → K) : indexedSum l (fun _ b => f b) = (l.map f).sum := by
  rw [indexedSum]
  induction l with
  | nil => rfl
  | cons b l ih =>
      rw [List.length_cons, sum_range_succ', List.map_cons, List.sum_cons, ← ih, add_comm]
      rfl

/-- Differences between neighbours cancel. -/
theorem indexedSum_differences (f : Nat → K) :
    indexedSum l (fun k _ => f (k + 1) - f k) = f l.length - f 0 := by
  rw [← sum_range_sub f l.length, indexedSum]
  refine sum_congr rfl fun k hk => ?_
  rw [List.getElem?_eq_getElem (mem_range.1 hk)]
  rfl

end IndexedSum

/-! ## Stages by controls and states -/

/-- The vector with the controls `u` before the states `x`. -/
def stageVector (nu : Nat) (u x : Nat → K) (i : Nat) : K := if i < nu then u i else x (i - nu)

omit [Field K] in
theorem stageVector_control {nu : Nat} (u x : Nat → K) {i : Nat} (hi : i < nu) :
    stageVector nu u x i = u i := if_pos hi

omit [Field K] in
theorem stageVector_state (nu : Nat) (u x : Nat → K) (j : Nat) :
    stageVector nu u x (nu + j) = x j := by
  rw [stageVector, if_neg (by omega), Nat.add_sub_cancel_left]

omit [Field K] in
/-- Any vector is the stage vector of its parts. -/
theorem stageVector_parts (nu : Nat) (v : Nat → K) :
    stageVector nu v (fun j => v (nu + j)) = v := by
  funext i
  rw [stageVector]
  split
  · rfl
  · rw [Nat.add_sub_cancel' (by omega)]

/-- A row over a stage vector is a row over the controls and one over the states. -/
theorem rowSum_stageVector {a : Nat → Nat → K} {nu nx i : Nat} {b c : Nat → K} (u x : Nat → K)
    (hu : ∀ j < nu, a i j = b j) (hx : ∀ j < nx, a i (nu + j) = c j) :
    rowSum a (nu + nx) (stageVector nu u x) i =
      ∑ j ∈ range nu, b j * u j + ∑ j ∈ range nx, c j * x j := by
  rw [rowSum, sum_range_add]
  congr 1
  · refine sum_congr rfl fun j hj => ?_
    rw [stageVector_control u x (mem_range.1 hj), hu j (mem_range.1 hj)]
  · refine sum_congr rfl fun j hj => ?_
    rw [stageVector_state, hx j (mem_range.1 hj)]

/-- Half the quadratic form of a table, `½ xᵀ a x`. -/
def halfForm (a : Nat → Nat → K) (n : Nat) (x : Nat → K) : K :=
  (∑ i ∈ range n, x i * rowSum a n x i) / 2

/-- Half the sum of the squares of the first `n` entries, `½ |x|²`. -/
def halfSquares (n : Nat) (x : Nat → K) : K := (∑ i ∈ range n, x i * x i) / 2

namespace Stage

/-- The quadratic form of the cost, `xᵀ Q x + 2 uᵀ S x + uᵀ R u`. -/
def quadratic (d : Stage K) (u x : Nat → K) : K :=
  ∑ i ∈ range d.sizes.nx, x i * rowSum d.Q.get d.sizes.nx x i
    + 2 * ∑ i ∈ range d.sizes.nu, u i * rowSum d.S.get d.sizes.nx x i
    + ∑ i ∈ range d.sizes.nu, u i * rowSum d.R.get d.sizes.nu u i

/-- The cost, `½ xᵀ Q x + uᵀ S x + ½ uᵀ R u + qᵀ x + rᵀ u`. -/
def cost (d : Stage K) (u x : Nat → K) : K :=
  d.quadratic u x / 2 + ∑ i ∈ range d.sizes.nx, d.q.get i * x i
    + ∑ i ∈ range d.sizes.nu, d.r.get i * u i

/-- Where the dynamics lead, `A x + B u + b`. -/
def successor (d : Stage K) (u x : Nat → K) (i : Nat) : K :=
  rowSum d.A.get d.sizes.nx x i + rowSum d.B.get d.sizes.nu u i + d.b.get i

/-- Entry `j` of an inequality row, box rows before general rows. -/
def rowEntry (d : Stage K) (row j : Nat) : K :=
  if row < d.sizes.nb then if d.idxb[row]? = some j then 1 else 0
  else if j < d.sizes.nu then d.D.get (row - d.sizes.nb) j
  else d.C.get (row - d.sizes.nb) (j - d.sizes.nu)

/-- The bounds of an inequality row. -/
def rowBounds (d : Stage K) (row : Nat) : Sides K :=
  if row < d.sizes.nb then ⟨d.lb.get row, d.ub.get row⟩
  else ⟨d.lg.get (row - d.sizes.nb), d.ug.get (row - d.sizes.nb)⟩

end Stage

/-! ## Packing -/

namespace PackedStage

/-- Symmetric blocks make a symmetric packed Hessian; the cross term is packed twice. -/
theorem hess_symm {d : Stage K} (hQ : SymmetricUpTo d.sizes.nx d.Q.get)
    (hR : SymmetricUpTo d.sizes.nu d.R.get) :
    SymmetricUpTo (d.sizes.nu + d.sizes.nx) (ofStage d).hess.get := by
  intro i hi j hj
  show (Mat.ofFn _ _ _).get i j = (Mat.ofFn _ _ _).get j i
  rw [Mat.get_ofFn_of_lt _ hi hj, Mat.get_ofFn_of_lt _ hj hi]
  by_cases hiu : i < d.sizes.nu
  · by_cases hju : j < d.sizes.nu
    · rw [if_pos hiu, if_pos hju, if_pos hju, if_pos hiu]
      exact hR i hiu j hju
    · rw [if_pos hiu, if_neg hju, if_neg hju, if_pos hiu]
  · by_cases hju : j < d.sizes.nu
    · rw [if_neg hiu, if_pos hju, if_pos hju, if_neg hiu]
    · rw [if_neg hiu, if_neg hju, if_neg hju, if_neg hiu]
      exact hQ _ (by omega) _ (by omega)

/-- The quadratic form of the packed Hessian, on stage vectors of length `n`. -/
def quadratic (p : PackedStage K) (n : Nat) (v : Nat → K) : K :=
  ∑ i ∈ range n, v i * rowSum p.hess.get n v i

/-- The cost of a packed stage. -/
def cost (p : PackedStage K) (n : Nat) (v : Nat → K) : K :=
  p.quadratic n v / 2 + ∑ i ∈ range n, p.grad.get i * v i

/-- The cost depends on the entries of the stage vector. -/
theorem cost_congr (p : PackedStage K) {n : Nat} {v z : Nat → K} (h : ∀ i < n, v i = z i) :
    p.cost n v = p.cost n z := by
  have hquadratic : p.quadratic n v = p.quadratic n z := by
    refine sum_congr rfl fun i hi => ?_
    rw [h i (mem_range.1 hi), rowSum_congr _ i h]
  rw [cost, cost, hquadratic]
  congr 1
  refine sum_congr rfl fun i hi => ?_
  rw [h i (mem_range.1 hi)]

variable (d : Stage K) (u x : Nat → K)

/-- Rows of the packed Hessian that belong to controls. -/
theorem hess_controlRow {i : Nat} (hi : i < d.sizes.nu) :
    rowSum (ofStage d).hess.get (d.sizes.nu + d.sizes.nx) (stageVector d.sizes.nu u x) i =
      rowSum d.R.get d.sizes.nu u i + rowSum d.S.get d.sizes.nx x i := by
  refine rowSum_stageVector u x (fun j hj => ?_) fun j hj => ?_
  · refine (Mat.get_ofFn_of_lt _ (by omega) (by omega)).trans ?_
    rw [if_pos hi, if_pos hj]
  · refine (Mat.get_ofFn_of_lt _ (by omega) (by omega)).trans ?_
    rw [if_pos hi, if_neg (by omega), Nat.add_sub_cancel_left]

/-- Rows of the packed Hessian that belong to states. -/
theorem hess_stateRow {i : Nat} (hi : i < d.sizes.nx) :
    rowSum (ofStage d).hess.get (d.sizes.nu + d.sizes.nx) (stageVector d.sizes.nu u x)
        (d.sizes.nu + i) =
      colSum d.S.get d.sizes.nu u i + rowSum d.Q.get d.sizes.nx x i := by
  refine rowSum_stageVector u x (fun j hj => ?_) fun j hj => ?_
  · refine (Mat.get_ofFn_of_lt _ (by omega) (by omega)).trans ?_
    rw [if_neg (by omega), if_pos hj, Nat.add_sub_cancel_left]
  · refine (Mat.get_ofFn_of_lt _ (by omega) (by omega)).trans ?_
    rw [if_neg (by omega), if_neg (by omega), Nat.add_sub_cancel_left, Nat.add_sub_cancel_left]

/-- The packed quadratic form is that of the stage. -/
theorem ofStage_quadratic :
    (ofStage d).quadratic (d.sizes.nu + d.sizes.nx) (stageVector d.sizes.nu u x) =
      d.quadratic u x := by
  have hcontrol : ∑ i ∈ range d.sizes.nu, stageVector d.sizes.nu u x i *
      rowSum (ofStage d).hess.get (d.sizes.nu + d.sizes.nx) (stageVector d.sizes.nu u x) i =
      ∑ i ∈ range d.sizes.nu, u i * rowSum d.R.get d.sizes.nu u i +
        ∑ i ∈ range d.sizes.nu, u i * rowSum d.S.get d.sizes.nx x i := by
    rw [← sum_add_distrib]
    refine sum_congr rfl fun i hi => ?_
    have hi' := mem_range.1 hi
    rw [stageVector_control u x hi', hess_controlRow d u x hi', mul_add]
  have hstate : ∑ i ∈ range d.sizes.nx, stageVector d.sizes.nu u x (d.sizes.nu + i) *
      rowSum (ofStage d).hess.get (d.sizes.nu + d.sizes.nx) (stageVector d.sizes.nu u x)
        (d.sizes.nu + i) =
      ∑ i ∈ range d.sizes.nu, u i * rowSum d.S.get d.sizes.nx x i +
        ∑ i ∈ range d.sizes.nx, x i * rowSum d.Q.get d.sizes.nx x i := by
    rw [sum_mul_rowSum, ← sum_add_distrib]
    refine sum_congr rfl fun i hi => ?_
    rw [stageVector_state, hess_stateRow d u x (mem_range.1 hi), mul_add, mul_comm (x i)]
  rw [quadratic, sum_range_add, hcontrol, hstate, Stage.quadratic]
  ring

/-- The packed cost is that of the stage. -/
theorem ofStage_cost (hd : d.WellShaped) :
    (ofStage d).cost (d.sizes.nu + d.sizes.nx) (stageVector d.sizes.nu u x) = d.cost u x := by
  have hcontrol : ∑ i ∈ range d.sizes.nu, (ofStage d).grad.get i * stageVector d.sizes.nu u x i =
      ∑ i ∈ range d.sizes.nu, d.r.get i * u i := by
    refine sum_congr rfl fun i hi => ?_
    have hi' := mem_range.1 hi
    rw [stageVector_control u x hi']
    congr 1
    exact Vec.get_append_left d.r d.q (by rw [hd.r]; exact hi')
  have hstate : ∑ i ∈ range d.sizes.nx, (ofStage d).grad.get (d.sizes.nu + i) *
      stageVector d.sizes.nu u x (d.sizes.nu + i) = ∑ i ∈ range d.sizes.nx, d.q.get i * x i := by
    refine sum_congr rfl fun i _ => ?_
    rw [stageVector_state]
    congr 1
    exact Vec.get_append_right d.r d.q hd.r i
  rw [cost, ofStage_quadratic, sum_range_add, hcontrol, hstate, Stage.cost]
  ring

/-- The packed dynamics lead where those of the stage lead. -/
theorem ofStage_dyn {i : Nat} (hi : i < d.nxNext) :
    rowSum (ofStage d).dyn.get (d.sizes.nu + d.sizes.nx) (stageVector d.sizes.nu u x) i
      + (ofStage d).off.get i = d.successor u x i := by
  have hrow : rowSum (ofStage d).dyn.get (d.sizes.nu + d.sizes.nx) (stageVector d.sizes.nu u x) i =
      rowSum d.B.get d.sizes.nu u i + rowSum d.A.get d.sizes.nx x i := by
    refine rowSum_stageVector u x (fun j hj => ?_) fun j hj => ?_
    · refine (Mat.get_ofFn_of_lt _ hi (by omega)).trans ?_
      rw [if_pos hj]
    · refine (Mat.get_ofFn_of_lt _ hi (by omega)).trans ?_
      rw [if_neg (by omega), Nat.add_sub_cancel_left]
  rw [hrow, Stage.successor, add_comm (rowSum d.B.get d.sizes.nu u i)]
  rfl

/-- The packed rows are box rows, then general rows. -/
theorem ofStage_jac {row j : Nat} (hrow : row < d.sizes.nc) (hj : j < d.sizes.nv) :
    (ofStage d).jac.get row j = d.rowEntry row j := by
  refine (Mat.get_ofFn_of_lt _ hrow hj).trans ?_
  simp only [Stage.rowEntry, List.getElem?_toArray]

/-- So are the packed bounds. -/
theorem ofStage_bound (hd : d.WellShaped) (row : Nat) :
    (ofStage d).bound.lo.get row = (d.rowBounds row).lo ∧
      (ofStage d).bound.up.get row = (d.rowBounds row).up := by
  have hnb : d.lb.size = d.sizes.nb := hd.lb
  have hnb' : d.ub.size = d.sizes.nb := hd.ub
  show (d.lb.append d.lg).get row = _ ∧ (d.ub.append d.ug).get row = _
  rw [Vec.get_append, Vec.get_append, hnb, hnb', Stage.rowBounds]
  split
  · exact ⟨rfl, rfl⟩
  · exact ⟨rfl, rfl⟩

/-- A packed box row reads the entry at its position. -/
theorem jac_boxRow {row i : Nat} (hpos : d.idxb[row]? = some i)
    (hi : i < d.sizes.nu + d.sizes.nx) (v : Nat → K) :
    rowSum (ofStage d).jac.get (d.sizes.nu + d.sizes.nx) v row = v i := by
  have hrow : row < d.sizes.nb := (List.getElem?_eq_some_iff.1 hpos).1
  have hentry : ∀ j < d.sizes.nu + d.sizes.nx,
      (ofStage d).jac.get row j = if i = j then 1 else 0 := by
    intro j hj
    rw [ofStage_jac d (Nat.lt_add_right _ hrow) hj, Stage.rowEntry, if_pos hrow, hpos]
    simp only [Option.some.injEq]
  rw [rowSum, sum_congr rfl fun j hj => by rw [hentry j (mem_range.1 hj)]]
  simp only [ite_mul, one_mul, zero_mul, sum_ite_eq, mem_range, if_pos hi]

/-- A packed general row. -/
theorem jac_generalRow {row : Nat} (hrow : row < d.sizes.ng) :
    rowSum (ofStage d).jac.get (d.sizes.nu + d.sizes.nx) (stageVector d.sizes.nu u x)
        (d.sizes.nb + row) =
      rowSum d.D.get d.sizes.nu u row + rowSum d.C.get d.sizes.nx x row := by
  have hnc : d.sizes.nb + row < d.sizes.nc := Nat.add_lt_add_left hrow _
  refine rowSum_stageVector u x (fun j hj => ?_) fun j hj => ?_
  · rw [ofStage_jac d hnc (Nat.lt_add_right _ hj), Stage.rowEntry, if_neg (by omega), if_pos hj,
      Nat.add_sub_cancel_left]
  · rw [ofStage_jac d hnc (Nat.add_lt_add_left hj _), Stage.rowEntry, if_neg (by omega),
      if_neg (by omega), Nat.add_sub_cancel_left, Nat.add_sub_cancel_left]

end PackedStage

variable [LinearOrder K]

/-- Box and general rows are within their bounds. -/
structure Stage.WithinBounds (d : Stage K) (u x : Nat → K) : Prop where
  /-- The entries of the stage vector at the positions of the box rows. -/
  box : ∀ row i, d.idxb[row]? = some i →
    d.lb.get row ≤ stageVector d.sizes.nu u x i ∧ stageVector d.sizes.nu u x i ≤ d.ub.get row
  /-- The general rows `D u + C x`. -/
  general : ∀ row < d.sizes.ng,
    d.lg.get row ≤ rowSum d.D.get d.sizes.nu u row + rowSum d.C.get d.sizes.nx x row ∧
      rowSum d.D.get d.sizes.nu u row + rowSum d.C.get d.sizes.nx x row ≤ d.ug.get row

/-- The packed rows are within bounds where box and general rows are. -/
theorem PackedStage.ofStage_rows {d : Stage K} {u x : Nat → K} (hd : d.WellShaped)
    (hpos : ∀ i ∈ d.idxb, i < d.sizes.nv) (h : d.WithinBounds u x) {row : Nat}
    (hrow : row < d.sizes.nc) :
    (ofStage d).bound.lo.get row ≤ rowSum (ofStage d).jac.get (d.sizes.nu + d.sizes.nx)
        (stageVector d.sizes.nu u x) row ∧
      rowSum (ofStage d).jac.get (d.sizes.nu + d.sizes.nx) (stageVector d.sizes.nu u x) row ≤
        (ofStage d).bound.up.get row := by
  have hnc : d.sizes.nc = d.sizes.nb + d.sizes.ng := rfl
  by_cases hbox : row < d.sizes.nb
  · obtain ⟨i, hi⟩ : ∃ i, d.idxb[row]? = some i := ⟨_, List.getElem?_eq_getElem hbox⟩
    rw [jac_boxRow d hi (hpos i (List.mem_of_getElem? hi))]
    show (d.lb.append d.lg).get row ≤ _ ∧ _ ≤ (d.ub.append d.ug).get row
    rw [Vec.get_append_left _ _ (by rw [hd.lb]; exact hbox),
      Vec.get_append_left _ _ (by rw [hd.ub]; exact hbox)]
    exact h.box row i hi
  · obtain ⟨j, rfl⟩ : ∃ j, row = d.sizes.nb + j := ⟨row - d.sizes.nb, by omega⟩
    have hj : j < d.sizes.ng := by omega
    rw [jac_generalRow d u x hj]
    show (d.lb.append d.lg).get _ ≤ _ ∧ _ ≤ (d.ub.append d.ug).get _
    rw [Vec.get_append_right _ _ hd.lb, Vec.get_append_right _ _ hd.ub]
    exact h.general j hj

/-! ## The problem -/

/-- Control `i` of stage `k`. -/
def Trajectory.control (t : Trajectory K) (k i : Nat) : K := t.u[k]?.elim 0 fun u => u.get i

/-- State `i` of stage `k`. -/
def Trajectory.state (t : Trajectory K) (k i : Nat) : K := t.x[k]?.elim 0 fun x => x.get i

omit [LinearOrder K] in
theorem Trajectory.control_zeros (sizes : List StageSizes) (k : Nat) :
    (zeros sizes : Trajectory K).control k = fun _ => 0 := by
  funext i
  rw [control, zeros, List.getElem?_map]
  cases (sizes.take (sizes.length - 1))[k]? with
  | none => rfl
  | some d => exact Vec.get_zeros _ _

omit [LinearOrder K] in
theorem Trajectory.state_zeros (sizes : List StageSizes) (k : Nat) :
    (zeros sizes : Trajectory K).state k = fun _ => 0 := by
  funext i
  rw [state, zeros, List.getElem?_map]
  cases sizes[k]? with
  | none => rfl
  | some d => exact Vec.get_zeros _ _

variable [SquareRoot K]

namespace Horizon

/-- The state and control blocks of every stage's cost are symmetric. -/
def Symmetric (h : Horizon K) : Prop := ∀ d ∈ h.stages,
  SymmetricUpTo d.sizes.nx d.Q.get ∧ SymmetricUpTo d.sizes.nu d.R.get

/-- The objective: the costs of all stages. -/
def objective (h : Horizon K) (t : Trajectory K) : K :=
  indexedSum h.stages fun k d => d.cost (t.control k) (t.state k)

/-- The sum of all absolute differences between the entries of two trajectories. -/
def distance (h : Horizon K) (t t' : Trajectory K) : K :=
  indexedSum h.stages fun k d =>
    ∑ i ∈ range d.sizes.nu, |t.control k i - t'.control k i|
      + ∑ i ∈ range d.sizes.nx, |t.state k i - t'.state k i|

/-- The trajectory satisfies the dynamics and all bounds. -/
structure Feasible (h : Horizon K) (t : Trajectory K) : Prop where
  /-- It has the vectors of the horizon. -/
  fits : t.fits h.sizes = true
  /-- The states follow the dynamics. -/
  dynamics : ∀ (k : Nat) (d : Stage K), h.stages[k]? = some d → ∀ i < d.nxNext,
    t.state (k + 1) i = d.successor (t.control k) (t.state k) i
  /-- All rows are within bounds. -/
  rows : ∀ (k : Nat) (d : Stage K), h.stages[k]? = some d →
    d.WithinBounds (t.control k) (t.state k)

/-- Number of inequality rows. -/
def rowCount (h : Horizon K) : Nat := (h.stages.map fun d => d.sizes.nc).sum

/-- The quadratic form of every stage's cost is nonnegative. -/
def Convex (h : Horizon K) : Prop := ∀ d ∈ h.stages, ∀ u x : Nat → K, 0 ≤ d.quadratic u x

end Horizon

/-- What a stage that holds a stage of a horizon has of it. -/
theorem StageState.eq_of_fixed {s : StageState K} {d : Stage K} (h : s.fixed = d.fixed) :
    s.nu = d.sizes.nu ∧ s.nx = d.sizes.nx ∧ s.data = PackedStage.ofStage d :=
  ⟨congrArg (fun p => p.1.2) h, congrArg (fun p => p.1.1) h, congrArg Prod.snd h⟩

theorem Horizon.Symmetric.hess {h : Horizon K} (hsymm : h.Symmetric) {l : List (StageState K)}
    (hl : l.map StageState.fixed = h.stages.map Stage.fixed) :
    ∀ s ∈ l, SymmetricUpTo (s.nu + s.nx) s.data.hess.get := by
  intro s hs
  obtain ⟨k, hk⟩ := List.getElem?_of_mem hs
  obtain ⟨d, hd, heq⟩ := exists_stage_of_fixed hl hk
  obtain ⟨hnu, hnx, hdata⟩ := StageState.eq_of_fixed heq
  obtain ⟨hQ, hR⟩ := hsymm d (List.mem_of_getElem? hd)
  rw [hnu, hnx, hdata]
  exact PackedStage.hess_symm hQ hR

/-- The packed form of a convex horizon's stages is nonnegative. -/
theorem Horizon.Convex.quadratic_nonneg {h : Horizon K} (hconvex : h.Convex)
    {l : List (StageState K)} (hl : l.map StageState.fixed = h.stages.map Stage.fixed) :
    ∀ s ∈ l, ∀ v, 0 ≤ s.data.quadratic (s.nu + s.nx) v := by
  intro s hs v
  obtain ⟨k, hk⟩ := List.getElem?_of_mem hs
  obtain ⟨d, hd, heq⟩ := exists_stage_of_fixed hl hk
  obtain ⟨hnu, hnx, hdata⟩ := StageState.eq_of_fixed heq
  rw [hnu, hnx, hdata, ← stageVector_parts d.sizes.nu v, PackedStage.ofStage_quadratic]
  exact hconvex d (List.mem_of_getElem? hd) _ _

/-! ## Trajectories as stage vectors -/

/-- The stage vectors of a trajectory. -/
def Horizon.vectors (h : Horizon K) (t : Trajectory K) (k : Nat) : Nat → K :=
  h.stages[k]?.elim (fun _ => 0) fun d => stageVector d.sizes.nu (t.control k) (t.state k)

/-- The stage vectors `z` follow the packed dynamics and keep the packed rows within bounds. -/
structure PackedFeasible (l : List (StageState K)) (z : Nat → Nat → K) : Prop where
  /-- The states of the stage after are those that the dynamics lead to. -/
  dynamics : ∀ (k : Nat) (s next : StageState K), l[k]? = some s → l[k + 1]? = some next →
    ∀ i < next.nx, rowSum s.data.dyn.get (s.nu + s.nx) (z k) i + s.data.off.get i =
      z (k + 1) (next.nu + i)
  /-- All rows are within bounds. -/
  rows : ∀ (k : Nat) (s : StageState K), l[k]? = some s → ∀ i < s.nc,
    s.data.bound.lo.get i ≤ rowSum s.data.jac.get (s.nu + s.nx) (z k) i ∧
      rowSum s.data.jac.get (s.nu + s.nx) (z k) i ≤ s.data.bound.up.get i

section Vectors

variable {h : Horizon K} {l : List (StageState K)}
  (hl : l.map StageState.fixed = h.stages.map Stage.fixed) (t : Trajectory K)

theorem Horizon.vectors_eq {k : Nat} {d : Stage K} (hd : h.stages[k]? = some d) :
    h.vectors t k = stageVector d.sizes.nu (t.control k) (t.state k) := by
  rw [vectors, hd, Option.elim_some]

include hl

/-- A feasible trajectory has feasible stage vectors. -/
theorem Horizon.Feasible.packed {t : Trajectory K} (ht : h.Feasible t) :
    PackedFeasible l (h.vectors t) := by
  constructor
  · intro k s next hs hnext i hi
    obtain ⟨d, hd, heq⟩ := exists_stage_of_fixed hl hs
    obtain ⟨d', hd', heq'⟩ := exists_stage_of_fixed hl hnext
    obtain ⟨hnu, hnx, hdata⟩ := StageState.eq_of_fixed heq
    obtain ⟨hnu', hnx', _⟩ := StageState.eq_of_fixed heq'
    have hi' : i < d.nxNext := by
      rw [h.consistent.link k d d' hd hd', ← hnx']
      exact hi
    rw [hnu, hnx, hdata, hnu', h.vectors_eq t hd, h.vectors_eq t hd',
      PackedStage.ofStage_dyn d _ _ hi', stageVector_state]
    exact (ht.dynamics k d hd i hi').symm
  · intro k s hs i hi
    obtain ⟨d, hd, heq⟩ := exists_stage_of_fixed hl hs
    obtain ⟨hnu, hnx, hdata⟩ := StageState.eq_of_fixed heq
    have hmem := List.mem_of_getElem? hd
    have hd' := h.consistent.shaped d hmem
    have hi' : i < d.sizes.nc := StageState.nc_of_fixed hd' heq ▸ hi
    rw [hnu, hnx, hdata, h.vectors_eq t hd]
    exact PackedStage.ofStage_rows hd' (h.consistent.positions d hmem) (ht.rows k d hd) hi'

/-- The objective, by the packed costs. -/
theorem Horizon.objective_eq : h.objective t =
    indexedSum l fun k s => s.data.cost (s.nu + s.nx) (h.vectors t k) := by
  refine indexedSum_congr (length_of_fixed hl).symm fun k d s hd hs => ?_
  obtain ⟨d', hd', heq⟩ := exists_stage_of_fixed hl hs
  obtain rfl := Option.some.inj (hd.symm.trans hd')
  obtain ⟨hnu, hnx, hdata⟩ := StageState.eq_of_fixed heq
  rw [hnu, hnx, hdata, h.vectors_eq t hd]
  exact (PackedStage.ofStage_cost d _ _ (h.consistent.shaped d (List.mem_of_getElem? hd))).symm

/-- The distance, by the stage vectors. -/
theorem Horizon.distance_eq (t' : Trajectory K) : h.distance t t' =
    indexedSum l fun k s =>
      ∑ i ∈ range (s.nu + s.nx), |h.vectors t k i - h.vectors t' k i| := by
  refine indexedSum_congr (length_of_fixed hl).symm fun k d s hd hs => ?_
  obtain ⟨d', hd', heq⟩ := exists_stage_of_fixed hl hs
  obtain rfl := Option.some.inj (hd.symm.trans hd')
  obtain ⟨hnu, hnx, _⟩ := StageState.eq_of_fixed heq
  rw [hnu, hnx, h.vectors_eq t hd, h.vectors_eq t' hd, sum_range_add]
  congr 1
  · refine sum_congr rfl fun i hi => ?_
    rw [stageVector_control _ _ (mem_range.1 hi), stageVector_control _ _ (mem_range.1 hi)]
  · refine sum_congr rfl fun i _ => ?_
    rw [stageVector_state, stageVector_state]

end Vectors

/-- The stage vectors of a trajectory that was read off a workspace. -/
theorem Workspace.vectors_toTrajectory {h : Horizon K} {w : Workspace K}
    (hw : HorizonShaped w.stages) (hl : w.stages.map StageState.fixed = h.stages.map Stage.fixed)
    {k : Nat} {s : StageState K} (hs : w.stages[k]? = some s) {i : Nat} (hi : i < s.nu + s.nx) :
    h.vectors w.toTrajectory k i = s.point.v.get i := by
  obtain ⟨d, hd, heq⟩ := exists_stage_of_fixed hl hs
  rw [h.vectors_eq _ hd, ← (StageState.eq_of_fixed heq).1]
  rcases Nat.lt_or_ge i s.nu with hlt | hge
  · have hnext : k + 1 < w.stages.length := by
      by_contra hlast
      have hnu := hw.last k s hs (List.getElem?_eq_none (by omega))
      omega
    have hcontrol : w.toTrajectory.u[k]? = some s.controls := by
      show (w.stages.dropLast.map StageState.controls)[k]? = _
      rw [List.getElem?_map, List.getElem?_dropLast, if_pos (by omega), hs]
      rfl
    rw [stageVector_control _ _ hlt, Trajectory.control, hcontrol, Option.elim_some,
      StageState.controls, Vec.get_slice_of_lt _ _ hlt, Nat.zero_add]
  · obtain ⟨j, rfl⟩ : ∃ j, i = s.nu + j := ⟨i - s.nu, by omega⟩
    have hstate : w.toTrajectory.x[k]? = some s.states := by
      show (w.stages.map StageState.states)[k]? = _
      rw [List.getElem?_map, hs]
      rfl
    rw [stageVector_state, Trajectory.state, hstate, Option.elim_some, StageState.states,
      Vec.get_slice_of_lt _ _ (by omega)]

end StagedQP
