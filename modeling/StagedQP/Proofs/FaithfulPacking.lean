import StagedQP.Proofs.CheckedStage
import StagedQP.Proofs.FeasibleSuccess

/-!
# Packed stages mean what the stage means

A stage is packed block by block into buffers that hold the stage of the solve before. Two things
make the result trustworthy. It says what the stage says, of every stage vector `v = [u; x]`:

```text
½ vᵀ hess v + gradᵀ v = ½ xᵀ Q x + uᵀ S x + ½ uᵀ R u + qᵀ x + rᵀ u
jac v                 = the entries of v at idxb, then D u + C x
lo ≤ jac v ≤ up         where box and general rows are within bounds
dyn v + off           = A x + B u + b
```

And no entry of the old stage is left: the blocks cover all buffers, and the box rows, of which only
the ones are written, are cleared first. So every buffer of the right sizes ends up the same, and
that is why `PackedStage.ofStage`, which never sees the buffers, can stand for what is loaded.

The equations are between vectors as the library computes them, in a field. They come from the
entries of the packed arrays, where the cross term is found twice.

## Main results

* `PackedStage.Represents` — the four statements above.
* `load_faithful` — loading.
-/

namespace StagedQP

open Finset

variable {K : Type} [Field K]

/-! ## Stage vectors in two parts -/

/-- Entries of a vector put together from controls and states. -/
theorem stageVector_append {nu : Nat} {u : Vec K} (hu : u.size = nu) (x : Vec K) :
    (u.append x).get = stageVector nu u.get x.get := by
  funext i
  rw [Vec.get_append, hu, stageVector]

theorem Vec.get_ofList (l : List K) (i : Nat) : (ofList l).get i = l[i]?.getD 0 := by
  simp [ofList, get, Array.getD_eq_getD_getElem?]

variable [LinearOrder K] [SquareRoot K]

/-- A bilinear form as a sum over the rows. -/
theorem Vec.dot_mulVec {v : Vec K} {m : Mat K} {n : Nat} (hv : v.size = n) (hrows : m.rows = n)
    (w : Vec K) :
    v.dot (m.mulVec w) = ∑ i ∈ range n, v.get i * rowSum m.get m.cols w.get i := by
  rw [dot_eq_sum, hv]
  refine sum_congr rfl fun i hi => ?_
  rw [Mat.get_mulVec_eq _ _ (hrows.symm ▸ mem_range.1 hi)]

/-! ## What packed data say -/

/-- The packed data say of every stage vector what the stage says of its controls and states. -/
structure PackedStage.Represents (p : PackedStage K) (d : Stage K) : Prop where
  /-- The cost. -/
  cost : ∀ u x : Vec K, u.size = d.sizes.nu → x.size = d.sizes.nx →
    (u.append x).dot (p.hess.mulVec (u.append x)) / 2 + p.grad.dot (u.append x) =
      x.dot (d.Q.mulVec x) / 2 + u.dot (d.S.mulVec x) + u.dot (d.R.mulVec u) / 2 + d.q.dot x
        + d.r.dot u
  /-- The rows: entries of the stage vector, then the general rows. -/
  rows : ∀ u x : Vec K, u.size = d.sizes.nu → x.size = d.sizes.nx →
    p.jac.mulVec (u.append x) =
      (Vec.ofList (d.idxb.map (u.append x).get)).append ((d.D.mulVec u).add (d.C.mulVec x))
  /-- The bounds of the rows. -/
  bounds : ∀ u x : Vec K, u.size = d.sizes.nu → x.size = d.sizes.nx →
    ((∀ row < d.sizes.nc, p.bound.lo.get row ≤ (p.jac.mulVec (u.append x)).get row ∧
      (p.jac.mulVec (u.append x)).get row ≤ p.bound.up.get row) ↔ d.WithinBounds u.get x.get)
  /-- The dynamics. -/
  dynamics : ∀ u x : Vec K, u.size = d.sizes.nu → x.size = d.sizes.nx →
    (p.dyn.mulVec (u.append x)).add p.off = ((d.A.mulVec x).add (d.B.mulVec u)).add d.b

namespace PackedStage

variable {d : Stage K} {u x : Vec K}

section Shaped

variable (hd : d.WellShaped) (hu : u.size = d.sizes.nu)

include hd hu

theorem ofStage_cost_append [IsStrictOrderedRing K] (hx : x.size = d.sizes.nx) :
    (u.append x).dot ((ofStage d).hess.mulVec (u.append x)) / 2
        + (ofStage d).grad.dot (u.append x) =
      x.dot (d.Q.mulVec x) / 2 + u.dot (d.S.mulVec x) + u.dot (d.R.mulVec u) / 2 + d.q.dot x
        + d.r.dot u := by
  have hsize : (u.append x).size = d.sizes.nu + d.sizes.nx := by rw [Vec.size_append, hu, hx]
  have hgrad : (ofStage d).grad.size = d.sizes.nu + d.sizes.nx := (sized_ofStage hd).grad
  have hpacked : (u.append x).dot ((ofStage d).hess.mulVec (u.append x)) / 2
      + (ofStage d).grad.dot (u.append x) =
        (ofStage d).cost (d.sizes.nu + d.sizes.nx) (stageVector d.sizes.nu u.get x.get) := by
    rw [Vec.dot_mulVec hsize rfl, Vec.dot_eq_sum, hgrad, stageVector_append hu]
    rfl
  have hquadratic : d.quadratic u.get x.get =
      x.dot (d.Q.mulVec x) + 2 * u.dot (d.S.mulVec x) + u.dot (d.R.mulVec u) := by
    rw [Vec.dot_mulVec hx rfl, Vec.dot_mulVec hu hd.S_rows, Vec.dot_mulVec hu rfl, hd.Q_cols,
      hd.S_cols, hd.R_cols]
    rfl
  have hlinear : d.cost u.get x.get = d.quadratic u.get x.get / 2 + d.q.dot x + d.r.dot u := by
    rw [Vec.dot_eq_sum, Vec.dot_eq_sum, hd.q, hd.r]
    rfl
  rw [hpacked, ofStage_cost d _ _ hd, hlinear, hquadratic]
  ring

theorem ofStage_rows_append (hpos : ∀ i ∈ d.idxb, i < d.sizes.nv) :
    (ofStage d).jac.mulVec (u.append x) =
      (Vec.ofList (d.idxb.map (u.append x).get)).append ((d.D.mulVec u).add (d.C.mulVec x)) := by
  have hbox : (Vec.ofList (d.idxb.map (u.append x).get)).size = d.sizes.nb := by
    simp [Vec.size, Vec.ofList, Stage.sizes]
  have hgeneral : ((d.D.mulVec u).add (d.C.mulVec x)).size = d.sizes.ng := by
    rw [Vec.size_add, Mat.size_mulVec, hd.D_rows]
  refine Vec.ext_get ?_ fun row hrow => ?_
  · rw [Mat.size_mulVec, Vec.size_append, hbox, hgeneral]
    rfl
  · rw [Mat.size_mulVec] at hrow
    have hnc : row < d.sizes.nb + d.sizes.ng := hrow
    rw [Mat.get_mulVec_eq _ _ hrow]
    by_cases hbelow : row < d.sizes.nb
    · obtain ⟨i, hi⟩ : ∃ i, d.idxb[row]? = some i := ⟨_, List.getElem?_eq_getElem hbelow⟩
      rw [Vec.get_append_left _ _ (hbox.symm ▸ hbelow), Vec.get_ofList, List.getElem?_map, hi]
      exact jac_boxRow d hi (hpos i (List.mem_of_getElem? hi)) _
    · obtain ⟨j, rfl⟩ : ∃ j, row = d.sizes.nb + j := ⟨row - d.sizes.nb, by omega⟩
      have hj : j < d.sizes.ng := by omega
      have hD : j < d.D.rows := hd.D_rows.symm ▸ hj
      have hsum : j < (d.D.mulVec u).size := by rwa [Mat.size_mulVec]
      rw [Vec.get_append_right _ _ hbox, Vec.get_add _ _ hsum, Mat.get_mulVec_eq _ _ hD,
        Mat.get_mulVec_eq _ _ hj, hd.D_cols, hd.C_cols, stageVector_append hu]
      exact jac_generalRow d _ _ hj

theorem ofStage_bounds_append [IsStrictOrderedRing K] (hpos : ∀ i ∈ d.idxb, i < d.sizes.nv) :
    (∀ row < d.sizes.nc,
      (ofStage d).bound.lo.get row ≤ ((ofStage d).jac.mulVec (u.append x)).get row ∧
        ((ofStage d).jac.mulVec (u.append x)).get row ≤ (ofStage d).bound.up.get row) ↔
      d.WithinBounds u.get x.get := by
  have hrow : ∀ row < d.sizes.nc, ((ofStage d).jac.mulVec (u.append x)).get row =
      rowSum (ofStage d).jac.get (d.sizes.nu + d.sizes.nx)
        (stageVector d.sizes.nu u.get x.get) row := by
    intro row hrow
    rw [Mat.get_mulVec_eq _ _ hrow, stageVector_append hu]
    rfl
  constructor
  · intro h
    refine Stage.withinTolerance_zero.1 (withinTolerance hd hpos fun row hlt => ?_)
    rw [sub_zero, add_zero, ← hrow row hlt]
    exact h row hlt
  · intro h row hlt
    rw [hrow row hlt]
    exact ofStage_rows hd hpos h hlt

theorem ofStage_dynamics_append :
    ((ofStage d).dyn.mulVec (u.append x)).add (ofStage d).off =
      ((d.A.mulVec x).add (d.B.mulVec u)).add d.b := by
  refine Vec.ext_get ?_ fun i hi => ?_
  · simp only [Vec.size_add, Mat.size_mulVec]
    rfl
  · have hrow : i < (ofStage d).dyn.rows := by
      rwa [Vec.size_add, Mat.size_mulVec] at hi
    have hA : i < d.A.rows := hrow
    have hB : i < d.B.rows := hd.B_rows.symm ▸ hA
    have hpacked : i < ((ofStage d).dyn.mulVec (u.append x)).size := by rwa [Mat.size_mulVec]
    have hstates : i < (d.A.mulVec x).size := by rwa [Mat.size_mulVec]
    have hsum : i < ((d.A.mulVec x).add (d.B.mulVec u)).size := by rwa [Vec.size_add]
    rw [Vec.get_add _ _ hpacked, Mat.get_mulVec_eq _ _ hrow, Vec.get_add _ _ hsum,
      Vec.get_add _ _ hstates, Mat.get_mulVec_eq _ _ hA, Mat.get_mulVec_eq _ _ hB, hd.A_cols,
      hd.B_cols, stageVector_append hu]
    exact ofStage_dyn d _ _ hrow

end Shaped

/-- Packing means what the stage means. -/
theorem represents_ofStage [IsStrictOrderedRing K] (hd : d.WellShaped)
    (hpos : ∀ i ∈ d.idxb, i < d.sizes.nv) : (ofStage d).Represents d where
  cost _ _ hu hx := ofStage_cost_append hd hu hx
  rows _ _ hu _ := ofStage_rows_append hd hu hpos
  bounds _ _ hu _ := ofStage_bounds_append hd hu hpos
  dynamics _ _ hu _ := ofStage_dynamics_append hd hu

end PackedStage

/-! ## Loading -/

/-- **Packing is faithful and forgets what was packed before.** For every stage that passes its
checks there are packed data that say what the stage says; and every stage state with buffers of the
stage's sizes, whatever is in them, holds exactly these data once the stage has been loaded, which
succeeds and touches nothing else. -/
theorem load_faithful [IsStrictOrderedRing K] {d : Stage K} {k : Nat} (hd : d.check k = .ok ()) :
    ∃ p : PackedStage K, p.Represents d ∧ ∀ s : StageState K, s.Sized d.sizes d.nxNext →
      Checked.load d s = .ok { s with data := p } ∧
        Workspace.loadStages [s] [d] = [{ s with data := p }] := by
  have hshaped := Stage.wellShaped_of_check hd
  have hpos := Stage.positions_of_check hd
  exact ⟨.ofStage d, PackedStage.represents_ofStage hshaped hpos,
    fun s hs => ⟨Checked.load_eq hs hshaped hpos, rfl⟩⟩

/-- A stage with one state and one control, all blocks different, the state between bounds and one
general row. -/
def Stage.mixed : Stage ℚ :=
  { (Stage.zeros 1 1 1 : Stage ℚ) with
    A := Mat.ofFn 1 1 fun _ _ => 2
    B := Mat.ofFn 1 1 fun _ _ => 3
    b := .ofList [5]
    Q := Mat.ofFn 1 1 fun _ _ => 4
    S := Mat.ofFn 1 1 fun _ _ => 1
    R := Mat.ofFn 1 1 fun _ _ => 6
    q := .ofList [7]
    r := .ofList [8]
    idxb := [1]
    lb := .ofList [-1]
    ub := .ofList [1]
    C := Mat.ofFn 1 1 fun _ _ => -1
    D := Mat.ofFn 1 1 fun _ _ => 1
    lg := .ofList [0]
    ug := .ofList [9] }

/-- The buffers of such a stage after one that bounded the control, not the state. -/
def StageState.occupied : StageState ℚ :=
  { StageState.zeros Stage.mixed.sizes 1 with data := .ofStage { Stage.mixed with idxb := [0] } }

/-- For instance in buffers whose box row was that of the control `2`: once the stage is loaded, the
row is that of the state `3`, which is above its bound. -/
theorem load_faithful_mixed : ∃ p : PackedStage ℚ,
    Checked.load Stage.mixed .occupied = .ok { StageState.occupied with data := p } ∧
    (StageState.occupied.data.jac.mulVec ((Vec.ofList [2]).append (.ofList [3]))).toList =
      [2, -1] ∧
    (p.jac.mulVec ((Vec.ofList [2]).append (.ofList [3]))).toList = [3, -1] ∧
    ((p.dyn.mulVec ((Vec.ofList [2]).append (.ofList [3]))).add p.off).toList = [17] := by
  have hcheck : ((Stage.mixed.check 0).toOption.map fun _ => ()) = some () := by decide +kernel
  obtain ⟨_, hd, _⟩ := exists_of_evaluated hcheck
  obtain ⟨p, hp, hload⟩ := load_faithful hd
  have hempty := StageState.sized_zeros (α := ℚ) Stage.mixed.sizes 1
  have hsized : StageState.occupied.Sized Stage.mixed.sizes Stage.mixed.nxNext :=
    { hempty with
      data := ⟨⟨rfl, rfl⟩, rfl, ⟨rfl, rfl⟩, ⟨rfl, rfl⟩, rfl, ⟨rfl, rfl⟩⟩ }
  refine ⟨p, (hload _ hsized).1, by decide +kernel, ?_, ?_⟩
  · rw [hp.rows _ _ rfl rfl]
    decide +kernel
  · rw [hp.dynamics _ _ rfl rfl]
    decide +kernel

end StagedQP
