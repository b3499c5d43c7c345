import StagedQP.Proofs.BufferSizes
import StagedQP.Proofs.FeasibleSuccess
import StagedQP.Proofs.OptimalityCertificate

/-!
# The slope of the Lagrangian

The stationarity residual of a stage is meant to be the gradient, in the vector of the stage, of

```text
Σ cost  +  Σ pi (successor - states of the stage after)  -  Σ lam_lo (row - lo) + lam_up (up - row)
```

The cost is `½ vᵀ H v + gᵀ v`, whose gradient is `½ (H + Hᵀ) v + g`, and the residual has `H v + g`.
The two differ by `½ (H - Hᵀ) v`. The cross terms of `H` are packed in both places and cancel, so
what is left comes from the blocks `R` and `Q`, and nothing in the checks of a stage makes these
symmetric.

So with symmetric blocks the residual is the gradient at every point. In general it is the gradient
at those points at which the blocks and their transposes agree, and only there. A solve of a horizon
whose blocks are not symmetric may end in success at a point that is neither stationary nor least.

The Lagrangian is quadratic along every line, so its slope can be read off in any field:
`SlopeAtZero f g` says that `f ε = f 0 + g ε + c ε²` for some `c`.

## Main results

* `SlopeAtZero.tendsto` — over the reals the slope is the limit of the difference quotients.
* `PackedStage.hess_skew` — what the packed Hessian and its transpose differ by.
* `Evaluated.slope_lagrangian` — the slope of the Lagrangian along any direction.
* `residual_stat_gradient` — when the stationarity residual is the gradient.
* `Horizon.success_off_minimum` — a success that is not a minimum.
-/

namespace StagedQP

open Finset

variable {K : Type} [Field K]

/-! ## Slopes of quadratics -/

/-- Up to a term of second order, `f` is its value at zero and a line of slope `g`. -/
def SlopeAtZero (f : K → K) (g : K) : Prop := ∃ c, ∀ ε, f ε = f 0 + g * ε + c * (ε * ε)

/-- Over the reals the slope is the limit of the difference quotients. -/
theorem SlopeAtZero.tendsto {f : ℝ → ℝ} {g : ℝ} (h : SlopeAtZero f g) :
    Filter.Tendsto (fun ε => (f ε - f 0) / ε) (nhdsWithin 0 {0}ᶜ) (nhds g) := by
  obtain ⟨c, hc⟩ := h
  have hcontinuous : Continuous fun ε : ℝ => g + c * ε := by fun_prop
  have hline : Filter.Tendsto (fun ε : ℝ => g + c * ε) (nhds 0) (nhds g) := by
    simpa using hcontinuous.tendsto 0
  refine (hline.mono_left nhdsWithin_le_nhds).congr' ?_
  filter_upwards [self_mem_nhdsWithin] with ε hε
  have hne : ε ≠ 0 := hε
  rw [hc ε]
  field_simp
  ring

namespace SlopeAtZero

variable {f f' : K → K} {a c g g' : K}

theorem of_quadratic (h : ∀ ε, f ε = a + g * ε + c * (ε * ε)) : SlopeAtZero f g := by
  refine ⟨c, fun ε => ?_⟩
  rw [h ε, h 0]
  ring

theorem of_line (h : ∀ ε, f ε = ε * g + a) : SlopeAtZero f g :=
  of_quadratic (a := a) (c := 0) fun ε => by rw [h ε]; ring

theorem add (h : SlopeAtZero f g) (h' : SlopeAtZero f' g') :
    SlopeAtZero (fun ε => f ε + f' ε) (g + g') := by
  obtain ⟨c, hc⟩ := h
  obtain ⟨c', hc'⟩ := h'
  refine of_quadratic (a := f 0 + f' 0) (c := c + c') fun ε => ?_
  rw [hc ε, hc' ε]
  ring

theorem const_mul (h : SlopeAtZero f g) (b : K) : SlopeAtZero (fun ε => b * f ε) (b * g) := by
  obtain ⟨c, hc⟩ := h
  refine of_quadratic (a := b * f 0) (c := b * c) fun ε => ?_
  rw [hc ε]
  ring

theorem sub (h : SlopeAtZero f g) (h' : SlopeAtZero f' g') :
    SlopeAtZero (fun ε => f ε - f' ε) (g - g') := by
  have hsum := h.add (h'.const_mul (-1))
  simp only [neg_one_mul, ← sub_eq_add_neg] at hsum
  exact hsum

theorem sum {β : Type} {s : Finset β} {F : β → K → K} {G : β → K}
    (h : ∀ b ∈ s, SlopeAtZero (F b) (G b)) :
    SlopeAtZero (fun ε => ∑ b ∈ s, F b ε) (∑ b ∈ s, G b) := by
  choose! c hc using h
  refine ⟨∑ b ∈ s, c b, fun ε => ?_⟩
  rw [sum_mul, sum_mul, ← sum_add_distrib, ← sum_add_distrib]
  exact sum_congr rfl fun b hb => hc b hb ε

theorem indexedSum {β : Type} {l : List β} {F : Nat → β → K → K} {G : Nat → β → K}
    (h : ∀ k b, l[k]? = some b → SlopeAtZero (F k b) (G k b)) :
    SlopeAtZero (fun ε => StagedQP.indexedSum l fun k b => F k b ε) (StagedQP.indexedSum l G) := by
  refine sum (F := fun k ε => l[k]?.elim 0 fun b => F k b ε) fun k hk => ?_
  have hget := List.getElem?_eq_getElem (mem_range.1 hk)
  rw [hget]
  exact h k _ hget

/-- The slope is half the difference of the values at `1` and `-1`. -/
theorem two_mul_eq (h : SlopeAtZero f g) : 2 * g = f 1 - f (-1) := by
  obtain ⟨c, hc⟩ := h
  rw [hc 1, hc (-1)]
  ring

end SlopeAtZero

/-! ## What a Hessian that is not symmetric adds -/

namespace PackedStage

/-- The cost along a line. -/
theorem cost_line (p : PackedStage K) (n : Nat) (v δ : Nat → K) (ε : K) :
    p.cost n (fun j => ε * δ j + v j) = p.cost n v
      + (∑ i ∈ range n, (p.grad.get i
          + (rowSum p.hess.get n v i + colSum p.hess.get n v i) / 2) * δ i) * ε
      + p.quadratic n δ / 2 * (ε * ε) := by
  have hcross : ∑ i ∈ range n, v i * rowSum p.hess.get n δ i =
      ∑ i ∈ range n, colSum p.hess.get n v i * δ i := sum_mul_rowSum ..
  have hquadratic : p.quadratic n (fun j => ε * δ j + v j) = p.quadratic n v
      + ε * (∑ i ∈ range n, δ i * rowSum p.hess.get n v i
          + ∑ i ∈ range n, v i * rowSum p.hess.get n δ i)
      + ε * ε * p.quadratic n δ := by
    simp only [quadratic, mul_add, mul_sum, ← sum_add_distrib]
    refine sum_congr rfl fun i _ => ?_
    rw [rowSum_advance]
    ring
  have hlinear : ∑ i ∈ range n, p.grad.get i * (ε * δ i + v i) =
      ε * ∑ i ∈ range n, p.grad.get i * δ i + ∑ i ∈ range n, p.grad.get i * v i :=
    rowSum_advance (fun _ => p.grad.get) n ε v δ 0
  have hslope : ∑ i ∈ range n, (p.grad.get i
      + (rowSum p.hess.get n v i + colSum p.hess.get n v i) / 2) * δ i =
      ∑ i ∈ range n, p.grad.get i * δ i + (∑ i ∈ range n, δ i * rowSum p.hess.get n v i
        + ∑ i ∈ range n, colSum p.hess.get n v i * δ i) / 2 := by
    rw [← sum_add_distrib, sum_div, ← sum_add_distrib]
    refine sum_congr rfl fun i _ => ?_
    ring
  rw [cost, cost, hquadratic, hlinear, hslope, hcross]
  ring

end PackedStage

/-- What the blocks and their transposes differ by at a stage vector, `(R - Rᵀ) u` and then
`(Q - Qᵀ) x`. -/
def Stage.skew (d : Stage K) (v : Nat → K) (i : Nat) : K :=
  if i < d.sizes.nu then rowSum d.R.get d.sizes.nu v i - colSum d.R.get d.sizes.nu v i
  else
    rowSum d.Q.get d.sizes.nx (fun j => v (d.sizes.nu + j)) (i - d.sizes.nu)
      - colSum d.Q.get d.sizes.nx (fun j => v (d.sizes.nu + j)) (i - d.sizes.nu)

/-- Symmetric blocks are their own transposes. -/
theorem Stage.skew_of_symmetric {d : Stage K} (hQ : SymmetricUpTo d.sizes.nx d.Q.get)
    (hR : SymmetricUpTo d.sizes.nu d.R.get) (v : Nat → K) {i : Nat}
    (hi : i < d.sizes.nu + d.sizes.nx) : d.skew v i = 0 := by
  rw [skew]
  split
  · rw [colSum_of_symm hR v ‹_›, sub_self]
  · rw [colSum_of_symm hQ _ (by omega), sub_self]

namespace PackedStage

variable (d : Stage K) (u x : Nat → K)

/-- Columns of the packed Hessian that belong to controls. -/
theorem hess_controlColumn {j : Nat} (hj : j < d.sizes.nu) :
    colSum (ofStage d).hess.get (d.sizes.nu + d.sizes.nx) (stageVector d.sizes.nu u x) j =
      colSum d.R.get d.sizes.nu u j + rowSum d.S.get d.sizes.nx x j := by
  refine rowSum_stageVector (a := fun j i => (ofStage d).hess.get i j) u x (fun i hi => ?_)
    fun i hi => ?_
  · refine (Mat.get_ofFn_of_lt _ (by omega) (by omega)).trans ?_
    rw [if_pos hi, if_pos hj]
  · refine (Mat.get_ofFn_of_lt _ (by omega) (by omega)).trans ?_
    rw [if_neg (by omega), if_pos hj, Nat.add_sub_cancel_left]

/-- Columns of the packed Hessian that belong to states. -/
theorem hess_stateColumn {j : Nat} (hj : j < d.sizes.nx) :
    colSum (ofStage d).hess.get (d.sizes.nu + d.sizes.nx) (stageVector d.sizes.nu u x)
        (d.sizes.nu + j) =
      colSum d.S.get d.sizes.nu u j + colSum d.Q.get d.sizes.nx x j := by
  refine rowSum_stageVector (a := fun j i => (ofStage d).hess.get i j) u x (fun i hi => ?_)
    fun i hi => ?_
  · refine (Mat.get_ofFn_of_lt _ (by omega) (by omega)).trans ?_
    rw [if_pos hi, if_neg (by omega), Nat.add_sub_cancel_left]
  · refine (Mat.get_ofFn_of_lt _ (by omega) (by omega)).trans ?_
    rw [if_neg (by omega), if_neg (by omega), Nat.add_sub_cancel_left, Nat.add_sub_cancel_left]

/-- The packed Hessian and its transpose differ by what the blocks and theirs do. The cross term,
which is packed twice, does not show. -/
theorem hess_skew (v : Nat → K) {i : Nat} (hi : i < d.sizes.nu + d.sizes.nx) :
    rowSum (ofStage d).hess.get (d.sizes.nu + d.sizes.nx) v i
      - colSum (ofStage d).hess.get (d.sizes.nu + d.sizes.nx) v i = d.skew v i := by
  rw [← stageVector_parts d.sizes.nu v, Stage.skew]
  split
  · next hcontrol =>
      rw [hess_controlRow d _ _ hcontrol, hess_controlColumn d _ _ hcontrol,
        add_sub_add_right_eq_sub, stageVector_parts]
  · next hstate =>
      obtain ⟨j, rfl⟩ : ∃ j, i = d.sizes.nu + j := ⟨i - d.sizes.nu, by omega⟩
      rw [hess_stateRow d _ _ (by omega), hess_stateColumn d _ _ (by omega),
        add_sub_add_left_eq_sub, stageVector_parts, Nat.add_sub_cancel_left]

end PackedStage

/-! ## The Lagrangian -/

/-- Stage vectors and multipliers, by stage and entry. -/
structure ChainPoint (K : Type) where
  /-- The stage vectors. -/
  v : Nat → Nat → K
  /-- The multipliers of the dynamics that leave a stage. -/
  pi : Nat → Nat → K
  /-- The multipliers of the rows. -/
  lam : Sides (Nat → Nat → K)

/-- The point with the stage vectors moved along `δ`. -/
def ChainPoint.along (p : ChainPoint K) (δ : Nat → Nat → K) (ε : K) : ChainPoint K :=
  { p with v := fun k j => ε * δ k j + p.v k j }

/-- The direction of entry `i` of the vector of stage `k`. -/
def unitAt (k i k' i' : Nat) : K := if k' = k ∧ i' = i then 1 else 0

/-- The current point of a workspace. -/
def Workspace.current (w : Workspace K) : ChainPoint K where
  v k i := w.stages[k]?.elim 0 fun s => s.point.v.get i
  pi k i := w.stages[k]?.elim 0 fun s => s.point.pi.get i
  lam :=
    { lo := fun k i => w.stages[k]?.elim 0 fun s => s.point.lam.lo.get i
      up := fun k i => w.stages[k]?.elim 0 fun s => s.point.lam.up.get i }

/-- The stationarity residuals of a workspace. -/
def Workspace.stationarity (w : Workspace K) (k i : Nat) : K :=
  w.stages[k]?.elim 0 fun s => s.residual.stat.get i

variable [LinearOrder K] [SquareRoot K]

namespace Horizon

/-- The states of the stage after stage `k`, where there is one. -/
def statesAfter (h : Horizon K) (v : Nat → Nat → K) (k i : Nat) : K :=
  h.stages[k + 1]?.elim 0 fun next => v (k + 1) (next.sizes.nu + i)

/-- What a stage adds to the Lagrangian: its cost, its dynamics and its rows, the latter with their
multipliers. -/
def stageLagrangian (h : Horizon K) (p : ChainPoint K) (k : Nat) (d : Stage K) : K :=
  d.cost (p.v k) (fun j => p.v k (d.sizes.nu + j))
    + ∑ i ∈ range d.nxNext, p.pi k i *
        (d.successor (p.v k) (fun j => p.v k (d.sizes.nu + j)) i - h.statesAfter p.v k i)
    - ∑ row ∈ range d.sizes.nc,
        (p.lam.lo k row * (rowSum d.rowEntry d.sizes.nv (p.v k) row - (d.rowBounds row).lo)
          + p.lam.up k row * ((d.rowBounds row).up - rowSum d.rowEntry d.sizes.nv (p.v k) row))

/-- The Lagrangian of the problem that the horizon poses. -/
def lagrangian (h : Horizon K) (p : ChainPoint K) : K := indexedSum h.stages (h.stageLagrangian p)

/-- The product of two families of stage vectors. -/
def pairing (h : Horizon K) (g δ : Nat → Nat → K) : K :=
  indexedSum h.stages fun k d => ∑ i ∈ range (d.sizes.nu + d.sizes.nx), g k i * δ k i

/-- The slope of the Lagrangian along any direction of the stage vectors is the product with `g`. -/
def IsGradient (h : Horizon K) (p : ChainPoint K) (g : Nat → Nat → K) : Prop :=
  ∀ δ : Nat → Nat → K, SlopeAtZero (fun ε => h.lagrangian (p.along δ ε)) (h.pairing g δ)

/-- What blocks and their transposes differ by at the stage vectors. -/
def skew (h : Horizon K) (v : Nat → Nat → K) (k i : Nat) : K :=
  h.stages[k]?.elim 0 fun d => d.skew (v k) i

/-! ### Gradients are unique -/

section Gradients

variable {h : Horizon K}

/-- The product with the unit vector of an entry is the entry. -/
theorem pairing_unit (g : Nat → Nat → K) {k i : Nat} {d : Stage K} (hd : h.stages[k]? = some d)
    (hi : i < d.sizes.nu + d.sizes.nx) :
    h.pairing g (unitAt k i) = g k i := by
  rw [pairing, indexedSum_single hd]
  · rw [sum_eq_single_of_mem i (mem_range.2 hi), unitAt, if_pos ⟨rfl, rfl⟩, mul_one]
    intro i' _ hne
    rw [unitAt, if_neg fun hand => hne hand.2, mul_zero]
  · intro k' b' hne
    refine sum_eq_zero fun i' _ => ?_
    rw [unitAt, if_neg fun hand => hne hand.1, mul_zero]

theorem pairing_congr {g g' : Nat → Nat → K} (hg : ∀ k d, h.stages[k]? = some d →
    ∀ i < d.sizes.nu + d.sizes.nx, g k i = g' k i) (δ : Nat → Nat → K) :
    h.pairing g δ = h.pairing g' δ := by
  refine indexedSum_congr rfl fun k d d' hd hd' => ?_
  obtain rfl := Option.some.inj (hd.symm.trans hd')
  refine sum_congr rfl fun i hi => ?_
  rw [hg k d hd i (mem_range.1 hi)]

variable {p : ChainPoint K} {g g' : Nat → Nat → K}

/-- Any two gradients have the same entries. -/
theorem IsGradient.unique [IsStrictOrderedRing K] (hg : h.IsGradient p g)
    (hg' : h.IsGradient p g') {k : Nat} {d : Stage K} (hd : h.stages[k]? = some d) {i : Nat}
    (hi : i < d.sizes.nu + d.sizes.nx) : g k i = g' k i := by
  have htwice := (hg (unitAt k i)).two_mul_eq.trans (hg' (unitAt k i)).two_mul_eq.symm
  have hequal := mul_left_cancel₀ two_ne_zero htwice
  rwa [pairing_unit g hd hi, pairing_unit g' hd hi] at hequal

/-- Entries past the ends of the stage vectors are not read. -/
theorem IsGradient.congr (hp : h.IsGradient p g) (hg : ∀ k d, h.stages[k]? = some d →
    ∀ i < d.sizes.nu + d.sizes.nx, g k i = g' k i) : h.IsGradient p g' := by
  intro δ
  rw [← pairing_congr hg]
  exact hp δ

end Gradients

end Horizon

/-! ## Along a chain -/

section Parts

variable {d : Stage K}

omit [SquareRoot K] in
/-- The slope of the cost of a stage. -/
theorem Stage.slope_cost [IsStrictOrderedRing K] (hd : d.WellShaped) (v δ : Nat → K) :
    SlopeAtZero (fun ε => d.cost (fun j => ε * δ j + v j)
        fun j => ε * δ (d.sizes.nu + j) + v (d.sizes.nu + j))
      (∑ i ∈ range (d.sizes.nu + d.sizes.nx), ((PackedStage.ofStage d).grad.get i
        + rowSum (PackedStage.ofStage d).hess.get (d.sizes.nu + d.sizes.nx) v i - d.skew v i / 2)
          * δ i) := by
  have hpacked : ∀ z : Nat → K, d.cost z (fun j => z (d.sizes.nu + j)) =
      (PackedStage.ofStage d).cost (d.sizes.nu + d.sizes.nx) z := by
    intro z
    rw [← PackedStage.ofStage_cost d _ _ hd, stageVector_parts]
  have hgradient : ∑ i ∈ range (d.sizes.nu + d.sizes.nx), ((PackedStage.ofStage d).grad.get i
      + rowSum (PackedStage.ofStage d).hess.get (d.sizes.nu + d.sizes.nx) v i - d.skew v i / 2)
        * δ i =
      ∑ i ∈ range (d.sizes.nu + d.sizes.nx), ((PackedStage.ofStage d).grad.get i
        + (rowSum (PackedStage.ofStage d).hess.get (d.sizes.nu + d.sizes.nx) v i
          + colSum (PackedStage.ofStage d).hess.get (d.sizes.nu + d.sizes.nx) v i) / 2) * δ i := by
    refine sum_congr rfl fun i hi => ?_
    rw [← PackedStage.hess_skew d v (mem_range.1 hi)]
    field_simp
    ring
  rw [hgradient]
  exact .of_quadratic fun ε =>
    (hpacked fun j => ε * δ j + v j).trans (PackedStage.cost_line _ _ v δ ε)

omit [LinearOrder K] [SquareRoot K] in
/-- Where the dynamics lead along a line. -/
theorem Stage.successor_line (d : Stage K) (v δ : Nat → K) (ε : K) {i : Nat} (hi : i < d.nxNext) :
    d.successor (fun j => ε * δ j + v j) (fun j => ε * δ (d.sizes.nu + j) + v (d.sizes.nu + j)) i =
      ε * rowSum (PackedStage.ofStage d).dyn.get (d.sizes.nu + d.sizes.nx) δ i
        + d.successor v (fun j => v (d.sizes.nu + j)) i := by
  have hpacked : ∀ z : Nat → K, d.successor z (fun j => z (d.sizes.nu + j)) i =
      rowSum (PackedStage.ofStage d).dyn.get (d.sizes.nu + d.sizes.nx) z i
        + (PackedStage.ofStage d).off.get i := by
    intro z
    rw [← PackedStage.ofStage_dyn d _ _ hi, stageVector_parts]
  rw [hpacked fun j => ε * δ j + v j, hpacked v, rowSum_advance, add_assoc]

omit [LinearOrder K] [SquareRoot K] in
/-- A row along a line. -/
theorem Stage.row_line (d : Stage K) (v δ : Nat → K) (ε : K) {row : Nat}
    (hrow : row < d.sizes.nc) :
    rowSum d.rowEntry d.sizes.nv (fun j => ε * δ j + v j) row =
      ε * rowSum (PackedStage.ofStage d).jac.get (d.sizes.nu + d.sizes.nx) δ row
        + rowSum d.rowEntry d.sizes.nv v row := by
  have hpacked : rowSum (PackedStage.ofStage d).jac.get (d.sizes.nu + d.sizes.nx) δ row =
      rowSum d.rowEntry d.sizes.nv δ row :=
    rowSum_congr_table δ row fun j hj => PackedStage.ofStage_jac d hrow hj
  rw [rowSum_advance, hpacked]

end Parts

/-- The states of the stage after along a line. -/
theorem Horizon.statesAfter_line (h : Horizon K) (v δ : Nat → Nat → K) (ε : K) (k i : Nat) :
    h.statesAfter (fun k j => ε * δ k j + v k j) k i =
      ε * h.statesAfter δ k i + h.statesAfter v k i := by
  rw [statesAfter, statesAfter, statesAfter]
  cases h.stages[k + 1]? with
  | none => exact (by ring : (0 : K) = ε * 0 + 0)
  | some next => rfl

/-- The slope of what a stage adds to the Lagrangian, part by part. -/
theorem Horizon.slope_stageLagrangian [IsStrictOrderedRing K] (h : Horizon K) (p : ChainPoint K)
    (δ : Nat → Nat → K) (k : Nat) {d : Stage K} (hd : d.WellShaped) :
    SlopeAtZero (fun ε => h.stageLagrangian (p.along δ ε) k d)
      (∑ i ∈ range (d.sizes.nu + d.sizes.nx), ((PackedStage.ofStage d).grad.get i
          + rowSum (PackedStage.ofStage d).hess.get (d.sizes.nu + d.sizes.nx) (p.v k) i
          - d.skew (p.v k) i / 2) * δ k i
        + ∑ i ∈ range d.nxNext, p.pi k i *
            (rowSum (PackedStage.ofStage d).dyn.get (d.sizes.nu + d.sizes.nx) (δ k) i
              - h.statesAfter δ k i)
        - ∑ row ∈ range d.sizes.nc, (p.lam.lo k row - p.lam.up k row) *
            rowSum (PackedStage.ofStage d).jac.get (d.sizes.nu + d.sizes.nx) (δ k) row) := by
  have hcost := Stage.slope_cost hd (p.v k) (δ k)
  refine (hcost.add (.sum fun i hi => ?_)).sub (.sum fun row hrow => ?_)
  · refine .of_line (a := p.pi k i * (d.successor (p.v k) (fun j => p.v k (d.sizes.nu + j)) i
      - h.statesAfter p.v k i)) fun ε => ?_
    show p.pi k i * (d.successor (fun j => ε * δ k j + p.v k j)
      (fun j => ε * δ k (d.sizes.nu + j) + p.v k (d.sizes.nu + j)) i
        - h.statesAfter (fun k j => ε * δ k j + p.v k j) k i) = _
    rw [Stage.successor_line d _ _ _ (mem_range.1 hi), statesAfter_line]
    ring
  · refine .of_line (a := p.lam.lo k row *
        (rowSum d.rowEntry d.sizes.nv (p.v k) row - (d.rowBounds row).lo)
      + p.lam.up k row * ((d.rowBounds row).up - rowSum d.rowEntry d.sizes.nv (p.v k) row))
      fun ε => ?_
    show p.lam.lo k row * (rowSum d.rowEntry d.sizes.nv (fun j => ε * δ k j + p.v k j) row - _)
      + p.lam.up k row * (_ - rowSum d.rowEntry d.sizes.nv (fun j => ε * δ k j + p.v k j) row) = _
    rw [Stage.row_line d _ _ _ (mem_range.1 hrow)]
    ring

/-- What the multipliers of the dynamics that lead to a stage make of a direction. -/
def Workspace.handover (w : Workspace K) (δ : Nat → Nat → K) (k : Nat) : K :=
  coupling w.stages (fun k i => δ k i + w.current.v k i) k

section Chain

variable {h : Horizon K} {w : Workspace K}
  (hl : w.stages.map StageState.fixed = h.stages.map Stage.fixed) {k : Nat} {s : StageState K}
  (hs : w.stages[k]? = some s)

include hs

omit [LinearOrder K] [SquareRoot K] in
theorem Workspace.current_v : w.current.v k = s.point.v.get := by
  funext i
  show w.stages[k]?.elim 0 _ = _
  rw [hs, Option.elim_some]

omit [LinearOrder K] [SquareRoot K] in
theorem Workspace.current_pi : w.current.pi k = s.point.pi.get := by
  funext i
  show w.stages[k]?.elim 0 _ = _
  rw [hs, Option.elim_some]

omit [LinearOrder K] [SquareRoot K] in
theorem Workspace.current_lam :
    w.current.lam.lo k = s.point.lam.lo.get ∧ w.current.lam.up k = s.point.lam.up.get := by
  constructor
  · funext i
    show w.stages[k]?.elim 0 _ = _
    rw [hs, Option.elim_some]
  · funext i
    show w.stages[k]?.elim 0 _ = _
    rw [hs, Option.elim_some]

omit [LinearOrder K] [SquareRoot K] in
theorem Workspace.stationarity_eq : w.stationarity k = s.residual.stat.get := by
  funext i
  rw [stationarity, hs, Option.elim_some]

omit [LinearOrder K] [SquareRoot K] in
/-- They make of it what they make of its states. -/
theorem Workspace.handover_eq (δ : Nat → Nat → K) :
    w.handover δ k = ∑ j ∈ range s.nx,
      ((stageBefore none w.stages k).elim 0 fun b => b.point.pi.get j) * δ k (s.nu + j) := by
  rw [handover, coupling, hs, Option.elim_some]
  refine sum_congr rfl fun j _ => ?_
  rw [Workspace.current_v hs, add_sub_cancel_right]

include hl

/-- At the stage after they are the multipliers of this one. -/
theorem Workspace.handover_after (δ : Nat → Nat → K) :
    w.handover δ (k + 1) =
      ∑ i ∈ range (nextNx w.stages k), s.point.pi.get i * h.statesAfter δ k i := by
  cases hnext : w.stages[k + 1]? with
  | none =>
      rw [handover, coupling, nextNx, hnext]
      exact sum_empty.symm
  | some next =>
      obtain ⟨d', hd', heq⟩ := exists_stage_of_fixed hl hnext
      have hnu : next.nu = d'.sizes.nu := (StageState.eq_of_fixed heq).1
      rw [handover_eq hnext, nextNx, hnext, stageBefore, hs]
      refine sum_congr rfl fun i _ => ?_
      rw [Horizon.statesAfter, hd', hnu]
      rfl

variable [IsStrictOrderedRing K] (he : Evaluated w.stages) (hw : HorizonShaped w.stages)

include he hw

/-- The slope of what a stage adds, by its stationarity residual. What is left over are multipliers
of the dynamics at either end. -/
theorem Evaluated.slope_stage {d : Stage K} (hd : h.stages[k]? = some d) (δ : Nat → Nat → K) :
    SlopeAtZero (fun ε => h.stageLagrangian (w.current.along δ ε) k d)
      (∑ i ∈ range (d.sizes.nu + d.sizes.nx),
          (w.stationarity k i - h.skew w.current.v k i / 2) * δ k i
        - (w.handover δ (k + 1) - w.handover δ k)) := by
  obtain ⟨d', hd', heq⟩ := exists_stage_of_fixed hl hs
  obtain rfl := Option.some.inj (hd.symm.trans hd')
  have hshaped := h.consistent.shaped d (List.mem_of_getElem? hd)
  obtain ⟨hnu, hnx, hdata⟩ := StageState.eq_of_fixed heq
  have hnc : s.nc = d.sizes.nc := StageState.nc_of_fixed hshaped heq
  have hnext : nextNx w.stages k = d.nxNext := (nextNx_of_fixed hl k).trans (h.nxNext_eq hd).symm
  have hskew : h.skew w.current.v k = d.skew s.point.v.get := by
    funext i
    rw [Horizon.skew, hd, Option.elim_some, Workspace.current_v hs]
  have hslope := he.slope_eq hw hs (δ k)
  have hafter := Workspace.handover_after hl hs δ
  have hbefore := Workspace.handover_eq hs δ
  obtain ⟨hlo, hup⟩ := Workspace.current_lam hs
  have hparts := h.slope_stageLagrangian w.current δ k hshaped
  rw [Workspace.current_v hs, Workspace.current_pi hs, hlo, hup] at hparts
  rw [hnu, hnx, hdata, hnc, hnext] at hslope
  rw [hnext] at hafter
  rw [hnu, hnx] at hbefore
  rw [Workspace.stationarity_eq hs, hskew, hafter, hbefore]
  refine (congrArg _ ?_).mp hparts
  simp only [sub_mul, mul_sub, sum_sub_distrib] at hslope ⊢
  linear_combination hslope

omit hs in
/-- The slope of the Lagrangian along any direction. The multipliers at the ends of the stages
cancel along the chain. -/
theorem Evaluated.slope_lagrangian : h.IsGradient w.current
    fun k i => w.stationarity k i - h.skew w.current.v k i / 2 := by
  intro δ
  have hstages : SlopeAtZero (fun ε => h.lagrangian (w.current.along δ ε))
      (indexedSum h.stages fun k d => ∑ i ∈ range (d.sizes.nu + d.sizes.nx),
          (w.stationarity k i - h.skew w.current.v k i / 2) * δ k i
        - (w.handover δ (k + 1) - w.handover δ k)) := by
    refine .indexedSum fun k d hd => ?_
    obtain ⟨s, hs, _⟩ := exists_state_of_fixed hl hd
    exact he.slope_stage hl hs hw hd δ
  have hcancel : indexedSum h.stages (fun k _ =>
      w.handover δ (k + 1) - w.handover δ k) = 0 := by
    rw [← indexedSum_coupling hw fun k i => δ k i + w.current.v k i]
    exact indexedSum_congr (length_of_fixed hl).symm fun _ _ _ _ _ => rfl
  have hsum : indexedSum h.stages (fun k d => ∑ i ∈ range (d.sizes.nu + d.sizes.nx),
          (w.stationarity k i - h.skew w.current.v k i / 2) * δ k i
        - (w.handover δ (k + 1) - w.handover δ k)) =
      h.pairing (fun k i => w.stationarity k i - h.skew w.current.v k i / 2) δ := by
    rw [← sub_zero (h.pairing _ δ), ← hcancel, eq_sub_iff_add_eq, ← indexedSum_add]
    refine indexedSum_congr rfl fun k d d' hd hd' => ?_
    obtain rfl := Option.some.inj (hd.symm.trans hd')
    exact sub_add_cancel _ _
  rw [← hsum]
  exact hstages

end Chain

/-! ## Where the residual is the gradient -/

namespace Workspace

variable {h : Horizon K} {w : Workspace K} (hw : SizedChain h.sizes w.stages)

include hw

/-- A loaded workspace holds the horizon, whatever its buffers held before. -/
theorem fixed_load :
    (w.load h).residuals.stages.map StageState.fixed = h.stages.map Stage.fixed :=
  (map_fixed_of_base (residuals_base _)).trans (SizedChain.fixed_loadStages h.linkedStages hw)

theorem horizonShaped_load : HorizonShaped (w.load h).residuals.stages :=
  horizonShaped_of_fixed (fixed_load hw)
    (chained_residuals (SizedChain.loadStages h.linkedStages hw).chained)

/-- The gradient of the Lagrangian at the current point. -/
theorem gradient_load [IsStrictOrderedRing K] :
    h.IsGradient (w.load h).residuals.current fun k i =>
      (w.load h).residuals.stationarity k i - h.skew (w.load h).residuals.current.v k i / 2 :=
  (evaluated_of_base rfl).slope_lagrangian (fixed_load hw) (horizonShaped_load hw)

end Workspace

omit [LinearOrder K] [SquareRoot K] in
theorem symmetricUpTo_of_skew {a : Nat → Nat → K} {n : Nat}
    (h : ∀ x : Nat → K, ∀ i < n, rowSum a n x i - colSum a n x i = 0) :
    SymmetricUpTo n a := by
  intro i hi j hj
  have hrow : rowSum a n (fun l => if l = j then 1 else 0) i = a i j := by
    simp only [rowSum, mul_ite, mul_one, mul_zero, sum_ite_eq', mem_range, if_pos hj]
  have hcolumn : colSum a n (fun l => if l = j then 1 else 0) i = a j i := by
    simp only [colSum, mul_ite, mul_one, mul_zero, sum_ite_eq', mem_range, if_pos hj]
  have hunit := h (fun l => if l = j then 1 else 0) i hi
  rwa [hrow, hcolumn, sub_eq_zero] at hunit

namespace Horizon

/-- Blocks and their transposes agree at the stage vectors. -/
def SkewFree (h : Horizon K) (v : Nat → Nat → K) : Prop :=
  ∀ (k : Nat) (d : Stage K), h.stages[k]? = some d →
    ∀ i < d.sizes.nu + d.sizes.nx, d.skew (v k) i = 0

/-- They agree at all stage vectors exactly if the blocks are symmetric. -/
theorem symmetric_iff_skewFree {h : Horizon K} : h.Symmetric ↔ ∀ v, h.SkewFree v := by
  constructor
  · intro hsymm v k d hd i hi
    obtain ⟨hQ, hR⟩ := hsymm d (List.mem_of_getElem? hd)
    exact Stage.skew_of_symmetric hQ hR (v k) hi
  · intro hfree d hmem
    obtain ⟨k, hd⟩ := List.getElem?_of_mem hmem
    refine ⟨symmetricUpTo_of_skew fun x i hi => ?_, symmetricUpTo_of_skew fun x i hi => ?_⟩
    · have hstate := hfree (fun _ l => x (l - d.sizes.nu)) k d hd (d.sizes.nu + i) (by omega)
      rw [Stage.skew, if_neg (by omega)] at hstate
      simpa only [Nat.add_sub_cancel_left] using hstate
    · have hcontrol := hfree (fun _ => x) k d hd i (by omega)
      rwa [Stage.skew, if_pos hi] at hcontrol

/-- What is off the gradient by half of the difference is the gradient exactly where there is
none. -/
theorem IsGradient.iff_skewFree [IsStrictOrderedRing K] {h : Horizon K} {p : ChainPoint K}
    {g : Nat → Nat → K} (hg : h.IsGradient p fun k i => g k i - h.skew p.v k i / 2) :
    h.IsGradient p g ↔ h.SkewFree p.v := by
  have hskew : ∀ k d, h.stages[k]? = some d → h.skew p.v k = d.skew (p.v k) := by
    intro k d hd
    funext i
    rw [skew, hd, Option.elim_some]
  constructor
  · intro hg' k d hd i hi
    have hequal := hg.unique hg' hd hi
    rw [hskew k d hd, sub_eq_self] at hequal
    exact (div_eq_zero_iff.1 hequal).resolve_right two_ne_zero
  · intro hfree
    refine hg.congr fun k d hd i hi => ?_
    rw [hskew k d hd, hfree k d hd i hi, zero_div, sub_zero]

end Horizon

/-- Without residual nothing is left at any stage. -/
theorem Workspace.stationarity_of_norm [IsStrictOrderedRing K] {w : Workspace K}
    (hnorm : w.residualNorms.stat = 0) : w.stationarity = fun _ _ => 0 := by
  funext k i
  cases hs : w.stages[k]? with
  | none => rw [stationarity, hs, Option.elim_none]
  | some s =>
      have hentry := (Vec.abs_get_le_infNorm s.residual.stat i).trans
        ((norms_stat_le_iff.1 hnorm.le).2 s (List.mem_of_getElem? hs))
      rw [stationarity_eq hs]
      exact abs_nonpos_iff.1 hentry

/-- **What the stationarity residual is the gradient of.** Take any horizon that passed its checks,
any workspace of its sizes, whatever its buffers hold, and the residuals of its point. The gradient
of the Lagrangian, in the stage vectors, is the stationarity residual less half of what the blocks
`R` and `Q` and their transposes differ by. So the residual is the gradient at the points at which
they agree, and at no other; with symmetric blocks these are all points. Where no residual is left,
they are the stationary points. -/
theorem residual_stat_gradient [IsStrictOrderedRing K] {h : Horizon K} {w w' : Workspace K}
    (hw : w.Sized) (hsizes : w.sizes = h.sizes) (heval : (w.load h).residuals = w') :
    h.IsGradient w'.current (fun k i => w'.stationarity k i - h.skew w'.current.v k i / 2) ∧
    (h.IsGradient w'.current w'.stationarity ↔ h.SkewFree w'.current.v) ∧
    (h.Symmetric → h.IsGradient w'.current w'.stationarity) ∧
    (w'.residualNorms.stat = 0 →
      (h.IsGradient w'.current (fun _ _ => 0) ↔ h.SkewFree w'.current.v)) := by
  subst heval
  have hchain : SizedChain h.sizes w.stages := by
    rw [← hsizes]
    exact hw
  have hgradient := Workspace.gradient_load hchain
  refine ⟨hgradient, hgradient.iff_skewFree, fun hsymm => ?_, fun hnorm => ?_⟩
  · exact hgradient.iff_skewFree.2 (Horizon.symmetric_iff_skewFree.1 hsymm _)
  · rw [← Workspace.stationarity_of_norm hnorm]
    exact hgradient.iff_skewFree

/-- The horizon `minimize ½ uᵀ R u - 3 u₀ + ½ x²  subject to  x = u₀ - 1`. Its block `R` is not
symmetric. -/
def Horizon.skewed : Horizon ℚ where
  templates :=
    [⟨0, { Stage.zeros 0 2 1 with
        B := Mat.ofFn 1 2 fun _ j => if j = 0 then 1 else 0
        b := .ofList [-1]
        R := Mat.ofFn 2 2 fun
          | 0, 0 => 3
          | 0, _ => 2
          | _, 0 => 0
          | _, _ => 1
        r := .ofList [-3, 0] }⟩,
      ⟨1, { Stage.zeros 1 0 0 with Q := Mat.ofFn 1 1 fun _ _ => 1 }⟩]
  accepted := rfl

/-- Controls of such a horizon, and the state that they lead to. -/
def Trajectory.controlled (u₀ u₁ : ℚ) : Trajectory ℚ where
  x := [.empty, .ofList [u₀ - 1]]
  u := [.ofList [u₀, u₁]]

/-- For instance at the controls `1` and `0`. No residual is left there, but along the second
control the Lagrangian has slope `1`. -/
theorem residual_stat_gradient_skewed : ∃ w w' : Workspace ℚ,
    Workspace.of? Horizon.skewed.sizes .standard = .ok w ∧
    ((w.readTrajectory (.controlled 1 0)).load .skewed).residuals = w' ∧
    w'.residualNorms.stat = 0 ∧
    SlopeAtZero (fun ε => Horizon.skewed.lagrangian (w'.current.along (unitAt 0 1) ε)) 1 ∧
    ¬ Horizon.skewed.IsGradient w'.current w'.stationarity := by
  have hrun : ((Workspace.of? Horizon.skewed.sizes .standard).toOption.map fun w =>
      let w' := ((w.readTrajectory (.controlled 1 0)).load .skewed).residuals
      (w'.residualNorms.stat, w'.stationarity 0 1, Horizon.skewed.skew w'.current.v 0 1)) =
        some (0, 0, -2) := by decide +kernel
  obtain ⟨w, hnew, htuple⟩ := exists_of_evaluated hrun
  simp only [Prod.mk.injEq] at htuple
  obtain ⟨hstat, hresidual, hskew⟩ := htuple
  have hsizes : w.sizes = Horizon.skewed.sizes := (Workspace.eq_of_of? hnew).2.1
  have hfits : (Trajectory.controlled 1 0).fits w.sizes = true := by
    rw [hsizes]
    decide +kernel
  obtain ⟨hus, hxs⟩ := Trajectory.sizes_of_fits hfits
  have hsized : (w.readTrajectory (.controlled 1 0)).Sized :=
    (Workspace.sized_of? hnew).readStages hus hxs
  obtain ⟨hgradient, hiff, _, _⟩ := residual_stat_gradient hsized hsizes rfl
  refine ⟨w, _, hnew, rfl, hstat, ?_, fun hg => ?_⟩
  · have hslope := hgradient (unitAt 0 1)
    rwa [Horizon.pairing_unit _ rfl (by decide), hresidual, hskew, neg_div, zero_sub, neg_neg,
      div_self two_ne_zero] at hslope
  · have hzero := hiff.1 hg 0 _ rfl 1 (by decide)
    exact absurd (hzero.symm.trans hskew) (by norm_num)

theorem Horizon.feasible_skewed (u₀ u₁ : ℚ) : skewed.Feasible (.controlled u₀ u₁) := by
  refine ⟨rfl, fun k d hd i hi => ?_, fun k d hd => ?_⟩
  · rcases k with _ | _ | k
    · obtain rfl := Option.some.inj hd
      obtain rfl : i = 0 := Nat.lt_one_iff.1 hi
      have hstate : (Trajectory.controlled u₀ u₁).state 1 0 = u₀ - 1 := rfl
      have hfirst : (Trajectory.controlled u₀ u₁).control 0 0 = u₀ := rfl
      rw [hstate, Stage.successor]
      show _ = ∑ j ∈ range 0, _ + ∑ j ∈ range 2, _ + (-1 : ℚ)
      rw [sum_range_succ, sum_range_one, hfirst]
      show _ = _ + ((1 : ℚ) * u₀ + 0 * _) + -1
      ring
    · obtain rfl := Option.some.inj hd
      exact absurd hi (Nat.not_lt_zero i)
    · cases hd
  · rcases k with _ | _ | k
    · obtain rfl := Option.some.inj hd
      exact ⟨fun _ _ hi => (by cases hi), fun row hrow => absurd hrow (Nat.not_lt_zero row)⟩
    · obtain rfl := Option.some.inj hd
      exact ⟨fun _ _ hi => (by cases hi), fun row hrow => absurd hrow (Nat.not_lt_zero row)⟩
    · cases hd

/-- A solve of the horizon ends in success at these controls after one step. Nothing is left of the
residuals, but the residual is not the gradient, and the controls `1` and `-1` cost less. -/
theorem Horizon.success_off_minimum : ∃ res, skewed.solve .standard = .ok res ∧
    res.status = .success ∧ res.report.norms = ⟨0, 0, 0⟩ ∧
    res.trajectory.control 0 0 = 1 ∧ res.trajectory.control 0 1 = 0 ∧
    ¬ skewed.IsGradient res.workspace.current res.workspace.stationarity ∧
    skewed.Feasible (.controlled 1 (-1)) ∧
    skewed.objective (.controlled 1 (-1)) < skewed.objective res.trajectory := by
  have hrun : (skewed.solve .standard).toOption.map (fun res =>
      (res.status, (res.report.norms.stat, res.report.norms.dyn, res.report.norms.ineq),
        (res.trajectory.control 0 0, res.trajectory.control 0 1, skewed.objective res.trajectory),
        skewed.lagrangian (res.workspace.current.along (unitAt 0 1) 1) -
          skewed.lagrangian (res.workspace.current.along (unitAt 0 1) (-1)),
        res.workspace.stationarity 0 1)) =
        some (.success, (0, 0, 0), (1, 0, -3 / 2), 2, 0) := by decide +kernel
  obtain ⟨res, hres, htuple⟩ := exists_of_evaluated hrun
  simp only [Prod.mk.injEq] at htuple
  obtain ⟨hstatus, ⟨hstat, hdyn, hineq⟩, ⟨hfirst, hsecond, hcost⟩, hslope, hresidual⟩ := htuple
  refine ⟨res, hres, hstatus, ?_, hfirst, hsecond, fun hg => ?_, ?_, ?_⟩
  · show ResidualNorms.mk _ _ _ = _
    rw [hstat, hdyn, hineq]
  · have htwice := (hg (unitAt 0 1)).two_mul_eq
    rw [pairing_unit _ rfl (by decide), hresidual, hslope] at htwice
    norm_num at htwice
  · exact feasible_skewed 1 (-1)
  · rw [hcost]
    decide +kernel

end StagedQP
