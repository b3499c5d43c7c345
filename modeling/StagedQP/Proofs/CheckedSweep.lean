import StagedQP.Proofs.CheckedStage

/-!
# Sweeps in buffers

The Riccati recursion once more, on the buffers of the stages. The control block is copied into the
storage of the last factor, or into new storage if the last factorization left none, and the shifted
blocks are copied anew. A stage reads the cost-to-go of the stage after it, and in the forward sweep
it writes into the direction of that stage.

Over a chain whose buffers have their sizes no check fails, wherever the backward sweep stops.

## Main results

* `Checked.controlFactor_eq` — a control block factored in place.
* `Checked.factorizeFrom_eq`, `Checked.solveChain_eq` — the two parts of the recursion.
* `Checked.newtonDirection_eq` — a search direction.
-/

namespace StagedQP

namespace Checked

variable {α : Type} [Scalar α] {d e : StageSizes} {n : Nat} {s next : StageState α}

/-! ## Control blocks -/

/-- The scale of the control block, from the first `k` diagonal entries. -/
def scaleUpTo (m : Mat α) : Nat → Except SizeFault α
  | 0 => .ok 1
  | k + 1 => do
    let before ← scaleUpTo m k
    let a ← readAt m k k
    return Scalar.max before (Scalar.abs a)

/-- The factor of `m`, if it exists and all its diagonal entries are large enough. -/
def tryFactor (scale : α) (m : Mat α) : Except SizeFault (Option (Cholesky α)) := do
  let c ← factor m
  return c.filter fun c => c.pivotsExceed (ControlFactor.leastPivot * scale)

/-- The shift added to the first `k` diagonal entries. -/
def shiftDiagonal (m : Mat α) (shift : α) : Nat → Except SizeFault (Mat α)
  | 0 => .ok m
  | k + 1 => do
    let m ← shiftDiagonal m shift k
    let a ← readAt m k k
    writeAt m k k (a + shift)

/-- The factor of the control block with the first of the given shifts that will do. -/
def firstShifted (scale : α) (total : Mat α) (nu : Nat) :
    List α → Except SizeFault (Option (ControlFactor α))
  | [] => .ok none
  | eps :: rest => do
    let block ← view total 0 0 nu nu
    let shifted ← shiftDiagonal block (eps * scale) nu
    match ← tryFactor scale shifted with
    | some c => return some ⟨some (eps * scale), c⟩
    | none => firstShifted scale total nu rest

/-- The factor of the control block, without a shift if possible. -/
def controlFactor (s : StageState α) : Except SizeFault (Option (ControlFactor α)) := do
  let scale ← scaleUpTo s.riccati.total s.nu
  let storage := match s.riccati.factor with
    | none => Mat.zeros s.nu s.nu
    | some c => c.lower
  let block ← view s.riccati.total 0 0 s.nu s.nu
  let block ← copyMat storage block
  match ← tryFactor scale block with
  | some c => return some ⟨none, c⟩
  | none => firstShifted scale s.riccati.total s.nu ControlFactor.shifts

theorem scaleUpTo_eq {m : Mat α} {nu : Nat} (hr : nu ≤ m.rows) (hc : nu ≤ m.cols) :
    scaleUpTo m nu = .ok (ControlFactor.scale (m.block 0 0 nu nu)) := by
  have hupTo : ∀ k ≤ nu, scaleUpTo m k =
      .ok (Scalar.maxUpTo 1 (fun i => Scalar.abs ((m.block 0 0 nu nu).get i i)) k) := by
    intro k
    induction k with
    | zero => exact fun _ => rfl
    | succ k ih =>
        intro hk
        have hblock : (m.block 0 0 nu nu).get k k = m.get k k := by
          rw [Mat.get_block, if_pos ⟨hk, hk⟩, Nat.zero_add]
        rw [scaleUpTo, ih (by omega), ok_bind, readAt_eq (by omega) (by omega), ok_bind, ← hblock]
        rfl
  exact hupTo nu (Nat.le_refl nu)

theorem tryFactor_eq {m : Mat α} (h : m.rows = m.cols) (scale : α) :
    tryFactor scale m = .ok (ControlFactor.tryFactor scale m) := by
  rw [tryFactor, factor_eq h]
  rfl

/-- All diagonal entries are shifted one after another. -/
theorem shiftDiagonal_eq {m : Mat α} (hm : m.WellFormed) (h : m.cols = m.rows) (shift : α) :
    shiftDiagonal m shift m.rows = .ok (ControlFactor.shifted m shift) := by
  have hupTo : ∀ k ≤ m.rows, shiftDiagonal m shift k = .ok (Mat.ofFn m.rows m.cols fun i j =>
      if i = j ∧ i < k then m.get i j + shift else m.get i j) := by
    intro k
    induction k with
    | zero =>
        intro _
        refine congrArg Except.ok (Mat.ext_get hm (Mat.wellFormed_ofFn ..) rfl rfl
          fun i hi j hj => ?_)
        rw [Mat.get_ofFn_of_lt _ hi hj, if_neg (by omega)]
    | succ k ih =>
        intro hk
        have hkc : k < m.cols := by omega
        have hread : ∀ f : Nat → Nat → α, readAt (Mat.ofFn m.rows m.cols f) k k =
            .ok ((Mat.ofFn m.rows m.cols f).get k k) := fun f => readAt_eq hk hkc
        have hwrite : ∀ (f : Nat → Nat → α) (a : α), writeAt (Mat.ofFn m.rows m.cols f) k k a =
            .ok (Mat.ofFn m.rows m.cols fun i j =>
              if i = k ∧ j = k then a else (Mat.ofFn m.rows m.cols f).get i j) :=
          fun f a => inside_eq ⟨hk, hkc⟩ _
        rw [shiftDiagonal, ih (by omega), ok_bind, hread, ok_bind, hwrite,
          Mat.get_ofFn_of_lt _ hk hkc, if_neg (by omega)]
        refine congrArg Except.ok (Mat.ext_get (Mat.wellFormed_ofFn ..) (Mat.wellFormed_ofFn ..)
          rfl rfl fun i hi j hj => ?_)
        have hi' : i < m.rows := hi
        have hj' : j < m.cols := hj
        simp only [Mat.get_ofFn_of_lt _ hi' hj']
        by_cases hik : i = k ∧ j = k
        · obtain ⟨rfl, rfl⟩ := hik
          rw [if_pos ⟨rfl, rfl⟩, if_pos ⟨rfl, Nat.lt_succ_self _⟩]
        · rw [if_neg hik]
          by_cases hdiag : i = j ∧ i < k
          · rw [if_pos hdiag, if_pos (by omega)]
          · rw [if_neg hdiag, if_neg (by omega)]
  rw [hupTo _ (Nat.le_refl _), ControlFactor.shifted]
  refine congrArg Except.ok (Mat.ext_get (Mat.wellFormed_ofFn ..) (Mat.wellFormed_ofFn ..) rfl rfl
    fun i hi j hj => ?_)
  have hi' : i < m.rows := hi
  have hj' : j < m.cols := hj
  rw [Mat.get_ofFn_of_lt _ hi' hj', Mat.get_ofFn_of_lt _ hi' hj']
  simp [hi']

theorem firstShifted_eq {total : Mat α} {nu : Nat} (hr : nu ≤ total.rows) (hc : nu ≤ total.cols)
    (scale : α) (l : List α) : firstShifted scale total nu l =
      .ok (ControlFactor.firstShifted scale (total.block 0 0 nu nu) l) := by
  induction l with
  | nil => rfl
  | cons eps rest ih =>
      have hshift := shiftDiagonal_eq (m := total.block 0 0 nu nu) (Mat.wellFormed_ofFn ..) rfl
        (eps * scale)
      rw [firstShifted, view_eq (by omega) (by omega), ok_bind,
        show shiftDiagonal (total.block 0 0 nu nu) (eps * scale) nu = _ from hshift, ok_bind,
        tryFactor_eq rfl, ok_bind, ControlFactor.firstShifted]
      cases ControlFactor.tryFactor scale
        (ControlFactor.shifted (total.block 0 0 nu nu) (eps * scale)) with
      | none => exact ih
      | some c => rfl

theorem controlFactor_eq (h : s.Sized d n) :
    controlFactor s = .ok (ControlFactor.of? s.controlBlock) := by
  have hr : s.nu ≤ s.riccati.total.rows := by rw [h.riccati.total.rows, h.nu]; omega
  have hc : s.nu ≤ s.riccati.total.cols := by rw [h.riccati.total.cols, h.nu]; omega
  have hstorage : copyMat (match s.riccati.factor with
      | none => Mat.zeros s.nu s.nu
      | some c => c.lower) s.controlBlock = .ok s.controlBlock := by
    cases hf : s.riccati.factor with
    | none => exact copyMat_eq rfl rfl
    | some c =>
        have hlower := h.riccati.factor c hf
        exact copyMat_eq (hlower.rows.trans h.nu.symm) (hlower.cols.trans h.nu.symm)
  rw [controlFactor, scaleUpTo_eq hr hc, ok_bind, view_eq (by omega) (by omega), ok_bind,
    show s.riccati.total.block 0 0 s.nu s.nu = s.controlBlock from rfl, hstorage, ok_bind,
    tryFactor_eq rfl, ok_bind, firstShifted_eq hr hc, ControlFactor.of?]
  cases ControlFactor.tryFactor (ControlFactor.scale s.controlBlock) s.controlBlock with
  | none => rfl
  | some c => rfl

/-! ## The matrix part -/

/-- The cost-to-go of the last stage. -/
def closeCost (s : StageState α) : Except SizeFault (StageState α) := do
  let total ← copyMat s.riccati.total s.condensed.hess
  let own ← view s.condensed.hess s.nu s.nu s.nx s.nx
  let cost ← copyMat s.riccati.cost own
  return { s with
    riccati.total := total
    riccati.cost := cost }

/-- The cost-to-go of the stage after pulled back. -/
def pullCost (next : Mat α) (s : StageState α) : Except SizeFault (StageState α) := do
  let pulled ← trMul s.riccati.pulled s.data.dyn next
  let total ← copyMat s.riccati.total s.condensed.hess
  let total ← addMul total pulled s.data.dyn
  return { s with
    riccati.pulled := pulled
    riccati.total := total }

/-- A matrix solved in place by a factor, if there is one. -/
def solveWith (f : Option (Cholesky α)) (b : Mat α) : Except SizeFault (Mat α) :=
  match f with
  | none => .ok b
  | some c => solve c b

/-- The gain and the cost-to-go of a stage with states. -/
def closeLoop (s : StageState α) : Except SizeFault (StageState α) :=
  if s.nx = 0 then .ok s
  else do
    let cross ← view s.riccati.total 0 s.nu s.nu s.nx
    let gain ← copyMat s.riccati.gain cross
    let gain ← solveWith s.riccati.factor gain
    let own ← view s.riccati.total s.nu s.nu s.nx s.nx
    let cost ← copyMat s.riccati.cost own
    let cost ← addTrMul cost cross gain.neg
    let cost ← symmetrize cost
    return { s with
      riccati.gain := gain.neg
      riccati.cost := cost }

/-- Stage `k` with its control block factored. -/
def factorStage (k : Nat) (s : StageState α) : Except SizeFault (Riccati.Sweep α) :=
  if s.nu = 0 then do
    let s ← closeLoop s
    return ⟨[s], [], none⟩
  else do
    match ← controlFactor s with
    | none => return ⟨[Riccati.setFactor none s], [], some k⟩
    | some c =>
      let s ← closeLoop (Riccati.setFactor (some c.factor) s)
      return ⟨[s], c.shift.toList.map (Warning.regularized k), none⟩

/-- The backward sweep over the stages listed, the first of which has number `k`. There is at least
one stage. -/
def factorizeFrom (k : Nat) : List (StageState α) → Except SizeFault (Riccati.Sweep α)
  | [] => .error .outside
  | [last] => do
    let last ← closeCost last
    return ⟨[last], [], none⟩
  | s :: next :: rest => do
    let after ← factorizeFrom (k + 1) (next :: rest)
    match after.failed, after.stages with
    | none, done :: _ =>
      let s ← pullCost done.riccati.cost s
      let own ← factorStage k s
      return ⟨own.stages ++ after.stages, after.warnings ++ own.warnings, own.failed⟩
    | _, _ => return { after with stages := s :: after.stages }

theorem closeCost_eq (h : s.Sized d n) : closeCost s = .ok s.closeCost := by
  have htotal := h.riccati.total
  have hhess := h.condensed.hess
  have hcost := h.riccati.cost
  have hrows : s.nu + s.nx = s.condensed.hess.rows := by rw [hhess.rows, h.nu, h.nx]
  have hcols : s.nu + s.nx = s.condensed.hess.cols := by rw [hhess.cols, h.nu, h.nx]
  rw [closeCost, copyMat_eq (htotal.rows.trans hhess.rows.symm) (htotal.cols.trans hhess.cols.symm),
    ok_bind, view_eq (Nat.le_of_eq hrows) (Nat.le_of_eq hcols), ok_bind,
    copyMat_eq (hcost.rows.trans h.nx.symm) (hcost.cols.trans h.nx.symm)]
  rfl

theorem pullCost_eq (h : s.Sized d n) {next : Mat α} (hnext : next.Sized n n) :
    pullCost next s = .ok (s.pullCost next) := by
  simp [pullCost, StageState.pullCost, h.sizes, hnext.rows, hnext.cols]

theorem solveWith_eq {f : Option (Cholesky α)} {b : Mat α}
    (hf : ∀ c, f = some c → b.rows = c.size) :
    solveWith f b = .ok (StagedQP.solveWith f b) := by
  cases f with
  | none => rfl
  | some c => exact solve_eq (hf c rfl)

theorem closeLoop_eq (h : s.Sized d n) : closeLoop s = .ok s.closeLoop := by
  have hgain := h.riccati.gain
  have hcost := h.riccati.cost
  have hrows : s.riccati.total.rows = s.nu + s.nx := by rw [h.riccati.total.rows, h.nu, h.nx]
  have hcols : s.riccati.total.cols = s.nu + s.nx := by rw [h.riccati.total.cols, h.nu, h.nx]
  have hsolve : solveWith s.riccati.factor s.crossBlock =
      .ok (StagedQP.solveWith s.riccati.factor s.crossBlock) :=
    solveWith_eq fun c hc => h.nu.trans (h.riccati.factor c hc).rows.symm
  have hsolved : (StagedQP.solveWith s.riccati.factor s.crossBlock).rows = s.nu ∧
      (StagedQP.solveWith s.riccati.factor s.crossBlock).cols = s.nx := by
    cases hf : s.riccati.factor with
    | none => exact ⟨rfl, rfl⟩
    | some c => exact ⟨(h.riccati.factor c hf).rows.trans h.nu.symm, rfl⟩
  rw [closeLoop, StageState.closeLoop]
  by_cases h0 : s.nx = 0
  · rw [if_pos h0, if_pos h0]
  · rw [if_neg h0, if_neg h0, view_eq (by omega) (by omega), ok_bind,
      show s.riccati.total.block 0 s.nu s.nu s.nx = s.crossBlock from rfl,
      copyMat_eq (hgain.rows.trans h.nu.symm) (hgain.cols.trans h.nx.symm), ok_bind, hsolve,
      ok_bind, view_eq (by omega) (by omega), ok_bind,
      copyMat_eq (hcost.rows.trans h.nx.symm) (hcost.cols.trans h.nx.symm), ok_bind,
      addTrMul_eq hsolved.1.symm rfl hsolved.2.symm, ok_bind, symmetrize_eq rfl, ok_bind]
    rfl

/-- A stage is factored, or the sweep stops at it. -/
theorem factorStage_eq (h : s.Sized d n) (k : Nat) :
    factorStage k s = .ok (StagedQP.Riccati.factorStage k s) := by
  by_cases h0 : s.nu = 0
  · rw [factorStage, if_pos h0, closeLoop_eq h, StagedQP.Riccati.factorStage_of_no_control h0]
    rfl
  · rw [factorStage, if_neg h0, controlFactor_eq h, ok_bind]
    cases hof : ControlFactor.of? s.controlBlock with
    | none => rw [StagedQP.Riccati.factorStage_of_none h0 hof]; rfl
    | some c =>
        have hfactor : c.factor.lower.Sized d.nu d.nu := by
          have hblock := ControlFactor.sized_of_of? hof
          rwa [show s.controlBlock.rows = d.nu from h.nu] at hblock
        have hset := h.setFactor (f := some c.factor) fun c' hc' => Option.some.inj hc' ▸ hfactor
        rw [StagedQP.Riccati.factorStage_of_some h0 hof]
        simp only [closeLoop_eq hset]
        rfl

/-- The sweep over the matrices, wherever it stops. -/
theorem factorizeFrom_eq {sizes : List StageSizes} {l : List (StageState α)}
    (h : SizedChain sizes l) (k : Nat) :
    factorizeFrom k l = .ok (StagedQP.Riccati.factorizeFrom k l) := by
  induction h generalizing k with
  | last hs => rw [factorizeFrom, closeCost_eq hs]; rfl
  | @cons d e ds s next rest hs h ih =>
      have hafter := Riccati.sized_factorizeFrom h (k + 1)
      rw [factorizeFrom, ih, ok_bind, StagedQP.Riccati.factorizeFrom]
      cases hfailed : (StagedQP.Riccati.factorizeFrom (k + 1) (next :: rest)).failed with
      | some j => rfl
      | none =>
          cases hstages : (StagedQP.Riccati.factorizeFrom (k + 1) (next :: rest)).stages with
          | nil => rfl
          | cons done after =>
              rw [hstages] at hafter
              obtain ⟨_, hdone⟩ := hafter.head
              simp only [pullCost_eq hs hdone.riccati.cost, ok_bind,
                factorStage_eq (hs.pullCost hdone.riccati.cost.cols)]
              rfl

/-! ## The vector part -/

/-- The gradient of the last stage's cost-to-go. -/
def closeGradient (s : StageState α) : Except SizeFault (StageState α) := do
  let total ← copy s.riccati.totalVec s.condensed.grad
  let own ← rows s.condensed.grad s.nu s.nx
  let cost ← copy s.riccati.costVec own
  return { s with
    riccati.totalVec := total
    riccati.costVec := cost }

/-- A vector solved in place by a factor, if there is one. -/
def solveVecWith (f : Option (Cholesky α)) (b : Vec α) : Except SizeFault (Vec α) :=
  match f with
  | none => .ok b
  | some c => solveVec c b

/-- The feedforward control and the gradient of the cost-to-go, from those of the stage after. -/
def pullGradient (next : RiccatiData α) (s : StageState α) : Except SizeFault (StageState α) := do
  let force ← copy s.scratch.nxNext next.costVec
  let force ← addMulVec force next.cost s.residual.dyn
  let total ← copy s.riccati.totalVec s.condensed.grad
  let total ← addTrMulVec total s.data.dyn force
  let control ← rows total 0 s.nu
  let feed ← copy s.riccati.feed control
  let feed ← solveVecWith s.riccati.factor feed
  let own ← rows total s.nu s.nx
  let cost ← copy s.riccati.costVec own
  let cross ← view s.riccati.total 0 s.nu s.nu s.nx
  let cost ← addTrMulVec cost cross feed.neg
  return { s with
    scratch.nxNext := force
    riccati.totalVec := total
    riccati.feed := feed.neg
    riccati.costVec := cost }

/-- The backward sweep over the vectors. There is at least one stage. -/
def gradients : List (StageState α) → Except SizeFault (List (StageState α))
  | [] => .error .outside
  | [last] => do
    let last ← closeGradient last
    return [last]
  | s :: next :: rest => do
    match ← gradients (next :: rest) with
    | [] => .error .outside
    | done :: after =>
      let s ← pullGradient done.riccati s
      return s :: done :: after

/-- The room for a stage vector with the feedback law in its first entries. The states' direction is
in place. -/
def feedback (s : StageState α) : Except SizeFault (Vec α) := do
  let nv ← writeRows s.scratch.nv 0 s.nu s.riccati.feed
  let du ← rows nv 0 s.nu
  let dx ← rows s.direction.dv s.nu s.nx
  let du ← addMulVec du s.riccati.gain dx
  writeRows nv 0 s.nu du

/-- The direction of one stage completed, and that of the next one's states written in place. -/
def forward (s next : StageState α) :
    Except SizeFault (StageState α × StageState α) := do
  let nv ← feedback s
  let du ← rows nv 0 s.nu
  let dv ← writeRows s.direction.dv 0 s.nu du
  let dvNext ← writeRows next.direction.dv next.nu next.nx s.residual.dyn
  let dxNext ← rows dvNext next.nu next.nx
  let dxNext ← addMulVec dxNext s.data.dyn dv
  let dvNext ← writeRows dvNext next.nu next.nx dxNext
  let dpi ← copy s.direction.dpi next.riccati.costVec
  let dxNext ← rows dvNext next.nu next.nx
  let dpi ← addMulVec dpi next.riccati.cost dxNext
  return ({ s with
    scratch.nv := nv
    direction.dv := dv
    direction.dpi := dpi }, { next with direction.dv := dvNext })

/-- The forward sweep from stage `s`, whose states have their direction. -/
def rollout (s : StageState α) : List (StageState α) → Except SizeFault (List (StageState α))
  | [] => .ok [s]
  | next :: rest => do
    let (s, next) ← forward s next
    let after ← rollout next rest
    return s :: after

/-- Both sweeps over the vectors. -/
def solveChain (stages : List (StageState α)) : Except SizeFault (List (StageState α)) := do
  match ← gradients stages with
  | [] => .error .outside
  | s :: rest => rollout s rest

theorem closeGradient_eq (h : s.Sized d n) : closeGradient s = .ok s.closeGradient := by
  have hown : s.nu + s.nx = s.condensed.grad.size := by rw [h.condensed.grad, h.nu, h.nx]
  rw [closeGradient, copy_eq (h.riccati.totalVec.trans h.condensed.grad.symm), ok_bind,
    rows_eq (Nat.le_of_eq hown), ok_bind,
    copy_eq (h.riccati.costVec.trans (h.nx.symm.trans (Vec.size_slice ..).symm))]
  rfl

theorem solveVecWith_eq {f : Option (Cholesky α)} {b : Vec α}
    (hf : ∀ c, f = some c → b.size = c.size) :
    solveVecWith f b = .ok (StagedQP.solveVecWith f b) := by
  cases f with
  | none => rfl
  | some c => exact solveVec_eq (hf c rfl)

theorem pullGradient_eq (h : s.Sized d n) {next : RiccatiData α} (hcost : next.cost.Sized n n)
    (hcostVec : next.costVec.size = n) : pullGradient next s = .ok (s.pullGradient next) := by
  have hsized := h.pullGradient hcostVec
  have hforce : (Mat.addMulVec next.costVec next.cost s.residual.dyn).size = n :=
    hsized.scratch.nxNext
  have htotal : (s.pullGradient next).riccati.totalVec.size = s.nu + s.nx := by
    rw [hsized.riccati.totalVec, h.nu, h.nx]
  have hcontrol : ((s.pullGradient next).riccati.totalVec.slice 0 s.nu).size = d.nu :=
    (Vec.size_slice ..).trans h.nu
  have hown : ((s.pullGradient next).riccati.totalVec.slice s.nu s.nx).size = d.nx :=
    (Vec.size_slice ..).trans h.nx
  have hsolve := solveVecWith_eq (f := s.riccati.factor)
    (b := (s.pullGradient next).riccati.totalVec.slice 0 s.nu) fun c hc =>
      hcontrol.trans (h.riccati.factor c hc).rows.symm
  have hfeed : (StagedQP.solveVecWith s.riccati.factor
      ((s.pullGradient next).riccati.totalVec.slice 0 s.nu)).neg.size = s.crossBlock.rows :=
    hsized.riccati.feed.trans h.nu.symm
  have hrows : s.riccati.total.rows = s.nu + s.nx := by rw [h.riccati.total.rows, h.nu, h.nx]
  have hcols : s.riccati.total.cols = s.nu + s.nx := by rw [h.riccati.total.cols, h.nu, h.nx]
  rw [pullGradient, copy_eq (h.scratch.nxNext.trans hcostVec.symm), ok_bind,
    addMulVec_eq (hcost.cols.trans h.residual.dyn.symm) (hcostVec.trans hcost.rows.symm), ok_bind,
    copy_eq (h.riccati.totalVec.trans h.condensed.grad.symm), ok_bind,
    addTrMulVec_eq (h.data.dyn.rows.trans hforce.symm)
      (h.condensed.grad.trans h.data.dyn.cols.symm), ok_bind,
    show Mat.addTrMulVec s.condensed.grad s.data.dyn _ =
      (s.pullGradient next).riccati.totalVec from rfl,
    rows_eq (by omega), ok_bind, copy_eq (h.riccati.feed.trans hcontrol.symm), ok_bind, hsolve,
    ok_bind, rows_eq (by omega), ok_bind, copy_eq (h.riccati.costVec.trans hown.symm), ok_bind,
    view_eq (by omega) (by omega), ok_bind,
    show s.riccati.total.block 0 s.nu s.nu s.nx = s.crossBlock from rfl,
    addTrMulVec_eq hfeed.symm (hown.trans h.nx.symm), ok_bind]
  rfl

/-- The backward sweep over the vectors of a chain. -/
theorem gradients_eq {sizes : List StageSizes} {l : List (StageState α)}
    (h : SizedChain sizes l) : gradients l = .ok (StagedQP.Riccati.gradients l) := by
  induction h with
  | last hs => rw [gradients, closeGradient_eq hs]; rfl
  | @cons d e ds s next rest hs h ih =>
      have hafter := Riccati.sized_gradients h
      rw [gradients, ih, ok_bind, StagedQP.Riccati.gradients]
      cases hg : StagedQP.Riccati.gradients (next :: rest) with
      | nil =>
          rw [hg] at hafter
          cases hafter
      | cons done after =>
          rw [hg] at hafter
          obtain ⟨_, hdone⟩ := hafter.head
          simp only [pullGradient_eq hs hdone.riccati.cost hdone.riccati.costVec]
          rfl

/-- The controls answer to the states' direction that is in place, and the other entries of the room
stay as they are. -/
theorem feedback_eq (h : s.Sized d n) {dx : Vec α} (hdx : dx.size = s.nx)
    (hdv : s.direction.dv.slice s.nu s.nx = dx) :
    feedback s = .ok ((s.feedback dx).append (s.scratch.nv.slice s.nu s.nx)) := by
  have hnv : s.scratch.nv.size = s.nu + s.nx := by rw [h.scratch.nv, h.nu, h.nx]
  have hdirection : s.direction.dv.size = s.nu + s.nx := by rw [h.direction.dv, h.nu, h.nx]
  have hfeed : s.riccati.feed.size = s.nu := h.riccati.feed.trans h.nu.symm
  have hdu : (s.feedback dx).size = s.nu := (Mat.size_addMulVec ..).trans hfeed
  rw [feedback, writeRows_head hnv hfeed, ok_bind, rows_append_left _ hfeed, ok_bind,
    rows_eq (by omega), ok_bind, hdv,
    addMulVec_eq (h.riccati.gain.cols.trans (hdx.trans h.nx).symm)
      (hfeed.trans (h.riccati.gain.rows.trans h.nu.symm).symm), ok_bind,
    show Mat.addMulVec s.riccati.feed s.riccati.gain dx = s.feedback dx from rfl,
    writeRows_head (by rw [Vec.size_append, Vec.size_slice, hfeed]) hdu,
    slice_append_right hfeed (Vec.size_slice ..)]

/-- Stage `s` as the forward sweep leaves it, for the direction `dx` of its states. -/
def steered (dx : Vec α) (s next : StageState α) : StageState α :=
  let dv := (s.feedback dx).append dx
  { s with
    scratch.nv := (s.feedback dx).append (s.scratch.nv.slice s.nu s.nx)
    direction.dv := dv
    direction.dpi := Mat.addMulVec next.riccati.costVec next.riccati.cost
      (Mat.addMulVec s.residual.dyn s.data.dyn dv) }

/-- One step of the forward sweep, for a stage whose states have the direction `dx`. -/
theorem forward_eq (h : s.Sized d n) (hnext : next.Sized e m) (hn : n = e.nx) {dx : Vec α}
    (hdx : dx.size = s.nx) (hplaced : s.direction.dv.slice s.nu s.nx = dx) :
    forward s next = .ok (steered dx s next, { next with
      direction.dv := next.direction.dv.withTail next.nu (steered dx s next).leaving }) := by
  have hdv : s.direction.dv.size = s.nu + s.nx := by rw [h.direction.dv, h.nu, h.nx]
  have hdu : (s.feedback dx).size = s.nu :=
    (Mat.size_addMulVec ..).trans (h.riccati.feed.trans h.nu.symm)
  have hnew : (steered dx s next).direction.dv.size = d.nu + d.nx := by
    rw [steered, Vec.size_append, hdu, hdx, h.nu, h.nx]
  have hdyn : s.residual.dyn.size = next.nx := by rw [h.residual.dyn, hn, hnext.nx]
  have hleaving : (steered dx s next).leaving.size = next.nx := (Mat.size_addMulVec ..).trans hdyn
  have hdvNext : next.direction.dv.size = next.nu + next.nx := by
    rw [hnext.direction.dv, hnext.nu, hnext.nx]
  have hread : ∀ (v : Vec α) {w : Vec α}, w.size = next.nx →
      rows (v.withTail next.nu w) next.nu next.nx = .ok w := by
    intro v w hw
    have hsize : (v.withTail next.nu w).size = next.nu + next.nx := by
      rw [Vec.withTail, Vec.size_append, Vec.size_slice, hw]
    rw [rows_eq (Nat.le_of_eq hsize.symm), Vec.withTail, slice_append_right (Vec.size_slice ..) hw]
  rw [forward, feedback_eq h hdx hplaced, ok_bind, rows_append_left _ hdu, ok_bind,
    writeRows_head hdv hdu, ok_bind, hplaced,
    show (s.feedback dx).append dx = (steered dx s next).direction.dv from rfl,
    writeRows_tail hdvNext hdyn, ok_bind,
    hread _ hdyn, ok_bind,
    addMulVec_eq (h.data.dyn.cols.trans hnew.symm) (h.residual.dyn.trans h.data.dyn.rows.symm),
    ok_bind, show Mat.addMulVec s.residual.dyn s.data.dyn (steered dx s next).direction.dv =
      (steered dx s next).leaving from rfl,
    writeRows_tail (by rw [Vec.withTail, Vec.size_append, Vec.size_slice, hdyn]) hleaving, ok_bind,
    withTail_withTail, copy_eq (h.direction.dpi.trans (hn.trans hnext.riccati.costVec.symm)),
    ok_bind, hread _ hleaving, ok_bind,
    addMulVec_eq (hnext.riccati.cost.cols.trans (hnext.nx.symm.trans hleaving.symm))
      (hnext.riccati.costVec.trans hnext.riccati.cost.rows.symm), ok_bind]
  rfl

/-- The forward sweep, from a direction `dx` of the states of the first stage. -/
theorem rollout_eq {sizes : List StageSizes} {s : StageState α} {rest : List (StageState α)}
    (h : SizedChain sizes (s :: rest)) {dx : Vec α} (hdx : dx.size = s.nx) :
    rollout { s with direction.dv := s.direction.dv.withTail s.nu dx } rest =
      .ok (StagedQP.Riccati.rollout dx (s :: rest)) := by
  induction rest generalizing sizes s dx with
  | nil => rfl
  | cons next rest ih =>
      cases h with
      | @cons d e _ _ _ _ hs h =>
          obtain ⟨_, hnext⟩ := h.head
          have hhead : (s.direction.dv.slice 0 s.nu).size = s.nu := Vec.size_slice ..
          have hleaving : (steered dx s next).leaving.size = next.nx :=
            (Mat.size_addMulVec ..).trans (hs.residual.dyn.trans hnext.nx.symm)
          have hplaced : ({ s with
              direction.dv := s.direction.dv.withTail s.nu dx } : StageState α).Sized d e.nx := by
            refine { hs with direction := { hs.direction with dv := ?_ } }
            rw [Vec.withTail, Vec.size_append, hhead, hdx, hs.nu, hs.nx]
          rw [rollout, forward_eq hplaced hnext rfl hdx (slice_append_right hhead hdx), ok_bind]
          show (do
            let after ← rollout { next with
              direction.dv := next.direction.dv.withTail next.nu (steered dx s next).leaving } rest
            return steered dx s next :: after) = _
          rw [ih h hleaving]
          rfl

/-- Both sweeps over the vectors of a chain. -/
theorem solveChain_eq {sizes : List StageSizes} {l : List (StageState α)}
    (h : SizedChain sizes l) : solveChain l = .ok (StagedQP.Riccati.solve l) := by
  have hg := Riccati.sized_gradients h
  rw [solveChain, gradients_eq h, ok_bind, StagedQP.Riccati.solve]
  cases hl : StagedQP.Riccati.gradients l with
  | nil =>
      rw [hl] at hg
      cases hg
  | cons s rest =>
      rw [hl] at hg
      have hdv : s.direction.dv.withTail s.nu (s.direction.dv.slice s.nu s.nx) =
          s.direction.dv := by
        cases sizes with
        | nil => cases hg
        | cons d ds =>
            obtain ⟨_, hs⟩ := hg.head
            exact withTail_slice (by rw [hs.direction.dv, hs.nu, hs.nx])
      have hroll := rollout_eq hg (Vec.size_slice s.direction.dv s.nu s.nx)
      rw [hdv] at hroll
      exact hroll

/-! ## Directions -/

omit [Scalar α] in
/-- An operation on all stages one after another. -/
theorem mapM_eq {sizes : List StageSizes} {l : List (StageState α)} (h : SizedChain sizes l)
    {f : StageState α → Except SizeFault (StageState α)} {g : StageState α → StageState α}
    (hfg : ∀ d n s, s.Sized d n → f s = .ok (g s)) : l.mapM f = .ok (l.map g) := by
  induction h with
  | last hs =>
      rw [List.mapM_cons, hfg _ _ _ hs]
      rfl
  | cons hs _ ih =>
      rw [List.mapM_cons, hfg _ _ _ hs, ok_bind, ih]
      rfl

/-- A search direction for the current right-hand side. -/
def newtonDirection (stages : List (StageState α)) :
    Except SizeFault (List (StageState α)) := do
  let stages ← stages.mapM condenseGradient
  let stages ← solveChain stages
  stages.mapM expand

theorem newtonDirection_eq {sizes : List StageSizes} {l : List (StageState α)}
    (h : SizedChain sizes l) : newtonDirection l = .ok (StagedQP.newtonDirection l) := by
  have hcondensed := h.map fun _ _ s hs => StageState.Sized.condenseGradient (s := s) hs
  rw [newtonDirection, mapM_eq h fun _ _ _ hs => condenseGradient_eq hs, ok_bind,
    solveChain_eq hcondensed, ok_bind,
    mapM_eq (Riccati.sized_solve hcondensed) fun _ _ _ hs => expand_eq hs]
  rfl

end Checked

end StagedQP
