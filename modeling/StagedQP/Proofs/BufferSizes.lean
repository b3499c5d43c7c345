import StagedQP.Proofs.ReachedWorkspace

/-!
# Buffers keep their sizes

A stage is kept in some forty buffers, whose sizes follow from the sizes of the stage and the number
of states of the stage after it. `StageState.Sized` states the size of every one of them, work space
included. Only the factor may be missing: a control block that cannot be factored leaves none.

Every operation on a stage keeps all sizes, so every operation on a chain of stages does, and with
that every workspace with a history has the buffers it was made with. Whether the data of the stages
can be solved, or whether the sizes are those of any horizon, plays no role.

## Main results

* `StageState.sized_zeros` — the buffers a stage is made with.
* `SizedChain.step` — a step, made or broken off.
* `Workspace.Reached.sized` — a workspace with a history.
-/

namespace StagedQP

variable {α : Type}

/-! ## The buffers of a stage -/

/-- The vectors of both sides have `n` entries. -/
structure Sides.Sized (n : Nat) (s : Sides (Vec α)) : Prop where
  lo : s.lo.size = n
  up : s.up.size = n

/-- The matrix has `r` rows and `c` columns. -/
structure Mat.Sized (r c : Nat) (m : Mat α) : Prop where
  rows : m.rows = r
  cols : m.cols = c

/-- The data of a stage with `nv` entries in its vector, `nc` rows and `n` states after it. -/
structure PackedStage.Sized (nv nc n : Nat) (p : PackedStage α) : Prop where
  hess : p.hess.Sized nv nv
  grad : p.grad.size = nv
  jac : p.jac.Sized nc nv
  dyn : p.dyn.Sized n nv
  off : p.off.size = n
  bound : p.bound.Sized nc

/-- The point at such a stage. -/
structure StagePoint.Sized (nv nc n : Nat) (p : StagePoint α) : Prop where
  v : p.v.size = nv
  pi : p.pi.size = n
  t : p.t.Sized nc
  lam : p.lam.Sized nc

/-- Its residuals. -/
structure StageResidual.Sized (nv nc n : Nat) (r : StageResidual α) : Prop where
  stat : r.stat.size = nv
  dyn : r.dyn.size = n
  ineq : r.ineq.Sized nc
  comp : r.comp.Sized nc

/-- The condensed system. -/
structure Condensed.Sized (nv nc : Nat) (c : Condensed α) : Prop where
  weight : c.weight.size = nc
  term : c.term.size = nc
  weighted : c.weighted.Sized nc nv
  hess : c.hess.Sized nv nv
  grad : c.grad.size = nv

/-- The recursion. -/
structure RiccatiData.Sized (nx nu n : Nat) (r : RiccatiData α) : Prop where
  total : r.total.Sized (nu + nx) (nu + nx)
  totalVec : r.totalVec.size = nu + nx
  pulled : r.pulled.Sized (nu + nx) n
  cost : r.cost.Sized nx nx
  costVec : r.costVec.size = nx
  gain : r.gain.Sized nu nx
  feed : r.feed.size = nu
  factor : ∀ c, r.factor = some c → c.lower.Sized nu nu

/-- A direction. -/
structure StageDirection.Sized (nv nc n : Nat) (d : StageDirection α) : Prop where
  dv : d.dv.size = nv
  dpi : d.dpi.size = n
  dt : d.dt.Sized nc
  dlam : d.dlam.Sized nc

/-- The room for intermediate results. -/
structure Scratch.Sized (nv nc n : Nat) (s : Scratch α) : Prop where
  nv : s.nv.size = nv
  nc : s.nc.size = nc
  nxNext : s.nxNext.size = n

/-- Every buffer of a stage of sizes `d` whose successor has `n` states. -/
structure StageState.Sized (d : StageSizes) (n : Nat) (s : StageState α) : Prop where
  nx : s.nx = d.nx
  nu : s.nu = d.nu
  data : s.data.Sized (d.nu + d.nx) d.nc n
  point : s.point.Sized (d.nu + d.nx) d.nc n
  residual : s.residual.Sized (d.nu + d.nx) d.nc n
  condensed : s.condensed.Sized (d.nu + d.nx) d.nc
  riccati : s.riccati.Sized d.nx d.nu n
  direction : s.direction.Sized (d.nu + d.nx) d.nc n
  affineT : s.affineT.Sized d.nc
  affineLam : s.affineLam.Sized d.nc
  scratch : s.scratch.Sized (d.nu + d.nx) d.nc n

/-- The sizes of all buffers as equations. -/
theorem StageState.Sized.sizes {d : StageSizes} {n : Nat} {s : StageState α} (h : s.Sized d n) :
    (s.nx = d.nx ∧ s.nu = d.nu) ∧
    (s.data.hess.rows = d.nu + d.nx ∧ s.data.hess.cols = d.nu + d.nx ∧
      s.data.grad.size = d.nu + d.nx ∧ s.data.jac.rows = d.nc ∧ s.data.jac.cols = d.nu + d.nx ∧
      s.data.dyn.rows = n ∧ s.data.dyn.cols = d.nu + d.nx ∧ s.data.off.size = n ∧
      s.data.bound.lo.size = d.nc ∧ s.data.bound.up.size = d.nc) ∧
    (s.point.v.size = d.nu + d.nx ∧ s.point.pi.size = n ∧ s.point.t.lo.size = d.nc ∧
      s.point.t.up.size = d.nc ∧ s.point.lam.lo.size = d.nc ∧ s.point.lam.up.size = d.nc) ∧
    (s.residual.stat.size = d.nu + d.nx ∧ s.residual.dyn.size = n ∧
      s.residual.ineq.lo.size = d.nc ∧ s.residual.ineq.up.size = d.nc ∧
      s.residual.comp.lo.size = d.nc ∧ s.residual.comp.up.size = d.nc) ∧
    (s.condensed.weight.size = d.nc ∧ s.condensed.term.size = d.nc ∧
      s.condensed.weighted.rows = d.nc ∧ s.condensed.weighted.cols = d.nu + d.nx ∧
      s.condensed.hess.rows = d.nu + d.nx ∧ s.condensed.hess.cols = d.nu + d.nx ∧
      s.condensed.grad.size = d.nu + d.nx) ∧
    (s.riccati.total.rows = d.nu + d.nx ∧ s.riccati.total.cols = d.nu + d.nx ∧
      s.riccati.totalVec.size = d.nu + d.nx ∧ s.riccati.pulled.rows = d.nu + d.nx ∧
      s.riccati.pulled.cols = n ∧ s.riccati.cost.rows = d.nx ∧ s.riccati.cost.cols = d.nx ∧
      s.riccati.costVec.size = d.nx ∧ s.riccati.gain.rows = d.nu ∧ s.riccati.gain.cols = d.nx ∧
      s.riccati.feed.size = d.nu) ∧
    (s.direction.dv.size = d.nu + d.nx ∧ s.direction.dpi.size = n ∧
      s.direction.dt.lo.size = d.nc ∧ s.direction.dt.up.size = d.nc ∧
      s.direction.dlam.lo.size = d.nc ∧ s.direction.dlam.up.size = d.nc) ∧
    (s.affineT.lo.size = d.nc ∧ s.affineT.up.size = d.nc ∧ s.affineLam.lo.size = d.nc ∧
      s.affineLam.up.size = d.nc) ∧
    s.scratch.nv.size = d.nu + d.nx ∧ s.scratch.nc.size = d.nc ∧ s.scratch.nxNext.size = n := by
  obtain ⟨hnx, hnu, ⟨hhess, hgrad, hjac, hdyn, hoff, hbound⟩, ⟨hv, hpi, ht, hlam⟩,
    ⟨hstat, hrdyn, hineq, hcomp⟩, ⟨hweight, hterm, hweighted, hchess, hcgrad⟩,
    ⟨htotal, htotalVec, hpulled, hcost, hcostVec, hgain, hfeed, _⟩, ⟨hdv, hdpi, hdt, hdlam⟩,
    haffT, haffLam, ⟨hnv, hnc, hnext⟩⟩ := h
  exact ⟨⟨hnx, hnu⟩,
    ⟨hhess.rows, hhess.cols, hgrad, hjac.rows, hjac.cols, hdyn.rows, hdyn.cols, hoff, hbound.lo,
      hbound.up⟩,
    ⟨hv, hpi, ht.lo, ht.up, hlam.lo, hlam.up⟩,
    ⟨hstat, hrdyn, hineq.lo, hineq.up, hcomp.lo, hcomp.up⟩,
    ⟨hweight, hterm, hweighted.rows, hweighted.cols, hchess.rows, hchess.cols, hcgrad⟩,
    ⟨htotal.rows, htotal.cols, htotalVec, hpulled.rows, hpulled.cols, hcost.rows, hcost.cols,
      hcostVec, hgain.rows, hgain.cols, hfeed⟩,
    ⟨hdv, hdpi, hdt.lo, hdt.up, hdlam.lo, hdlam.up⟩,
    ⟨haffT.lo, haffT.up, haffLam.lo, haffLam.up⟩, hnv, hnc, hnext⟩

/-- The buffers that are read before they are written have the sizes that a step relies on. -/
theorem StageState.Sized.shaped {d : StageSizes} {n : Nat} {s : StageState α} (h : s.Sized d n) :
    s.Shaped n := by
  have hnv : d.nu + d.nx = s.nu + s.nx := by rw [h.nu, h.nx]
  have hnc : d.nc = s.nc := h.data.bound.lo.symm
  exact
    { hess_rows := h.data.hess.rows.trans hnv
      hess_cols := h.data.hess.cols.trans hnv
      grad := h.data.grad.trans hnv
      jac_rows := h.data.jac.rows.trans hnc
      jac_cols := h.data.jac.cols.trans hnv
      dyn_rows := h.data.dyn.rows
      dyn_cols := h.data.dyn.cols.trans hnv
      off := h.data.off
      bound_up := h.data.bound.up.trans hnc
      v := h.point.v.trans hnv
      pi := h.point.pi
      t_lo := h.point.t.lo.trans hnc
      t_up := h.point.t.up.trans hnc
      lam_lo := h.point.lam.lo.trans hnc
      lam_up := h.point.lam.up.trans hnc
      stat := h.residual.stat.trans hnv
      dyn := h.residual.dyn
      ineq_lo := h.residual.ineq.lo.trans hnc
      ineq_up := h.residual.ineq.up.trans hnc
      cost_rows := h.riccati.cost.rows.trans h.nx.symm
      cost_cols := h.riccati.cost.cols.trans h.nx.symm
      gain_rows := h.riccati.gain.rows.trans h.nu.symm
      gain_cols := h.riccati.gain.cols.trans h.nx.symm
      factor := fun c hc => (h.riccati.factor c hc).rows.trans h.nu.symm }

namespace StageState

variable [Scalar α] {d : StageSizes} {n : Nat} {s : StageState α}

/-- The buffers a stage is made with. -/
theorem sized_zeros (d : StageSizes) (n : Nat) : (zeros d n : StageState α).Sized d n := by
  have hv : ∀ k, (Vec.zeros k : Vec α).size = k := Vec.size_zeros
  have hsides : ∀ k, (⟨Vec.zeros k, Vec.zeros k⟩ : Sides (Vec α)).Sized k := fun k => ⟨hv k, hv k⟩
  have hm : ∀ r c, (Mat.zeros r c : Mat α).Sized r c := fun r c => ⟨rfl, rfl⟩
  exact
    { nx := rfl
      nu := rfl
      data := ⟨hm _ _, hv _, hm _ _, hm _ _, hv _, hsides _⟩
      point := ⟨hv _, hv _, hsides _, hsides _⟩
      residual := ⟨hv _, hv _, hsides _, hsides _⟩
      condensed := ⟨hv _, hv _, hm _ _, hm _ _, hv _⟩
      riccati :=
        { total := hm _ _
          totalVec := hv _
          pulled := hm _ _
          cost := hm _ _
          costVec := hv _
          gain := hm _ _
          feed := hv _
          factor := fun c hc => by
            obtain rfl := Option.some.inj hc
            exact ⟨rfl, rfl⟩ }
      direction := ⟨hv _, hv _, hsides _, hsides _⟩
      affineT := hsides _
      affineLam := hsides _
      scratch := ⟨hv _, hv _, hv _⟩ }

/-! ## Operations on a stage -/

/-- Slacks and multipliers put around a point. -/
theorem Sized.start (h : s.Sized d n) (mu0 : α) : (s.start mu0).Sized d n := by
  have hc : (s.data.jac.mulVec s.point.v).size = d.nc :=
    (Mat.size_mulVec ..).trans h.data.jac.rows
  have hlo : ((s.data.jac.mulVec s.point.v).sub s.data.bound.lo).size = d.nc :=
    (Vec.size_sub ..).trans hc
  have hup : (s.data.bound.up.sub (s.data.jac.mulVec s.point.v)).size = d.nc :=
    (Vec.size_sub ..).trans h.data.bound.up
  have hmap : ∀ (v : Vec α) (f : α → α), v.size = d.nc → (v.map f).size = d.nc :=
    fun v f hv => (Vec.size_map ..).trans hv
  exact { h with
    point :=
      { h.point with
        pi := (Vec.size_zeros _).trans h.point.pi
        t := ⟨hmap _ _ hlo, hmap _ _ hup⟩
        lam := ⟨hmap _ _ (hmap _ _ hlo), hmap _ _ (hmap _ _ hup)⟩ }
    scratch := { h.scratch with nc := hc } }

/-- The residuals of a stage on its own. -/
theorem Sized.ownResiduals (h : s.Sized d n) : s.ownResiduals.Sized d n := by
  have hc : (s.data.jac.mulVec s.point.v).size = d.nc :=
    (Mat.size_mulVec ..).trans h.data.jac.rows
  have hstat : s.ownResiduals.residual.stat.size = d.nu + d.nx := by
    unfold StageState.ownResiduals
    simp only [Mat.size_subTrMulVec, Mat.size_addTrMulVec, Mat.size_addMulVec, h.data.grad]
  have hlo : s.ownResiduals.residual.ineq.lo.size = d.nc :=
    (Vec.size_sub ..).trans ((Vec.size_sub ..).trans hc)
  have hup : s.ownResiduals.residual.ineq.up.size = d.nc :=
    (Vec.size_sub ..).trans ((Vec.size_sub ..).trans h.data.bound.up)
  exact { h with
    residual :=
      { h.residual with
        stat := hstat
        dyn := (Mat.size_addMulVec ..).trans h.data.off
        ineq := ⟨hlo, hup⟩ }
    scratch := { h.scratch with nc := hc } }

theorem Sized.coupleBefore (h : s.Sized d n) (pi : Vec α) : (s.coupleBefore pi).Sized d n :=
  { h with residual := { h.residual with stat := (Vec.size_ofFn ..).trans h.residual.stat } }

theorem Sized.coupleAfter (h : s.Sized d n) (x : Vec α) : (s.coupleAfter x).Sized d n :=
  { h with residual := { h.residual with dyn := (Vec.size_sub ..).trans h.residual.dyn } }

/-- Weights and condensed Hessian. -/
theorem Sized.condenseHessian (h : s.Sized d n) : s.condenseHessian.Sized d n := by
  have hweight : s.condenseHessian.condensed.weight.size = d.nc :=
    (Vec.size_add ..).trans ((Vec.size_zipWith ..).trans h.point.lam.lo)
  exact { h with
    condensed :=
      { h.condensed with
        weight := hweight
        weighted := ⟨h.data.jac.rows, h.data.jac.cols⟩
        hess := ⟨h.data.hess.rows, h.data.hess.cols⟩ } }

/-- Complementarity terms and condensed gradient. -/
theorem Sized.condenseGradient (h : s.Sized d n) : s.condenseGradient.Sized d n := by
  have hterm : s.condenseGradient.condensed.term.size = d.nc :=
    (Vec.size_sub ..).trans ((Vec.size_zipWith ..).trans
      ((Vec.size_add ..).trans h.residual.comp.lo))
  exact { h with
    condensed :=
      { h.condensed with
        term := hterm
        grad := (Mat.size_addTrMulVec ..).trans h.residual.stat } }

/-- Slack and multiplier directions. -/
theorem Sized.expand (h : s.Sized d n) : s.expand.Sized d n := by
  have hc : (s.data.jac.mulVec s.direction.dv).size = d.nc :=
    (Mat.size_mulVec ..).trans h.data.jac.rows
  have hside : ∀ comp lam dt t : Vec α, comp.size = d.nc →
      (sideMultiplier comp lam dt t).size = d.nc := fun comp lam dt t hcomp =>
    (Vec.size_zipWith ..).trans ((Vec.size_neg _).trans ((Vec.size_add ..).trans hcomp))
  exact { h with
    direction :=
      { h.direction with
        dt := ⟨(Vec.size_add ..).trans hc,
          (Vec.size_add ..).trans ((Vec.size_neg _).trans hc)⟩
        dlam := ⟨hside _ _ _ _ h.residual.comp.lo, hside _ _ _ _ h.residual.comp.up⟩ }
    scratch := { h.scratch with nc := hc } }

theorem Sized.aimAtZero (h : s.Sized d n) : s.aimAtZero.Sized d n :=
  { h with
    residual :=
      { h.residual with
        comp := ⟨(Vec.size_zipWith ..).trans h.point.lam.lo,
          (Vec.size_zipWith ..).trans h.point.lam.up⟩ } }

theorem Sized.aimAtTarget (h : s.Sized d n) (target : α) : (s.aimAtTarget target).Sized d n :=
  { h with
    residual :=
      { h.residual with
        comp := ⟨(Vec.size_ofFn ..).trans h.point.lam.lo,
          (Vec.size_ofFn ..).trans h.point.lam.up⟩ }
    affineT := h.direction.dt
    affineLam := h.direction.dlam }

theorem Sized.move (h : s.Sized d n) (a : α) : (s.move a).Sized d n :=
  { h with
    point :=
      { v := (Vec.size_advance ..).trans h.point.v
        pi := (Vec.size_advance ..).trans h.point.pi
        t := ⟨(Vec.size_advance ..).trans h.point.t.lo, (Vec.size_advance ..).trans h.point.t.up⟩
        lam := ⟨(Vec.size_advance ..).trans h.point.lam.lo,
          (Vec.size_advance ..).trans h.point.lam.up⟩ } }

theorem Sized.closeCost (h : s.Sized d n) : s.closeCost.Sized d n :=
  { h with
    riccati := { h.riccati with total := h.condensed.hess, cost := ⟨h.nx, h.nx⟩ } }

theorem Sized.pullCost (h : s.Sized d n) {next : Mat α} (hnext : next.cols = n) :
    (s.pullCost next).Sized d n :=
  { h with
    riccati :=
      { h.riccati with
        pulled := ⟨h.data.dyn.cols, hnext⟩
        total := ⟨h.condensed.hess.rows, h.condensed.hess.cols⟩ } }

omit [Scalar α] in
/-- A factor of the right size, or none. -/
theorem Sized.setFactor (h : s.Sized d n) {f : Option (Cholesky α)}
    (hf : ∀ c, f = some c → c.lower.Sized d.nu d.nu) : (Riccati.setFactor f s).Sized d n :=
  { h with riccati := { h.riccati with factor := hf } }

theorem Sized.closeLoop (h : s.Sized d n) : s.closeLoop.Sized d n := by
  have hgain : (solveWith s.riccati.factor s.crossBlock).Sized d.nu d.nx := by
    cases hf : s.riccati.factor with
    | none => exact ⟨h.nu, h.nx⟩
    | some c => exact ⟨(h.riccati.factor c hf).rows, h.nx⟩
  unfold StageState.closeLoop
  split
  · exact h
  · exact { h with
      riccati :=
        { h.riccati with
          gain := ⟨hgain.rows, hgain.cols⟩
          cost := ⟨h.nx, h.nx⟩ } }

theorem Sized.closeGradient (h : s.Sized d n) : s.closeGradient.Sized d n :=
  { h with
    riccati :=
      { h.riccati with
        totalVec := h.condensed.grad
        costVec := (Vec.size_slice ..).trans h.nx } }

/-- The vector part of the recursion, from that of the stage after. -/
theorem Sized.pullGradient (h : s.Sized d n) {next : RiccatiData α}
    (hnext : next.costVec.size = n) : (s.pullGradient next).Sized d n := by
  have hfeed : (s.pullGradient next).riccati.feed.size = d.nu := by
    refine (Vec.size_neg _).trans ?_
    cases hf : s.riccati.factor with
    | none => exact (Vec.size_slice ..).trans h.nu
    | some c => exact (Cholesky.size_solveVec ..).trans (h.riccati.factor c hf).rows
  exact { h with
    riccati :=
      { h.riccati with
        totalVec := (Mat.size_addTrMulVec ..).trans h.condensed.grad
        costVec := (Mat.size_addTrMulVec ..).trans ((Vec.size_slice ..).trans h.nx)
        feed := hfeed }
    scratch := { h.scratch with nxNext := (Mat.size_addMulVec ..).trans hnext } }

end StageState

/-! ## Chains -/

/-- Stages in buffers for a list of stage sizes. There is at least one. -/
inductive SizedChain : List StageSizes → List (StageState α) → Prop where
  /-- The last stage. -/
  | last {d : StageSizes} {s : StageState α} (hs : s.Sized d 0) : SizedChain [d] [s]
  /-- A stage before others. -/
  | cons {d e : StageSizes} {ds : List StageSizes} {s next : StageState α}
      {rest : List (StageState α)} (hs : s.Sized d e.nx) (h : SizedChain (e :: ds) (next :: rest)) :
      SizedChain (d :: e :: ds) (s :: next :: rest)

namespace SizedChain

variable {sizes : List StageSizes} {l : List (StageState α)}

/-- The first stage of a chain. -/
theorem head {d : StageSizes} {ds : List StageSizes} {s : StageState α}
    {rest : List (StageState α)} (h : SizedChain (d :: ds) (s :: rest)) : ∃ n, s.Sized d n := by
  cases h with
  | last hs => exact ⟨_, hs⟩
  | cons hs _ => exact ⟨_, hs⟩

/-- Stages in buffers of their sizes fit their successors. -/
theorem chained (h : SizedChain sizes l) : Chained l := by
  induction h with
  | @last d s hs =>
      intro k s' hs'
      cases k with
      | zero =>
          obtain rfl := Option.some.inj hs'
          exact hs.shaped
      | succ k => cases hs'
  | @cons d e ds s next rest hs h ih =>
      intro k s' hs'
      cases k with
      | zero =>
          obtain rfl := Option.some.inj hs'
          obtain ⟨_, hnext⟩ := h.head
          show s.Shaped next.nx
          rw [hnext.nx]
          exact hs.shaped
      | succ k => exact ih k s' hs'

/-- A chain with one more stage in front. -/
theorem push {d e : StageSizes} {ds : List StageSizes} {s : StageState α} (hs : s.Sized d e.nx)
    (h : SizedChain (e :: ds) l) : SizedChain (d :: e :: ds) (s :: l) := by
  cases l with
  | nil => cases h
  | cons next rest => exact .cons hs h

/-- An operation on every stage that keeps all sizes. -/
theorem map (h : SizedChain sizes l) {f : StageState α → StageState α}
    (hf : ∀ d n s, s.Sized d n → (f s).Sized d n) : SizedChain sizes (l.map f) := by
  induction h with
  | last hs => exact .last (hf _ _ _ hs)
  | cons hs _ ih => exact .cons (hf _ _ _ hs) ih

variable [Scalar α]

/-- Residuals coupled along the chain. -/
theorem couple (h : SizedChain sizes l) (before : Option (StageState α)) :
    SizedChain sizes (Workspace.couple before l) := by
  induction h generalizing before with
  | last hs =>
      cases before with
      | none => exact .last hs
      | some b => exact .last (hs.coupleBefore b.point.pi)
  | cons hs _ ih =>
      cases before with
      | none => exact (ih (some _)).push (hs.coupleAfter _)
      | some b => exact (ih (some _)).push ((hs.coupleBefore b.point.pi).coupleAfter _)

/-- The residuals of a chain. -/
theorem residuals {w : Workspace α} (h : SizedChain sizes w.stages) :
    SizedChain sizes w.residuals.stages :=
  (h.map fun _ _ _ hs => hs.ownResiduals).couple none

end SizedChain

section Sweeps

variable [Scalar α] {sizes : List StageSizes} {l : List (StageState α)}

/-- A factor is as large as what was factored. -/
theorem Cholesky.sized_of_factor {m : Mat α} {c : Cholesky α} (h : factor m = some c) :
    c.lower.Sized m.rows m.rows := by
  obtain ⟨a, _, rfl⟩ := Option.map_eq_some_iff.1 h
  exact ⟨rfl, rfl⟩

theorem ControlFactor.sized_of_of? {m : Mat α} {c : ControlFactor α} (h : of? m = some c) :
    c.factor.lower.Sized m.rows m.rows := by
  rcases factor_of_of? h with ⟨_, hfactor⟩ | ⟨eps, _, _, hfactor⟩
  · exact Cholesky.sized_of_factor hfactor
  · have hsized := Cholesky.sized_of_factor hfactor
    exact ⟨hsized.rows, hsized.cols⟩

namespace Riccati

/-- Whether or not its control block can be factored, a stage keeps its buffers. -/
theorem exists_sized_factorStage (k : Nat) {d : StageSizes} {n : Nat} {s : StageState α}
    (h : s.Sized d n) : ∃ s', (factorStage k s).stages = [s'] ∧ s'.Sized d n := by
  by_cases h0 : s.nu = 0
  · rw [factorStage_of_no_control h0]
    exact ⟨_, rfl, h.closeLoop⟩
  · cases hof : ControlFactor.of? s.controlBlock with
    | none =>
        rw [factorStage_of_none h0 hof]
        exact ⟨_, rfl, h.setFactor fun c hc => by cases hc⟩
    | some c =>
        rw [factorStage_of_some h0 hof]
        refine ⟨_, rfl, (h.setFactor fun c' hc' => ?_).closeLoop⟩
        obtain rfl := Option.some.inj hc'
        have hblock := ControlFactor.sized_of_of? hof
        rwa [show s.controlBlock.rows = d.nu from h.nu] at hblock

/-- The sweep over the matrices, wherever it stops. -/
theorem sized_factorizeFrom (h : SizedChain sizes l) (k : Nat) :
    SizedChain sizes (factorizeFrom k l).stages := by
  induction h generalizing k with
  | last hs => exact .last hs.closeCost
  | @cons d e ds s next rest hs _ ih =>
      have hafter := ih (k + 1)
      rcases factorizeFrom_cons_cons k s next rest with ⟨done, after, _, hstages, heq⟩ | ⟨_, heq⟩
      · rw [hstages] at hafter
        obtain ⟨_, hdone⟩ := hafter.head
        obtain ⟨s', hown, hs'⟩ := exists_sized_factorStage k (hs.pullCost hdone.riccati.cost.cols)
        rw [heq, hown]
        exact hafter.push hs'
      · rw [heq]
        exact hafter.push hs

/-- The backward sweep over the vectors. -/
theorem sized_gradients (h : SizedChain sizes l) : SizedChain sizes (gradients l) := by
  induction h with
  | last hs => exact .last hs.closeGradient
  | @cons d e ds s next rest hs _ ih =>
      rw [gradients]
      cases hg : gradients (next :: rest) with
      | nil =>
          rw [hg] at ih
          cases ih
      | cons done after =>
          rw [hg] at ih
          obtain ⟨_, hdone⟩ := ih.head
          exact ih.push (hs.pullGradient hdone.riccati.costVec)

/-- The forward sweep, from a direction of the states of the first stage. -/
theorem sized_rollout (h : SizedChain sizes l) (dx : Vec α)
    (hdx : ∀ d, sizes.head? = some d → dx.size = d.nx) : SizedChain sizes (rollout dx l) := by
  induction h generalizing dx with
  | @last d s hs =>
      have hdv : (s.direction.dv.withTail s.nu dx).size = d.nu + d.nx := by
        rw [Vec.withTail, Vec.size_append, Vec.size_slice, hs.nu, hdx d rfl]
      exact .last { hs with direction := { hs.direction with dv := hdv } }
  | @cons d e ds s next rest hs h ih =>
      have hdv : ((s.feedback dx).append dx).size = d.nu + d.nx := by
        rw [Vec.size_append, StageState.feedback, Mat.size_addMulVec, hs.riccati.feed, hdx d rfl]
      have hnv : ((s.feedback dx).append (s.scratch.nv.slice s.nu s.nx)).size = d.nu + d.nx := by
        rw [Vec.size_append, StageState.feedback, Mat.size_addMulVec, hs.riccati.feed,
          Vec.size_slice, hs.nx]
      obtain ⟨_, hnext⟩ := h.head
      refine (ih _ fun d' hd' => ?_).push ?_
      · obtain rfl := Option.some.inj hd'
        exact (Mat.size_addMulVec ..).trans hs.residual.dyn
      · exact { hs with
          direction :=
            { hs.direction with
              dv := hdv
              dpi := (Mat.size_addMulVec ..).trans hnext.riccati.costVec }
          scratch := { hs.scratch with nv := hnv } }

/-- Both sweeps over the vectors. -/
theorem sized_solve (h : SizedChain sizes l) : SizedChain sizes (solve l) := by
  have hg := sized_gradients h
  rw [solve]
  cases hs : gradients l with
  | nil =>
      rw [hs] at hg
      cases hg
  | cons s rest =>
      rw [hs] at hg
      refine sized_rollout hg _ fun d hd => ?_
      rw [Vec.size_slice]
      cases sizes with
      | nil => cases hd
      | cons e ds =>
          obtain rfl := Option.some.inj hd
          obtain ⟨_, hsized⟩ := hg.head
          exact hsized.nx

end Riccati

/-- A Newton direction. -/
theorem SizedChain.newtonDirection (h : SizedChain sizes l) :
    SizedChain sizes (newtonDirection l) :=
  (Riccati.sized_solve (h.map fun _ _ _ hs => hs.condenseGradient)).map fun _ _ _ hs => hs.expand

end Sweeps

/-! ## Steps and solves -/

namespace SizedChain

variable [Scalar α] {sizes : List StageSizes} {w : Workspace α}

theorem start (h : SizedChain sizes w.stages) (mu0 : α) : SizedChain sizes (w.start mu0).stages :=
  h.map fun _ _ _ hs => hs.start mu0

theorem sweep (h : SizedChain sizes w.stages) : SizedChain sizes w.sweep.stages :=
  Riccati.sized_factorizeFrom (h.map fun _ _ _ hs => hs.condenseHessian) 0

theorem predictor (h : SizedChain sizes w.stages) : SizedChain sizes w.predictor.stages :=
  (h.sweep.map fun _ _ _ hs => hs.aimAtZero).newtonDirection

theorem corrector (h : SizedChain sizes w.stages) (target : α) :
    SizedChain sizes (w.corrector target).stages :=
  (h.predictor.map fun _ _ _ hs => hs.aimAtTarget target).newtonDirection

theorem moved (h : SizedChain sizes w.stages) (mu sigmaMin : α) :
    SizedChain sizes (w.moved mu sigmaMin).stages :=
  (h.corrector _).map fun _ _ _ hs => hs.move _

/-- A step, made or broken off. -/
theorem step (h : SizedChain sizes w.stages) (mu sigmaMin : α) :
    SizedChain sizes (w.step mu sigmaMin).workspace.stages := by
  cases hf : w.sweep.failed with
  | some k =>
      rw [Workspace.step_of_failed hf]
      exact h.sweep
  | none =>
      rw [Workspace.step_of_swept hf]
      exact h.moved mu sigmaMin

/-- All steps of a run. -/
theorem run {r : RunState α} (h : SizedChain sizes r.workspace.stages) (config : SolverConfig α)
    (remaining : Nat) : SizedChain sizes (r.run config remaining).1.workspace.stages :=
  RunState.run_workspace (P := fun w => SizedChain sizes w.stages) (fun _ => residuals)
    (fun _ mu sigmaMin hw => hw.step mu sigmaMin) (fun _ _ hw => hw) config remaining r h

end SizedChain

/-! ## The start of a solve -/

/-- Stages that passed their checks and lead from one to the next. -/
inductive LinkedStages : List (Stage α) → Prop where
  /-- The last stage leads nowhere. -/
  | last {d : Stage α} (hd : d.WellShaped) (hidx : ∀ i ∈ d.idxb, i < d.sizes.nv)
      (hn : d.nxNext = 0) : LinkedStages [d]
  /-- A stage before others. -/
  | cons {d e : Stage α} {ds : List (Stage α)} (hd : d.WellShaped)
      (hidx : ∀ i ∈ d.idxb, i < d.sizes.nv) (hn : d.nxNext = e.sizes.nx)
      (h : LinkedStages (e :: ds)) : LinkedStages (d :: e :: ds)

/-- The stages of a horizon. -/
theorem Horizon.linkedStages [Scalar α] (h : Horizon α) : LinkedStages h.stages := by
  have hcons := h.consistent
  have hgeneral : ∀ l : List (Stage α), l ≠ [] → (∀ d ∈ l, d.WellShaped) →
      (∀ d ∈ l, ∀ i ∈ d.idxb, i < d.sizes.nv) →
      (∀ (k : Nat) (d e : Stage α), l[k]? = some d → l[k + 1]? = some e →
        d.nxNext = e.sizes.nx) →
      (∀ (k : Nat) (d : Stage α), l[k]? = some d → l[k + 1]? = none → d.nxNext = 0) →
      LinkedStages l := by
    intro l
    induction l with
    | nil => exact fun hne => absurd rfl hne
    | cons d rest ih =>
        intro _ hshaped hidx hlink hlast
        have hd := hshaped d (List.mem_cons_self ..)
        have hi := hidx d (List.mem_cons_self ..)
        cases rest with
        | nil => exact .last hd hi (hlast 0 d rfl rfl)
        | cons e ds =>
            refine .cons hd hi (hlink 0 d e rfl rfl) (ih (List.cons_ne_nil _ _) ?_ ?_ ?_ ?_)
            · exact fun d' hd' => hshaped d' (List.mem_cons_of_mem _ hd')
            · exact fun d' hd' => hidx d' (List.mem_cons_of_mem _ hd')
            · exact fun k => hlink (k + 1)
            · exact fun k => hlast (k + 1)
  have hne : h.stages ≠ [] := by
    intro hnil
    have hlen := hcons.length
    rw [hnil, List.length_nil] at hlen
    omega
  exact hgeneral _ hne hcons.shaped hcons.positions hcons.link fun k d hd hnone =>
    (hcons.last k d hd hnone).2

section Start

variable [Scalar α]

/-- The packed data of a stage. -/
theorem PackedStage.sized_ofStage {d : Stage α} (hd : d.WellShaped) :
    (ofStage d).Sized (d.sizes.nu + d.sizes.nx) d.sizes.nc d.nxNext where
  hess := ⟨rfl, rfl⟩
  grad := by
    show (d.r.append d.q).size = _
    rw [Vec.size_append, hd.r, hd.q]
  jac := ⟨rfl, rfl⟩
  dyn := ⟨rfl, rfl⟩
  off := hd.b
  bound :=
    { lo := by
        show (d.lb.append d.lg).size = _
        rw [Vec.size_append, hd.lb, hd.lg]
        rfl
      up := by
        show (d.ub.append d.ug).size = _
        rw [Vec.size_append, hd.ub, hd.ug]
        rfl }

theorem StageState.Sized.load {d : Stage α} {n : Nat} {s : StageState α} (h : s.Sized d.sizes n)
    (hd : d.WellShaped) (hn : d.nxNext = n) :
    ({ s with data := PackedStage.ofStage d } : StageState α).Sized d.sizes n :=
  { h with data := hn ▸ PackedStage.sized_ofStage hd }

omit [Scalar α] in
theorem StageState.Sized.setPoint {d : StageSizes} {n : Nat} {s : StageState α} (h : s.Sized d n)
    {v : Vec α} (hv : v.size = d.nu + d.nx) :
    ({ s with point.v := v } : StageState α).Sized d n :=
  { h with point := { h.point with v := hv } }

namespace SizedChain

variable {sizes : List StageSizes} {l : List (StageState α)}

/-- The data of a horizon taken in. -/
theorem loadStages {ds : List (Stage α)} (hds : LinkedStages ds)
    (h : SizedChain (ds.map Stage.sizes) l) :
    SizedChain (ds.map Stage.sizes) (Workspace.loadStages l ds) := by
  induction hds generalizing l with
  | last hd _ hn =>
      cases h with
      | last hs => exact .last (hs.load hd hn)
  | cons hd _ hn _ ih =>
      cases h with
      | cons hs h => exact (ih h).push (hs.load hd hn)

/-- Stages that were loaded hold those of the horizon. -/
theorem fixed_loadStages {ds : List (Stage α)} (hds : LinkedStages ds)
    (h : SizedChain (ds.map Stage.sizes) l) :
    (Workspace.loadStages l ds).map StageState.fixed = ds.map Stage.fixed := by
  induction hds generalizing l with
  | last _ _ _ =>
      cases h with
      | last hs =>
          show [((_, _), _)] = [((_, _), _)]
          rw [hs.nx, hs.nu]
  | cons _ _ _ _ ih =>
      cases h with
      | cons hs h =>
          show ((_, _), _) :: (Workspace.loadStages _ _).map StageState.fixed =
            ((_, _), _) :: List.map Stage.fixed (_ :: _)
          rw [hs.nx, hs.nu, ih h]

/-- The stage vectors taken from a trajectory. -/
theorem readStages (h : SizedChain sizes l) {us xs : List (Vec α)}
    (hus : us.map Vec.size = sizes.dropLast.map StageSizes.nu)
    (hxs : xs.map Vec.size = sizes.map StageSizes.nx) :
    SizedChain sizes (Workspace.readStages l us xs) := by
  induction h generalizing us xs with
  | @last d s hs =>
      obtain rfl := List.map_eq_nil_iff.1 hus
      obtain ⟨x, xs, rfl, hx, _⟩ := List.map_eq_cons_iff.1 hxs
      refine .last (hs.setPoint ?_)
      rw [Vec.size_append, hx]
      exact congrArg (· + d.nx) ((Vec.size_slice ..).trans hs.nu)
  | @cons d e ds s next rest hs _ ih =>
      obtain ⟨u, us, rfl, hu, hus'⟩ := List.map_eq_cons_iff.1 hus
      obtain ⟨x, xs, rfl, hx, hxs'⟩ := List.map_eq_cons_iff.1 hxs
      refine (ih hus' hxs').push (hs.setPoint ?_)
      rw [Vec.size_append, hx]
      exact congrArg (· + d.nx) hu

/-- The stage vectors set to zero. -/
theorem clearPoint {w : Workspace α} (h : SizedChain sizes w.stages) :
    SizedChain sizes w.clearPoint.stages :=
  h.map fun _ _ _ hs => hs.setPoint ((Vec.size_zeros _).trans hs.point.v)

end SizedChain

omit [Scalar α] in
/-- The vectors of a trajectory that fits. -/
theorem Trajectory.sizes_of_fits {t : Trajectory α} {sizes : List StageSizes}
    (h : t.fits sizes = true) : t.u.map Vec.size = sizes.dropLast.map StageSizes.nu ∧
      t.x.map Vec.size = sizes.map StageSizes.nx := by
  rw [fits, Bool.and_eq_true, ← List.dropLast_eq_take] at h
  exact ⟨eq_of_beq h.2, eq_of_beq h.1⟩

/-- A horizon taken in, and the stage vectors put where the solve starts. -/
theorem Horizon.Solvable.sized_placed {h : Horizon α} {config : SolverConfig α} {t : Trajectory α}
    {w : Workspace α} (hs : h.Solvable config t w) (hw : SizedChain h.sizes w.stages) :
    SizedChain h.sizes (h.placed config t w).stages := by
  have hload : SizedChain h.sizes (w.load h).stages := SizedChain.loadStages h.linkedStages hw
  rw [Horizon.placed]
  split
  · obtain ⟨hus, hxs⟩ := Trajectory.sizes_of_fits hs.trajectory
    exact hload.readStages hus hxs
  · exact hload.clearPoint

/-- A solve starts with the buffers of the workspace it was given. -/
theorem Horizon.Solvable.sized_initial {h : Horizon α} {config : SolverConfig α} {t : Trajectory α}
    {w : Workspace α} (hs : h.Solvable config t w) (hw : SizedChain h.sizes w.stages) :
    SizedChain h.sizes (RunState.initial h config t w).workspace.stages :=
  (hs.sized_placed hw).start _

end Start

/-! ## Workspaces with a history -/

namespace Workspace

variable [Scalar α] {w : Workspace α}

/-- The buffers of a workspace are those of the sizes it was made for. -/
def Sized (w : Workspace α) : Prop := SizedChain w.sizes w.stages

/-- A new workspace. -/
theorem sized_of? {sizes : List StageSizes} {config : SolverConfig α}
    (hnew : Workspace.of? sizes config = .ok w) : w.Sized := by
  have hzeros : ∀ l : List StageSizes, l ≠ [] → SizedChain l
      ((l.zip (nextStates l)).map fun p => (StageState.zeros p.1 p.2 : StageState α)) := by
    intro l
    induction l with
    | nil => exact fun hne => absurd rfl hne
    | cons d rest ih =>
        intro _
        cases rest with
        | nil => exact .last (StageState.sized_zeros d 0)
        | cons e ds => exact (ih (List.cons_ne_nil _ _)).push (StageState.sized_zeros d e.nx)
  obtain ⟨hne, hsizes, hstages⟩ := eq_of_of? hnew
  rw [Sized, hsizes, hstages]
  exact hzeros sizes hne

/-- A solve, however it ended. -/
theorem Sized.solved {h : Horizon α} {config : SolverConfig α} {t : Trajectory α}
    {res : SolveResult α} (hw : w.Sized) (hres : h.solveIn config t w = .ok res) :
    res.workspace.Sized := by
  have hs := Horizon.solvable_of_solveIn hres
  have hstart : SizedChain h.sizes w.stages := by
    rw [← hs.sizes_eq]
    exact hw
  rw [Sized, solved_sizes hres, hs.sizes_eq]
  obtain rfl := Except.ok.inj (hres.symm.trans hs.solveIn_eq)
  exact ((hs.sized_initial hstart).run config config.maxIter).residuals

/-- No history changes the size of a buffer. -/
theorem Reached.sized (hw : w.Reached) : w.Sized := by
  induction hw with
  | new hnew => exact sized_of? hnew
  | solved _ hres ih => exact ih.solved hres
  | started mu0 _ ih => exact SizedChain.start ih mu0
  | evaluated _ ih => exact SizedChain.residuals ih
  | stepped mu sigmaMin _ ih =>
      rw [Sized, step_sizes]
      exact SizedChain.step ih mu sigmaMin

end Workspace

end StagedQP
