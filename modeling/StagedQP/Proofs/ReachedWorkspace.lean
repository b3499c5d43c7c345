import StagedQP.Proofs.WorkspaceUse

/-!
# Workspaces with a history

Between two solves a workspace can be anything that solves, starts, residual evaluations and steps
have made of it, in any order: a solve may have broken down half-way through a backward sweep, a
step may have been made from a point whose residuals were never evaluated, and any buffer may hold
undefined values. `Workspace.Reached` is the set of these workspaces.

What their history cannot change is stated by `Workspace.Settled`. Besides the sizes there is one
more fact, and it is the one that matters for a later solve: the sweep over the matrices leaves some
buffers of a stage alone — the factor of a stage without controls, the gain and the cost-to-go of a
stage without states — and later sweeps read them. They are empty matrices, they are what
`StageState.zeros` made them, and `StageState.Tidy` says that they stay so.

Nothing here uses a law of arithmetic.

## Main results

* `Workspace.Reached.settled` — what no history changes.
* `Workspace.Reached.allocated` — in particular every buffer keeps its size.
* `RunState.run_workspace` — what steps and residual evaluations keep, a whole run keeps.
-/

namespace StagedQP

variable {α : Type} [Scalar α]

/-! ## Histories -/

/-- A workspace with a history: made for some stage sizes, and used since in any way. -/
inductive Workspace.Reached : Workspace α → Prop where
  /-- A new workspace. -/
  | new {sizes : List StageSizes} {config : SolverConfig α} {w : Workspace α}
      (hnew : Workspace.of? sizes config = .ok w) : Reached w
  /-- A solve, however it ended. -/
  | solved {w : Workspace α} {h : Horizon α} {config : SolverConfig α} {t : Trajectory α}
      {res : SolveResult α} (hw : Reached w) (hres : h.solveIn config t w = .ok res) :
      Reached res.workspace
  /-- Slacks and multipliers put around whatever point is there. -/
  | started {w : Workspace α} (mu0 : α) (hw : Reached w) : Reached (w.start mu0)
  /-- Residuals evaluated. -/
  | evaluated {w : Workspace α} (hw : Reached w) : Reached w.residuals
  /-- A step, made or broken off. -/
  | stepped {w : Workspace α} (mu sigmaMin : α) (hw : Reached w) :
      Reached (w.step mu sigmaMin).workspace

/-- A workspace in use has a history of solves alone. -/
theorem Workspace.InUse.reached {w : Workspace α} (hw : w.InUse) : w.Reached := by
  induction hw with
  | new hnew => exact .new hnew
  | solved _ hres ih => exact .solved ih hres

/-! ## Buffers that no sweep writes -/

/-- A matrix without entries is the matrix of zeros of its shape. -/
theorem Mat.eq_zeros_of_empty {m : Mat α} (hm : m.WellFormed) (h : m.rows = 0 ∨ m.cols = 0) :
    m = Mat.zeros m.rows m.cols := by
  refine ext_get hm (wellFormed_ofFn ..) rfl rfl fun i hi j hj => ?_
  rcases h with h | h
  · omega
  · omega

/-- The buffers of the recursion that sweeps leave alone are as they were made. -/
structure StageState.Tidy (s : StageState α) : Prop where
  /-- Without states the cost-to-go is empty. -/
  cost : s.nx = 0 → s.riccati.cost = Mat.zeros 0 0
  /-- Without states or controls the gain is empty. -/
  gain : s.nu = 0 ∨ s.nx = 0 → s.riccati.gain = Mat.zeros s.nu s.nx
  /-- Without controls the factor is that of the empty matrix. -/
  factor : s.nu = 0 → s.riccati.factor = some (Cholesky.ofIdentity 0)

/-- Sizes and recursion of a stage. -/
def StageState.recursion (s : StageState α) : (Nat × Nat) × RiccatiData α :=
  ((s.nx, s.nu), s.riccati)

namespace StageState

theorem tidy_zeros (d : StageSizes) (n : Nat) : (StageState.zeros d n : StageState α).Tidy where
  cost h := by
    show Mat.zeros d.nx d.nx = _
    rw [show d.nx = 0 from h]
  gain _ := rfl
  factor h := by
    show some (Cholesky.ofIdentity d.nu) = _
    rw [show d.nu = 0 from h]

theorem Tidy.of_recursion {s s' : StageState α} (h : s'.recursion = s.recursion) (hs : s.Tidy) :
    s'.Tidy := by
  have hnx : s'.nx = s.nx := congrArg (fun p => p.1.1) h
  have hnu : s'.nu = s.nu := congrArg (fun p => p.1.2) h
  have hric : s'.riccati = s.riccati := congrArg Prod.snd h
  refine ⟨?_, ?_, ?_⟩
  · rw [hnx, hric]
    exact hs.cost
  · rw [hnx, hnu, hric]
    exact hs.gain
  · rw [hnu, hric]
    exact hs.factor

theorem Tidy.of_ground {s s' : StageState α} (h : s'.ground = s.ground) (hs : s.Tidy) :
    s'.Tidy := by
  have hnx : s'.nx = s.nx := congrArg (fun p => p.1.nx) h
  have hnu : s'.nu = s.nu := congrArg (fun p => p.1.nu) h
  have hcost : s'.riccati.cost = s.riccati.cost := congrArg (fun p => p.2.cost) h
  have hgain : s'.riccati.gain = s.riccati.gain := congrArg (fun p => p.2.gain) h
  have hfactor : s'.riccati.factor = s.riccati.factor := congrArg (fun p => p.2.factor) h
  refine ⟨?_, ?_, ?_⟩
  · rw [hnx, hcost]
    exact hs.cost
  · rw [hnx, hnu, hgain]
    exact hs.gain
  · rw [hnu, hfactor]
    exact hs.factor

theorem Tidy.closeCost {s : StageState α} (hs : s.Tidy) : s.closeCost.Tidy where
  cost h := by
    have hnx : s.nx = 0 := h
    show s.condensed.hess.block s.nu s.nu s.nx s.nx = _
    rw [hnx]
    exact Mat.eq_zeros_of_empty (Mat.wellFormed_ofFn ..) (.inl rfl)
  gain := hs.gain
  factor := hs.factor

theorem Tidy.pullCost {s : StageState α} (hs : s.Tidy) (next : Mat α) : (s.pullCost next).Tidy :=
  ⟨hs.cost, hs.gain, hs.factor⟩

/-- Closing the loop writes the gain and the cost-to-go of a stage with states. A gain without
controls is empty before as well as after. -/
theorem Tidy.closeLoop {s : StageState α} (hs : s.Tidy) : s.closeLoop.Tidy := by
  rw [closeLoop_eq]
  refine ⟨fun h => ?_, fun h => ?_, hs.factor⟩
  · exact (if_pos h).trans (hs.cost h)
  · show (if s.nx = 0 then s.riccati.gain else _) = Mat.zeros s.nu s.nx
    split
    · exact hs.gain h
    · have hnu : s.nu = 0 := h.resolve_right ‹_›
      have hrows : (solveWith s.riccati.factor s.crossBlock).neg.rows = 0 := by
        rw [hs.factor hnu]
        rfl
      have hcols : (solveWith s.riccati.factor s.crossBlock).neg.cols = s.nx := by
        rw [hs.factor hnu]
        rfl
      have hempty := Mat.eq_zeros_of_empty
        (m := (solveWith s.riccati.factor s.crossBlock).neg) (Mat.wellFormed_ofFn ..) (.inl hrows)
      rwa [hrows, hcols, ← hnu] at hempty

/-- The factor of a stage with controls may be anything. -/
theorem Tidy.setFactor {s : StageState α} (hs : s.Tidy) (hnu : s.nu ≠ 0)
    (f : Option (Cholesky α)) : (Riccati.setFactor f s).Tidy :=
  ⟨hs.cost, hs.gain, fun h => absurd h hnu⟩

end StageState

namespace Riccati

theorem tidy_factorStage {k : Nat} {s : StageState α} (hs : s.Tidy) :
    ∀ s' ∈ (factorStage k s).stages, s'.Tidy := by
  intro s' hs'
  by_cases h0 : s.nu = 0
  · rw [factorStage_of_no_control h0] at hs'
    obtain rfl := List.mem_singleton.1 hs'
    exact hs.closeLoop
  · cases hof : ControlFactor.of? s.controlBlock with
    | none =>
        rw [factorStage_of_none h0 hof] at hs'
        obtain rfl := List.mem_singleton.1 hs'
        exact hs.setFactor h0 none
    | some c =>
        rw [factorStage_of_some h0 hof] at hs'
        obtain rfl := List.mem_singleton.1 hs'
        exact (hs.setFactor h0 _).closeLoop

/-- The sweep over the matrices leaves tidy stages, as far as it gets. -/
theorem tidy_factorizeFrom (l : List (StageState α)) :
    ∀ k, (∀ s ∈ l, s.Tidy) → ∀ s ∈ (factorizeFrom k l).stages, s.Tidy := by
  induction l with
  | nil =>
      intro k _ s hs
      exact absurd hs List.not_mem_nil
  | cons s₀ rest ih =>
      intro k hl s hs
      have htail := ih (k + 1) fun s hs => hl s (List.mem_cons_of_mem _ hs)
      have hhead := hl s₀ List.mem_cons_self
      cases rest with
      | nil =>
          obtain rfl := List.mem_singleton.1 hs
          exact hhead.closeCost
      | cons next rest =>
          rcases factorizeFrom_cons_cons k s₀ next rest with ⟨done, after, _, hst, heq⟩ | ⟨_, heq⟩
          · rw [heq, List.mem_append, ← hst] at hs
            rcases hs with hs | hs
            · exact tidy_factorStage (hhead.pullCost _) s hs
            · exact htail s hs
          · rw [heq] at hs
            rcases List.mem_cons.1 hs with rfl | hs
            · exact hhead
            · exact htail s hs

end Riccati

/-! ## What no history changes -/

/-- Slacks and multipliers are put around a point in the buffers that are there for them. -/
theorem StageState.Shaped.start {s : StageState α} {n : Nat} (h : s.Shaped n) (mu0 : α) :
    (s.start mu0).Shaped n := by
  obtain ⟨htlo, htup, hllo, hlup⟩ := sizes_start mu0 s
  exact
    { h with
      pi := (Vec.size_zeros ..).trans h.pi
      t_lo := htlo.trans h.jac_rows
      t_up := htup.trans h.bound_up
      lam_lo := hllo.trans h.jac_rows
      lam_up := hlup.trans h.bound_up }

/-- Number of states, of controls and of inequality rows. -/
def StageState.counts (s : StageState α) : Nat × Nat × Nat := (s.nx, s.nu, s.nc)

/-- The same of the sizes of a stage. -/
def StageSizes.counts (d : StageSizes) : Nat × Nat × Nat := (d.nx, d.nu, d.nc)

omit [Scalar α] in
/-- The sizes of the stages tell the number of states of the stage after. -/
theorem nextNx_of_counts {l : List (StageState α)} {sizes : List StageSizes}
    (h : l.map StageState.counts = sizes.map StageSizes.counts) (k : Nat) :
    nextNx l k = nextCount sizes k := by
  have hk : l[k + 1]?.map StageState.counts = sizes[k + 1]?.map StageSizes.counts := by
    rw [← List.getElem?_map, h, List.getElem?_map]
  rw [nextNx, nextCount]
  cases hs : l[k + 1]? with
  | none =>
      rw [hs] at hk
      rw [Option.map_eq_none_iff.1 hk.symm]
      rfl
  | some s =>
      rw [hs] at hk
      obtain ⟨d, hd, heq⟩ := Option.map_eq_some_iff.1 hk.symm
      rw [hd]
      exact (congrArg Prod.fst heq).symm

theorem StageState.shaped_zeros (d : StageSizes) (n : Nat) :
    (StageState.zeros d n : StageState α).Shaped n := by
  have hnc : (StageState.zeros d n : StageState α).nc = d.nc := Vec.size_zeros _
  constructor
  case factor =>
    intro c hc
    obtain rfl := Option.some.inj hc
    rfl
  case grad => exact Vec.size_zeros _
  case off => exact Vec.size_zeros _
  case v => exact Vec.size_zeros _
  case pi => exact Vec.size_zeros _
  case stat => exact Vec.size_zeros _
  case dyn => exact Vec.size_zeros _
  case jac_rows => exact hnc.symm
  all_goals rfl

namespace Workspace

/-- The stages are those of a horizon of the sizes the workspace was made for, in buffers of the
right sizes, and the buffers that sweeps leave alone are as they were made. -/
structure Settled (w : Workspace α) : Prop where
  /-- The sizes. -/
  counts : w.stages.map StageState.counts = w.sizes.map StageSizes.counts
  /-- The buffers. -/
  shaped : HorizonShaped w.stages
  /-- The buffers that sweeps leave alone. -/
  tidy : ∀ s ∈ w.stages, s.Tidy

variable {w : Workspace α}

omit [Scalar α] in
theorem map_counts_of_core {l l' : List (StageState α)}
    (h : l'.map StageState.core = l.map StageState.core) :
    l'.map StageState.counts = l.map StageState.counts :=
  map_map_eq (f := StageState.core) (g := fun c => (c.nx, c.nu, c.data.bound.lo.size)) h

omit [Scalar α] in
theorem map_counts_of_fixed {l l' : List (StageState α)}
    (h : l'.map StageState.fixed = l.map StageState.fixed) :
    l'.map StageState.counts = l.map StageState.counts :=
  map_map_eq (f := StageState.fixed) (g := fun p => (p.1.1, p.1.2, p.2.bound.lo.size)) h

/-- Tidiness is a fact about sizes and recursion. -/
theorem tidy_of_map_recursion {l l' : List (StageState α)}
    (h : l'.map StageState.recursion = l.map StageState.recursion) (hl : ∀ s ∈ l, s.Tidy) :
    ∀ s ∈ l', s.Tidy :=
  forall_mem_of_map_eq h (fun _ _ heq hs => hs.of_recursion heq) hl

/-- Records do not matter. -/
theorem Settled.withStats (hw : w.Settled) (stats : List (StepStats α)) :
    ({ w with stats := stats } : Workspace α).Settled := ⟨hw.counts, hw.shaped, hw.tidy⟩

theorem residuals_recursion (w : Workspace α) :
    w.residuals.stages.map StageState.recursion = w.stages.map StageState.recursion := by
  have hone : ∀ (before after : Option (StageState α)) (s : StageState α),
      (s.evaluated before after).recursion = s.recursion := by
    intro before after s
    cases before with
    | none =>
        cases after with
        | none => rfl
        | some a => rfl
    | some b =>
        cases after with
        | none => rfl
        | some a => rfl
  refine List.ext_getElem? fun k => ?_
  rw [List.getElem?_map, List.getElem?_map, residuals_getElem?, Option.map_map]
  congr 1
  funext s
  exact hone _ _ s

theorem Settled.residuals (hw : w.Settled) : w.residuals.Settled where
  counts := (map_counts_of_fixed (map_fixed_of_base (residuals_base w))).trans hw.counts
  shaped := horizonShaped_residuals hw.shaped
  tidy := tidy_of_map_recursion (residuals_recursion w) hw.tidy

/-- What a sweep got done is settled, whether or not it failed. -/
theorem Settled.swept (hw : w.Settled) :
    ({ w with stages := w.sweep.stages } : Workspace α).Settled where
  counts := (map_counts_of_core (sweep_core w)).trans hw.counts
  shaped := horizonShaped_sweep hw.shaped
  tidy := by
    refine Riccati.tidy_factorizeFrom _ 0 ?_
    refine tidy_of_map_recursion ?_ hw.tidy
    rw [List.map_map]
    rfl

theorem Settled.moved (hw : w.Settled) (mu sigmaMin : α) : (w.moved mu sigmaMin).Settled where
  counts := (map_counts_of_fixed (moved_fixed hw.shaped mu sigmaMin)).trans hw.counts
  shaped := horizonShaped_moved hw.shaped mu sigmaMin
  tidy := by
    have hcorrector : ∀ s ∈ (w.corrector (w.target mu sigmaMin)).stages, s.Tidy :=
      forall_mem_of_map_eq (corrector_ground hw.shaped _) (fun _ _ heq hs => hs.of_ground heq)
        hw.swept.tidy
    refine tidy_of_map_recursion (l := (w.corrector (w.target mu sigmaMin)).stages) ?_ hcorrector
    rw [Workspace.moved, List.map_map]
    rfl

/-- A step leaves a settled workspace, whether or not it was made. -/
theorem Settled.step (hw : w.Settled) (mu sigmaMin : α) :
    (w.step mu sigmaMin).workspace.Settled := by
  cases hf : w.sweep.failed with
  | none =>
      rw [step_of_swept hf]
      exact hw.moved mu sigmaMin
  | some k =>
      rw [step_of_failed hf]
      exact hw.swept

theorem step_sizes (w : Workspace α) (mu sigmaMin : α) :
    (w.step mu sigmaMin).workspace.sizes = w.sizes := by
  cases hf : w.sweep.failed with
  | none =>
      rw [step_of_swept hf]
      rfl
  | some k =>
      rw [step_of_failed hf]

theorem step_maxIter (w : Workspace α) (mu sigmaMin : α) :
    (w.step mu sigmaMin).workspace.maxIter = w.maxIter := by
  cases hf : w.sweep.failed with
  | none =>
      rw [step_of_swept hf]
      rfl
  | some k =>
      rw [step_of_failed hf]

theorem Settled.start (hw : w.Settled) (mu0 : α) : (w.start mu0).Settled := by
  have hfixed : (w.start mu0).stages.map StageState.fixed = w.stages.map StageState.fixed := by
    rw [Workspace.start, List.map_map]
    rfl
  have hrecursion : (w.start mu0).stages.map StageState.recursion =
      w.stages.map StageState.recursion := by
    rw [Workspace.start, List.map_map]
    rfl
  exact
    { counts := (map_counts_of_fixed hfixed).trans hw.counts
      shaped := hw.shaped.of_fixed hfixed
        (hw.shaped.chained.map _ (fun _ => rfl) fun s n hs => hs.start mu0)
      tidy := tidy_of_map_recursion hrecursion hw.tidy }

/-! ## Loading -/

theorem loadStages_recursion (l : List (StageState α)) : ∀ ds : List (Stage α),
    (loadStages l ds).map StageState.recursion = l.map StageState.recursion := by
  induction l with
  | nil => intro ds; rfl
  | cons s rest ih =>
      intro ds
      cases ds with
      | nil => rfl
      | cons d ds => exact congrArg (s.recursion :: ·) (ih ds)

theorem readStages_recursion (l : List (StageState α)) : ∀ us xs : List (Vec α),
    (readStages l us xs).map StageState.recursion = l.map StageState.recursion := by
  induction l with
  | nil => intro us xs; rfl
  | cons s rest ih =>
      intro us xs
      cases xs with
      | nil => rfl
      | cons x xs => exact congrArg (s.recursion :: ·) (ih us.tail xs)

/-- A solve starts with the recursion that the workspace was left with. -/
theorem initial_recursion (h : Horizon α) (config : SolverConfig α) (t : Trajectory α)
    (w : Workspace α) : (RunState.initial h config t w).workspace.stages.map StageState.recursion =
      w.stages.map StageState.recursion := by
  have hload : (w.load h).stages.map StageState.recursion = w.stages.map StageState.recursion :=
    loadStages_recursion ..
  rw [Horizon.initial_stages, List.map_map]
  show (h.placed config t w).stages.map StageState.recursion = _
  rw [Horizon.placed]
  split
  · exact (readStages_recursion ..).trans hload
  · rw [← hload, clearPoint, List.map_map]
    rfl

end Workspace

/-- The rows of a stage that holds a stage of a horizon. -/
theorem counts_of_fixed {h : Horizon α} {l : List (StageState α)}
    (hl : l.map StageState.fixed = h.stages.map Stage.fixed) :
    l.map StageState.counts = h.sizes.map StageSizes.counts := by
  have hmap : l.map StageState.counts =
      (h.stages.map Stage.fixed).map fun p => (p.1.1, p.1.2, p.2.bound.lo.size) := by
    rw [← hl, List.map_map]
    rfl
  rw [hmap, Horizon.sizes, List.map_map, List.map_map]
  refine List.map_congr_left fun d hd => ?_
  have hshape := h.consistent.shaped d hd
  show (d.sizes.nx, d.sizes.nu, (d.lb.append d.lg).size) = _
  rw [Vec.size_append, hshape.lb, hshape.lg]
  rfl

namespace Workspace

variable {w : Workspace α} {h : Horizon α} {config : SolverConfig α} {t : Trajectory α}

/-- Every buffer of a settled workspace has the size it was allocated with. -/
theorem Settled.allocated (hw : w.Settled) : w.Allocated := by
  have hlen : w.stages.length = w.sizes.length := by
    simpa only [List.length_map] using congrArg List.length hw.counts
  refine ⟨hlen, fun k s d hs hd => ?_⟩
  have hk : w.stages[k]?.map StageState.counts = w.sizes[k]?.map StageSizes.counts := by
    rw [← List.getElem?_map, hw.counts, List.getElem?_map]
  rw [hs, hd] at hk
  have heq : s.counts = d.counts := Option.some.inj hk
  have hnx : s.nx = d.nx := congrArg Prod.fst heq
  have hnu : s.nu = d.nu := congrArg (fun p => p.2.1) heq
  have hnc : s.nc = d.nc := congrArg (fun p => p.2.2) heq
  have hnv : s.nu + s.nx = d.nv := by rw [hnu, hnx, StageSizes.nv]
  have hshape := hw.shaped.chained k s hs
  rw [nextNx_of_counts hw.counts] at hshape
  exact
    { nx := hnx
      nu := hnu
      v := hshape.v.trans hnv
      pi := hshape.pi
      stat := hshape.stat.trans hnv
      dyn := hshape.dyn
      ineq_lo := hshape.ineq_lo.trans hnc
      ineq_up := hshape.ineq_up.trans hnc
      cost_rows := hshape.cost_rows.trans hnx
      cost_cols := hshape.cost_cols.trans hnx
      gain_rows := hshape.gain_rows.trans hnu
      gain_cols := hshape.gain_cols.trans hnx
      factor := fun c hc => (hshape.factor c hc).trans hnu }

/-- A solve in a settled workspace starts from a settled one. -/
theorem Settled.initial (hw : w.Settled) (hs : h.Solvable config t w) :
    (RunState.initial h config t w).workspace.Settled where
  counts := by
    rw [counts_of_fixed (Horizon.initial_fixed hs hw.allocated), h.initial_sizes, hs.sizes_eq]
  shaped := Horizon.horizonShaped_initial hs hw.allocated
  tidy := tidy_of_map_recursion (initial_recursion h config t w) hw.tidy

end Workspace

/-- What residual evaluations and steps keep, whatever the records, a whole run keeps. -/
theorem RunState.run_workspace {P : Workspace α → Prop} (hres : ∀ w, P w → P w.residuals)
    (hstep : ∀ w mu sigmaMin, P w → P (w.step mu sigmaMin).workspace)
    (hstats : ∀ (w : Workspace α) stats, P w → P { w with stats := stats })
    (config : SolverConfig α) : ∀ (remaining : Nat) (r : RunState α), P r.workspace →
      P (r.run config remaining).1.workspace := by
  refine run_induction (P := fun _ r last => P r.workspace → P last.1.workspace) ?stop ?cap
    ?breakdown ?short ?step
  case stop => exact fun _ _ _ _ hr => hres _ hr
  case cap => exact fun _ _ hr => hres _ hr
  case breakdown => exact fun _ _ _ _ _ hr => hstep _ _ _ (hres _ hr)
  case short => exact fun _ _ _ _ _ _ hr => hstats _ _ (hstep _ _ _ (hres _ hr))
  case step =>
    intro _ r stats last _ _ _ ih hr
    exact ih (hstats _ _ (hstep _ _ _ (hres _ hr)))

namespace Workspace

variable {w : Workspace α} {h : Horizon α} {config : SolverConfig α} {t : Trajectory α}

/-- A new workspace for the sizes of an accepted horizon is settled. -/
theorem settled_of? {sizes : List StageSizes} (hnew : Workspace.of? sizes config = .ok w)
    (hh : h.sizes = w.sizes) : w.Settled := by
  have hcons := h.consistent
  have hget : ∀ (k : Nat) (s : StageState α), w.stages[k]? = some s →
      ∃ d, w.sizes[k]? = some d ∧ s = StageState.zeros d (nextCount w.sizes k) := by
    intro k s hs
    have hk := (List.getElem?_eq_some_iff.1 hs).1
    rw [length_new hnew] at hk
    have hd : w.sizes[k]? = some w.sizes[k] := List.getElem?_eq_getElem hk
    exact ⟨_, hd, Option.some.inj (hs.symm.trans (new_getElem? hnew hd))⟩
  have hstage : ∀ (k : Nat) (d : StageSizes), w.sizes[k]? = some d →
      ∃ d', h.stages[k]? = some d' ∧ d'.sizes = d := by
    intro k d hd
    rw [← hh, Horizon.sizes, List.getElem?_map] at hd
    exact Option.map_eq_some_iff.1 hd
  have hcounts : w.stages.map StageState.counts = w.sizes.map StageSizes.counts := by
    refine List.ext_getElem? fun k => ?_
    rw [List.getElem?_map, List.getElem?_map]
    cases hs : w.stages[k]? with
    | none =>
        rw [List.getElem?_eq_none_iff, length_new hnew] at hs
        rw [List.getElem?_eq_none hs]
        rfl
    | some s =>
        obtain ⟨d, hd, rfl⟩ := hget k s hs
        rw [hd]
        show some (d.nx, d.nu, (Vec.zeros d.nc : Vec α).size) = _
        rw [Vec.size_zeros]
        rfl
  refine ⟨hcounts, ⟨fun k s hs => ?_, fun s hs => ?_, fun k s hs hnone => ?_⟩, fun s hs => ?_⟩
  · obtain ⟨d, hd, rfl⟩ := hget k s hs
    rw [nextNx_of_counts hcounts]
    exact StageState.shaped_zeros d _
  · obtain ⟨d, hd, rfl⟩ := hget 0 s hs
    obtain ⟨d', hd', rfl⟩ := hstage 0 d hd
    exact hcons.first d' hd'
  · obtain ⟨d, hd, rfl⟩ := hget k s hs
    obtain ⟨d', hd', rfl⟩ := hstage k d hd
    refine (hcons.last k d' hd' ?_).1
    rw [List.getElem?_eq_none_iff, length_new hnew, ← hh, Horizon.sizes, List.length_map] at hnone
    exact List.getElem?_eq_none hnone
  · obtain ⟨k, hk⟩ := List.getElem?_of_mem hs
    obtain ⟨d, _, rfl⟩ := hget k s hk
    exact StageState.tidy_zeros d _

/-- A solve leaves a settled workspace, however it ends. -/
theorem Settled.solved {res : SolveResult α} (hw : w.Settled)
    (hres : h.solveIn config t w = .ok res) : res.workspace.Settled := by
  have hs := Horizon.solvable_of_solveIn hres
  obtain rfl := Except.ok.inj (hres.symm.trans hs.solveIn_eq)
  exact (RunState.run_workspace (P := Settled) (fun _ => Settled.residuals)
    (fun _ mu sigmaMin hw => hw.step mu sigmaMin) (fun _ stats hw => hw.withStats stats) config
    config.maxIter _ (hw.initial hs)).residuals

/-- The sizes that a workspace was made for stay with it. -/
theorem solved_sizes {res : SolveResult α} (hres : h.solveIn config t w = .ok res) :
    res.workspace.sizes = w.sizes := by
  have hs := Horizon.solvable_of_solveIn hres
  obtain ⟨res', hres', r, hr, hfrom⟩ := hs.exists_solveIn
  obtain rfl := Except.ok.inj (hres.symm.trans hres')
  exact (hfrom.sizes.trans hr.sizes).trans (h.initial_sizes config t w)

/-- No history changes what `Settled` states, if the sizes are those of an accepted horizon. -/
theorem Reached.settled (hw : w.Reached) (hh : h.sizes = w.sizes) : w.Settled := by
  induction hw with
  | new hnew => exact settled_of? hnew hh
  | solved _ hres ih => exact (ih (hh.trans (solved_sizes hres))).solved hres
  | started mu0 _ ih => exact (ih hh).start mu0
  | evaluated _ ih => exact (ih hh).residuals
  | stepped mu sigmaMin _ ih => exact (ih (hh.trans (step_sizes ..))).step mu sigmaMin

/-- Whatever its history, a workspace that can serve a solve has its buffers allocated. -/
theorem Reached.allocated (hw : w.Reached) (hs : h.Solvable config t w) : w.Allocated :=
  (hw.settled hs.sizes_eq.symm).allocated

end Workspace

end StagedQP
