import StagedQP.Proofs.RunVisits

/-!
# Workspaces in use

A workspace is made for given stage sizes and then used for any number of solves, each of which
leaves its own numbers behind. What it never loses is the sizes of its buffers:
`Workspace.Allocated` states them in terms of the stage sizes, and every workspace that can come up,
`Workspace.InUse`, has it.

A solve starts by loading an accepted horizon into such a workspace. The chain of stages it starts
with then fits together, and by `RunState.Visits.horizonShaped` so does every later one.

Nothing here uses a law of arithmetic.

## Main results

* `Workspace.of?_eq_ok_iff` — what it takes to make a workspace.
* `Workspace.InUse.allocated` — the buffers of a workspace in use.
* `Horizon.horizonShaped_initial`, `Horizon.initial_fixed` — the chain a solve starts with.
-/

namespace StagedQP

variable {α : Type}

/-! ## Allocation -/

/-- The buffers of a stage of sizes `d` whose successor has `n` states. -/
structure StageState.Allocated (d : StageSizes) (n : Nat) (s : StageState α) : Prop where
  nx : s.nx = d.nx
  nu : s.nu = d.nu
  v : s.point.v.size = d.nv
  pi : s.point.pi.size = n
  stat : s.residual.stat.size = d.nv
  dyn : s.residual.dyn.size = n
  ineq_lo : s.residual.ineq.lo.size = d.nc
  ineq_up : s.residual.ineq.up.size = d.nc
  cost_rows : s.riccati.cost.rows = d.nx
  cost_cols : s.riccati.cost.cols = d.nx
  gain_rows : s.riccati.gain.rows = d.nu
  gain_cols : s.riccati.gain.cols = d.nx
  factor : ∀ c, s.riccati.factor = some c → c.size = d.nu

/-- Number of states of the stage after stage `k`, `0` after the last. -/
def nextCount (sizes : List StageSizes) (k : Nat) : Nat := sizes[k + 1]?.elim 0 StageSizes.nx

/-- The buffers of a workspace are those of its stage sizes. -/
structure Workspace.Allocated (w : Workspace α) : Prop where
  length : w.stages.length = w.sizes.length
  stage : ∀ (k : Nat) (s : StageState α) (d : StageSizes), w.stages[k]? = some s →
    w.sizes[k]? = some d → s.Allocated d (nextCount w.sizes k)

theorem nextStates_getElem? {sizes : List StageSizes} {k : Nat} (h : k < sizes.length) :
    (nextStates sizes)[k]? = some (nextCount sizes k) := by
  have hlen : ((sizes.drop 1).map StageSizes.nx).length = sizes.length - 1 := by
    rw [List.length_map, List.length_drop]
  by_cases hk : k < sizes.length - 1
  · rw [nextStates, nextCount, List.getElem?_append_left (by omega), List.getElem?_map,
      List.getElem?_drop, Nat.add_comm 1 k, List.getElem?_eq_getElem (by omega)]
    rfl
  · have hnone : sizes[k + 1]? = none := List.getElem?_eq_none (by omega)
    rw [nextStates, nextCount, hnone, List.getElem?_append_right (by omega),
      show k - ((sizes.drop 1).map StageSizes.nx).length = 0 by omega]
    rfl

theorem length_nextStates {sizes : List StageSizes} (h : sizes ≠ []) :
    (nextStates sizes).length = sizes.length := by
  have hpos := List.length_pos_iff.2 h
  rw [nextStates, List.length_append, List.length_map, List.length_drop, List.length_singleton]
  omega

variable [Scalar α]

theorem StageState.allocated_zeros (d : StageSizes) (n : Nat) :
    (StageState.zeros d n : StageState α).Allocated d n where
  nx := rfl
  nu := rfl
  v := Vec.size_zeros ..
  pi := Vec.size_zeros ..
  stat := Vec.size_zeros ..
  dyn := Vec.size_zeros ..
  ineq_lo := Vec.size_zeros ..
  ineq_up := Vec.size_zeros ..
  cost_rows := rfl
  cost_cols := rfl
  gain_rows := rfl
  gain_cols := rfl
  factor := by
    intro c hc
    obtain rfl := Option.some.inj hc
    rfl

/-- For at least two stages and a valid configuration, only the room for the records decides. -/
theorem Workspace.of?_eq {sizes : List StageSizes} {config : SolverConfig α}
    (hlength : 2 ≤ sizes.length) (hvalid : config.check = .ok ()) :
    Workspace.of? sizes config =
      if arrayLimit < bytesPerRecord * config.maxIter then .error .capacity
      else .ok (zeros sizes config.maxIter) := by
  rw [of?, hvalid]
  exact if_neg (Nat.not_lt.2 hlength)

/-- What it takes to make a workspace, and what is made. -/
theorem Workspace.of?_eq_ok_iff {sizes : List StageSizes} {config : SolverConfig α}
    {w : Workspace α} : Workspace.of? sizes config = .ok w ↔ config.check = .ok () ∧
      2 ≤ sizes.length ∧ bytesPerRecord * config.maxIter ≤ arrayLimit ∧
      w = zeros sizes config.maxIter := by
  constructor
  · intro h
    have hchecked := h
    rw [of?, seq_eq_ok, mapError_eq_ok_iff] at hchecked
    obtain ⟨hvalid, hrest⟩ := hchecked
    rcases Nat.lt_or_ge sizes.length 2 with hshort | hlength
    · rw [if_pos hshort] at hrest
      cases hrest
    · rw [of?_eq hlength hvalid] at h
      split at h
      case isTrue hfull => cases h
      case isFalse hroom => exact ⟨hvalid, hlength, Nat.not_lt.1 hroom, (Except.ok.inj h).symm⟩
  · rintro ⟨hvalid, hlength, hroom, rfl⟩
    rw [of?_eq hlength hvalid, if_neg (Nat.not_lt.2 hroom)]

/-- A new workspace holds zeros for at least two stages. -/
theorem Workspace.eq_of_of? {sizes : List StageSizes} {config : SolverConfig α} {w : Workspace α}
    (h : Workspace.of? sizes config = .ok w) : sizes ≠ [] ∧ w.sizes = sizes ∧
      w.stages = (sizes.zip (nextStates sizes)).map fun p => StageState.zeros p.1 p.2 := by
  obtain ⟨_, hlength, _, rfl⟩ := of?_eq_ok_iff.1 h
  refine ⟨?_, rfl, rfl⟩
  rintro rfl
  exact absurd hlength (by decide)

/-- A new workspace is made for the cap of the configuration. -/
theorem Workspace.maxIter_of? {sizes : List StageSizes} {config : SolverConfig α} {w : Workspace α}
    (h : Workspace.of? sizes config = .ok w) : w.maxIter = config.maxIter := by
  obtain ⟨_, _, _, rfl⟩ := of?_eq_ok_iff.1 h
  rfl

/-- A stage of a new workspace. -/
theorem Workspace.new_getElem? {sizes : List StageSizes} {config : SolverConfig α}
    {w : Workspace α} (h : Workspace.of? sizes config = .ok w) {k : Nat} {d : StageSizes}
    (hd : w.sizes[k]? = some d) :
    w.stages[k]? = some (StageState.zeros d (nextCount w.sizes k)) := by
  obtain ⟨_, hsizes, hstages⟩ := eq_of_of? h
  have hk := (List.getElem?_eq_some_iff.1 hd).1
  have hzip : (w.sizes.zip (nextStates w.sizes))[k]? = some (d, nextCount w.sizes k) :=
    List.getElem?_zip_eq_some.2 ⟨hd, nextStates_getElem? hk⟩
  rw [hstages, ← hsizes, List.getElem?_map, hzip]
  rfl

/-- A new workspace has a stage for each of its sizes. -/
theorem Workspace.length_new {sizes : List StageSizes} {config : SolverConfig α} {w : Workspace α}
    (h : Workspace.of? sizes config = .ok w) : w.stages.length = w.sizes.length := by
  obtain ⟨hne, hsizes, hstages⟩ := eq_of_of? h
  rw [hstages, hsizes, List.length_map, List.length_zip, length_nextStates hne, Nat.min_self]

/-- A new workspace has its buffers allocated. -/
theorem Workspace.allocated_of? {sizes : List StageSizes} {config : SolverConfig α}
    {w : Workspace α} (h : Workspace.of? sizes config = .ok w) : w.Allocated := by
  refine ⟨length_new h, fun k s d hs hd => ?_⟩
  obtain rfl := Option.some.inj (hs.symm.trans (new_getElem? h hd))
  exact StageState.allocated_zeros d _

/-! ## Loading -/

/-- What the stages of a horizon fix at the stages of a workspace. -/
def Stage.fixed (d : Stage α) : (Nat × Nat) × PackedStage α :=
  ((d.sizes.nx, d.sizes.nu), PackedStage.ofStage d)

namespace Workspace

theorem loadStages_getElem? (l : List (StageState α)) : ∀ (ds : List (Stage α)) (k : Nat)
    (d : Stage α), ds[k]? = some d →
      (loadStages l ds)[k]? = l[k]?.map fun s => { s with data := PackedStage.ofStage d } := by
  induction l with
  | nil => intro ds k d _; rfl
  | cons s₀ rest ih =>
      intro ds k d hd
      cases ds with
      | nil => cases hd
      | cons d₀ ds =>
          cases k with
          | zero =>
              obtain rfl := Option.some.inj hd
              rfl
          | succ k => exact ih ds k d hd

theorem readStages_getElem? (l : List (StageState α)) : ∀ (us xs : List (Vec α)) (k : Nat)
    (x : Vec α), xs[k]? = some x → (readStages l us xs)[k]? =
      l[k]?.map fun s => { s with point.v := (us[k]?.getD s.controls).append x } := by
  induction l with
  | nil => intro us xs k x _; rfl
  | cons s₀ rest ih =>
      intro us xs k x hx
      cases xs with
      | nil => cases hx
      | cons x₀ xs =>
          cases k with
          | zero =>
              obtain rfl := Option.some.inj hx
              cases us with
              | nil => rfl
              | cons u us => rfl
          | succ k =>
              rw [readStages, List.getElem?_cons_succ, ih us.tail xs k x hx]
              cases us with
              | nil => rfl
              | cons u us => rfl

theorem length_loadStages (l : List (StageState α)) : ∀ ds : List (Stage α),
    (loadStages l ds).length = l.length := by
  induction l with
  | nil => intro ds; rfl
  | cons s₀ rest ih =>
      intro ds
      cases ds with
      | nil => rfl
      | cons d₀ ds => exact congrArg (· + 1) (ih ds)

theorem length_readStages (l : List (StageState α)) : ∀ us xs : List (Vec α),
    (readStages l us xs).length = l.length := by
  induction l with
  | nil => intro us xs; rfl
  | cons s₀ rest ih =>
      intro us xs
      cases xs with
      | nil => rfl
      | cons x₀ xs => exact congrArg (· + 1) (ih us.tail xs)

end Workspace

/-! ## Stages that hold a horizon -/

section Loaded

variable {h : Horizon α} {l : List (StageState α)}
  (hl : l.map StageState.fixed = h.stages.map Stage.fixed)

include hl

/-- A stage of the workspace has the sizes and the data of a stage of the horizon. -/
theorem exists_stage_of_fixed {k : Nat} {s : StageState α} (hs : l[k]? = some s) :
    ∃ d, h.stages[k]? = some d ∧ s.fixed = d.fixed := by
  have hmap : (l.map StageState.fixed)[k]? = (h.stages.map Stage.fixed)[k]? := by rw [hl]
  rw [List.getElem?_map, List.getElem?_map, hs] at hmap
  obtain ⟨d, hd, heq⟩ := Option.map_eq_some_iff.1 hmap.symm
  exact ⟨d, hd, heq.symm⟩

/-- Every stage of the horizon is held. -/
theorem exists_state_of_fixed {k : Nat} {d : Stage α} (hd : h.stages[k]? = some d) :
    ∃ s, l[k]? = some s ∧ s.fixed = d.fixed := by
  have hmap : (l.map StageState.fixed)[k]? = (h.stages.map Stage.fixed)[k]? := by rw [hl]
  rw [List.getElem?_map, List.getElem?_map, hd] at hmap
  exact Option.map_eq_some_iff.1 hmap

theorem length_of_fixed : l.length = h.stages.length := by
  have hlen := congrArg List.length hl
  rwa [List.length_map, List.length_map] at hlen

theorem nextNx_of_fixed (k : Nat) : nextNx l k = nextCount h.sizes k := by
  have hlen := length_of_fixed hl
  rw [nextNx, nextCount, Horizon.sizes, List.getElem?_map]
  cases hs : l[k + 1]? with
  | none =>
      rw [List.getElem?_eq_none_iff] at hs
      rw [List.getElem?_eq_none (by omega)]
      rfl
  | some s =>
      obtain ⟨d, hd, heq⟩ := exists_stage_of_fixed hl hs
      rw [hd]
      exact congrArg (fun p => p.1.1) heq

/-- A chain that holds a horizon has its ends. -/
theorem horizonShaped_of_fixed (hchained : Chained l) : HorizonShaped l := by
  have hcons := h.consistent
  refine ⟨hchained, ?_, ?_⟩
  · intro s hs
    obtain ⟨d, hd, heq⟩ := exists_stage_of_fixed hl hs
    rw [show s.nx = d.sizes.nx from congrArg (fun p => p.1.1) heq]
    exact hcons.first d hd
  · intro k s hs hnone
    obtain ⟨d, hd, heq⟩ := exists_stage_of_fixed hl hs
    rw [show s.nu = d.sizes.nu from congrArg (fun p => p.1.2) heq]
    refine (hcons.last k d hd ?_).1
    have hlen := length_of_fixed hl
    rw [List.getElem?_eq_none_iff] at hnone ⊢
    omega

end Loaded

/-! ## Trajectories of given sizes -/

omit [Scalar α] in
/-- There is a vector of states for each stage. -/
theorem Trajectory.size_x {t : Trajectory α} {sizes : List StageSizes} (h : t.fits sizes = true)
    {k : Nat} {d : StageSizes} (hd : sizes[k]? = some d) :
    ∃ x, t.x[k]? = some x ∧ x.size = d.nx := by
  rw [fits, Bool.and_eq_true] at h
  have hx := congrArg (fun l => l[k]?) (eq_of_beq h.1)
  rw [List.getElem?_map, List.getElem?_map, hd] at hx
  exact Option.map_eq_some_iff.1 hx

omit [Scalar α] in
/-- A vector of controls has the controls of its stage. -/
theorem Trajectory.size_u {t : Trajectory α} {sizes : List StageSizes} (h : t.fits sizes = true)
    {k : Nat} {d : StageSizes} {u : Vec α} (hd : sizes[k]? = some d) (hu : t.u[k]? = some u) :
    u.size = d.nu := by
  rw [fits, Bool.and_eq_true] at h
  have hmap := congrArg (fun l => l[k]?) (eq_of_beq h.2)
  rw [List.getElem?_map, List.getElem?_map, hu, List.getElem?_take] at hmap
  split at hmap
  · rw [hd] at hmap
    exact Option.some.inj hmap
  · cases hmap

/-! ## The start of a solve -/

/-- Slacks and multipliers take the sizes of the rows. -/
theorem StageState.sizes_start (mu0 : α) (s : StageState α) :
    (s.start mu0).point.t.lo.size = s.data.jac.rows ∧
      (s.start mu0).point.t.up.size = s.data.bound.up.size ∧
      (s.start mu0).point.lam.lo.size = s.data.jac.rows ∧
      (s.start mu0).point.lam.up.size = s.data.bound.up.size := by
  simp only [start, Sides.map, Vec.size_map, Vec.size_sub, Mat.size_mulVec, and_self]

/-- A packed stage in buffers of its sizes, with a stage vector of its length, is shaped once slacks
and multipliers have been put around it. -/
theorem StageState.shaped_start {s : StageState α} {d : Stage α} {n : Nat} {v : Vec α}
    (hd : d.WellShaped) (hn : d.nxNext = n) (ha : s.Allocated d.sizes n)
    (hv : v.size = d.sizes.nv) (mu0 : α) :
    (StageState.start mu0 { s with data := PackedStage.ofStage d, point.v := v }).Shaped n := by
  obtain ⟨htlo, htup, hllo, hlup⟩ := sizes_start mu0
    ({ s with data := PackedStage.ofStage d, point.v := v } : StageState α)
  have hlo : (d.lb.append d.lg).size = d.sizes.nb + d.sizes.ng := by
    rw [Vec.size_append, hd.lb, hd.lg]
  have hup : (d.ub.append d.ug).size = d.sizes.nb + d.sizes.ng := by
    rw [Vec.size_append, hd.ub, hd.ug]
  have hgrad : (d.r.append d.q).size = d.sizes.nu + d.sizes.nx := by
    rw [Vec.size_append, hd.r, hd.q]
  have hnv : d.sizes.nu + d.sizes.nx = s.nu + s.nx := by rw [ha.nu, ha.nx]
  constructor
  case hess_rows => exact hnv
  case hess_cols => exact hnv
  case grad => exact hgrad.trans hnv
  case jac_rows => exact hlo.symm
  case jac_cols => exact hnv
  case dyn_rows => exact hn
  case dyn_cols => exact hnv
  case off => exact hd.b.trans hn
  case bound_up => exact hup.trans hlo.symm
  case v => exact hv.trans hnv
  case pi => exact (Vec.size_zeros ..).trans ha.pi
  case t_lo => exact htlo.trans hlo.symm
  case t_up => exact htup.trans (hup.trans hlo.symm)
  case lam_lo => exact hllo.trans hlo.symm
  case lam_up => exact hlup.trans (hup.trans hlo.symm)
  case stat => exact ha.stat.trans hnv
  case dyn => exact ha.dyn
  case ineq_lo => exact ha.ineq_lo.trans hlo.symm
  case ineq_up => exact ha.ineq_up.trans hlo.symm
  case cost_rows => exact ha.cost_rows.trans ha.nx.symm
  case cost_cols => exact ha.cost_cols.trans ha.nx.symm
  case gain_rows => exact ha.gain_rows.trans ha.nu.symm
  case gain_cols => exact ha.gain_cols.trans ha.nx.symm
  case factor => exact fun c hc => (ha.factor c hc).trans ha.nu.symm

namespace Horizon

variable (h : Horizon α) {config : SolverConfig α} {t : Trajectory α} {w : Workspace α}

/-- The number of rows of a stage's dynamics is the number of states of the stage after. -/
theorem nxNext_eq {k : Nat} {d : Stage α} (hd : h.stages[k]? = some d) :
    d.nxNext = nextCount h.sizes k := by
  have hcons := h.consistent
  rw [nextCount, sizes, List.getElem?_map]
  cases hnext : h.stages[k + 1]? with
  | none => exact (hcons.last k d hd hnext).2
  | some next => exact hcons.link k d next hd hnext

/-- The workspace with the horizon loaded and the stage vectors of the starting point. -/
def placed (config : SolverConfig α) (t : Trajectory α) (w : Workspace α) : Workspace α :=
  if config.warmStart then (w.load h).readTrajectory t else (w.load h).clearPoint

/-- The stage vector that a solve starts with at stage `k`: that of the trajectory, or zero. -/
def startVector (config : SolverConfig α) (t : Trajectory α) (k : Nat) (d : Stage α) : Vec α :=
  if config.warmStart then (t.u[k]?.getD Vec.empty).append (t.x[k]?.getD Vec.empty)
  else Vec.zeros d.sizes.nv

theorem length_placed (config : SolverConfig α) (t : Trajectory α) (w : Workspace α) :
    (h.placed config t w).stages.length = w.stages.length := by
  have hload : (w.load h).stages.length = w.stages.length := Workspace.length_loadStages ..
  rw [placed]
  split
  · exact (Workspace.length_readStages ..).trans hload
  · exact (List.length_map ..).trans hload

theorem initial_stages (config : SolverConfig α) (t : Trajectory α) (w : Workspace α) :
    (RunState.initial h config t w).workspace.stages =
      (h.placed config t w).stages.map (StageState.start (startingBarrier h config)) := rfl

theorem initial_sizes (config : SolverConfig α) (t : Trajectory α) (w : Workspace α) :
    (RunState.initial h config t w).workspace.sizes = w.sizes := by
  show (h.placed config t w).sizes = w.sizes
  rw [placed]
  split
  · rfl
  · rfl

variable {h} (hs : h.Solvable config t w) (hw : w.Allocated)

include hs

theorem Solvable.sizes_eq : w.sizes = h.sizes := by
  have hfits := hs.workspace
  rw [Workspace.fits, Bool.and_eq_true] at hfits
  exact eq_of_beq hfits.1

/-- Past the last step of a trajectory there are no controls. -/
theorem Solvable.no_control_of_last {k : Nat} {d : Stage α} (hd : h.stages[k]? = some d)
    (hu : t.u[k]? = none) : d.sizes.nu = 0 := by
  have hfits := hs.trajectory
  rw [Trajectory.fits, Bool.and_eq_true] at hfits
  have hlen := congrArg List.length (eq_of_beq hfits.2)
  rw [List.length_map, List.length_map, List.length_take, sizes, List.length_map] at hlen
  rw [List.getElem?_eq_none_iff] at hu
  refine (h.consistent.last k d hd ?_).1
  rw [List.getElem?_eq_none_iff]
  omega

theorem Solvable.size_startVector {k : Nat} {d : Stage α} (hd : h.stages[k]? = some d) :
    (startVector config t k d).size = d.sizes.nv := by
  have hsz : h.sizes[k]? = some d.sizes := by
    rw [sizes, List.getElem?_map, hd]
    rfl
  rw [startVector]
  split
  · obtain ⟨x, hx, hxsize⟩ := Trajectory.size_x hs.trajectory hsz
    rw [hx, Vec.size_append, Option.getD_some, hxsize, StageSizes.nv]
    congr 1
    cases hu : t.u[k]? with
    | none => exact (hs.no_control_of_last hd hu).symm
    | some u => exact Trajectory.size_u hs.trajectory hsz hu
  · exact Vec.size_zeros _

include hw

theorem Solvable.length_eq : w.stages.length = h.stages.length := by
  rw [hw.length, hs.sizes_eq, sizes, List.length_map]

/-- A stage of the starting point: a stage of the workspace with the data of the horizon, and the
stage vector that the start gives it. -/
theorem Solvable.placed_getElem? {k : Nat} {s' : StageState α}
    (hs' : (h.placed config t w).stages[k]? = some s') :
    ∃ (s : StageState α) (d : Stage α), h.stages[k]? = some d ∧
      s.Allocated d.sizes (nextCount h.sizes k) ∧
      (startVector config t k d).size = d.sizes.nv ∧
      s' = { s with data := PackedStage.ofStage d, point.v := startVector config t k d } := by
  have hk : k < w.stages.length := by
    rw [← h.length_placed config t w]
    exact (List.getElem?_eq_some_iff.1 hs').1
  have hlen := hs.length_eq hw
  obtain ⟨s, hws⟩ : ∃ s, w.stages[k]? = some s := ⟨_, List.getElem?_eq_getElem hk⟩
  obtain ⟨d, hd⟩ : ∃ d, h.stages[k]? = some d := ⟨_, List.getElem?_eq_getElem (by omega)⟩
  have hsz : h.sizes[k]? = some d.sizes := by
    rw [sizes, List.getElem?_map, hd]
    rfl
  have halloc : s.Allocated d.sizes (nextCount h.sizes k) := by
    have h' := hw.stage k s d.sizes hws (by rw [hs.sizes_eq]; exact hsz)
    rwa [hs.sizes_eq] at h'
  have hload : (w.load h).stages[k]? = some { s with data := PackedStage.ofStage d } := by
    have h' := Workspace.loadStages_getElem? w.stages h.stages k d hd
    rwa [hws] at h'
  refine ⟨s, d, hd, halloc, hs.size_startVector hd, ?_⟩
  rw [placed] at hs'
  rw [startVector]
  split at hs'
  · obtain ⟨x, hx, _⟩ := Trajectory.size_x hs.trajectory hsz
    have hread := Workspace.readStages_getElem? (w.load h).stages t.u t.x k x hx
    rw [hload] at hread
    obtain rfl := Option.some.inj (hs'.symm.trans hread)
    rw [if_pos ‹_›, hx]
    cases hu : t.u[k]? with
    | none =>
        -- past the last step there are no controls to keep
        have hnu : s.nu = 0 := halloc.nu.trans (hs.no_control_of_last hd hu)
        have hempty : s.controls = Vec.empty := by
          rw [StageState.controls, hnu]
          rfl
        show { s with data := PackedStage.ofStage d, point.v := s.controls.append x } = _
        rw [hempty]
        rfl
    | some u => rfl
  · have hclear : (w.load h).clearPoint.stages[k]? = (w.load h).stages[k]?.map
        fun s => { s with point.v := Vec.zeros s.point.v.size } := List.getElem?_map ..
    rw [hload] at hclear
    obtain rfl := Option.some.inj (hs'.symm.trans hclear)
    rw [if_neg ‹_›, ← halloc.v]

/-- A stage that a solve starts with. -/
theorem Solvable.initial_getElem? {k : Nat} {s' : StageState α}
    (hs' : (RunState.initial h config t w).workspace.stages[k]? = some s') :
    ∃ (s : StageState α) (d : Stage α), h.stages[k]? = some d ∧
      s.Allocated d.sizes (nextCount h.sizes k) ∧
      (startVector config t k d).size = d.sizes.nv ∧
      s' = StageState.start (startingBarrier h config)
        { s with data := PackedStage.ofStage d, point.v := startVector config t k d } := by
  rw [initial_stages, List.getElem?_map] at hs'
  obtain ⟨s₁, hs₁, rfl⟩ := Option.map_eq_some_iff.1 hs'
  obtain ⟨s, d, hd, halloc, hv, rfl⟩ := hs.placed_getElem? hw hs₁
  exact ⟨s, d, hd, halloc, hv, rfl⟩

/-- A solve starts with the sizes and the data of the horizon. -/
theorem initial_fixed : (RunState.initial h config t w).workspace.stages.map StageState.fixed =
    h.stages.map Stage.fixed := by
  have hlen : (RunState.initial h config t w).workspace.stages.length = h.stages.length := by
    rw [initial_stages, List.length_map, length_placed, hs.length_eq hw]
  refine List.ext_getElem? fun k => ?_
  rw [List.getElem?_map, List.getElem?_map]
  cases hk : (RunState.initial h config t w).workspace.stages[k]? with
  | none =>
      rw [List.getElem?_eq_none_iff] at hk
      rw [List.getElem?_eq_none (by omega)]
      rfl
  | some s' =>
      obtain ⟨s, d, hd, halloc, _, rfl⟩ := hs.initial_getElem? hw hk
      rw [hd]
      show some (((s.nx, s.nu), PackedStage.ofStage d) : (Nat × Nat) × PackedStage α) = _
      rw [halloc.nx, halloc.nu]
      rfl

/-- The stages that a solve starts with form a chain with the ends of a horizon. -/
theorem horizonShaped_initial :
    HorizonShaped (RunState.initial h config t w).workspace.stages := by
  have hfixed := initial_fixed hs hw
  refine horizonShaped_of_fixed hfixed fun k s' hk => ?_
  obtain ⟨s, d, hd, halloc, hv, rfl⟩ := hs.initial_getElem? hw hk
  rw [nextNx_of_fixed hfixed]
  exact StageState.shaped_start (h.consistent.shaped d (List.mem_of_getElem? hd)) (h.nxNext_eq hd)
    halloc hv _

end Horizon

/-! ## Workspaces that can come up -/

/-- A workspace in use: made for some stage sizes, and used for any number of solves since. -/
inductive Workspace.InUse : Workspace α → Prop where
  /-- A new workspace. -/
  | new {sizes : List StageSizes} {config : SolverConfig α} {w : Workspace α}
      (hnew : Workspace.of? sizes config = .ok w) : InUse w
  /-- A workspace that a solve has left. -/
  | solved {w : Workspace α} {h : Horizon α} {config : SolverConfig α} {t : Trajectory α}
      {res : SolveResult α} (hw : InUse w) (hres : h.solveIn config t w = .ok res) :
      InUse res.workspace

theorem Trajectory.fits_zeros (sizes : List StageSizes) :
    (Trajectory.zeros sizes : Trajectory α).fits sizes = true := by
  have hsize : ∀ (l : List StageSizes) (count : StageSizes → Nat),
      (l.map fun d => (Vec.zeros (count d) : Vec α)).map Vec.size = l.map count := by
    intro l count
    rw [List.map_map]
    exact List.map_congr_left fun d _ => Vec.size_zeros _
  rw [fits, Bool.and_eq_true, beq_iff_eq, beq_iff_eq]
  exact ⟨hsize _ _, hsize _ _⟩

/-- A horizon and a configuration in range can be solved in a new workspace, from zero, unless the
cap asks for too much room. -/
theorem Horizon.exists_solvable (h : Horizon α) {config : SolverConfig α}
    (hvalid : config.check = .ok ()) (hroom : bytesPerRecord * config.maxIter ≤ arrayLimit) :
    ∃ w, Workspace.of? h.sizes config = .ok w ∧ w.InUse ∧
      h.Solvable config (Trajectory.zeros h.sizes) w := by
  have hlength : 2 ≤ h.sizes.length := by
    rw [sizes, List.length_map]
    exact h.consistent.length
  have hnew := Workspace.of?_eq_ok_iff.2 ⟨hvalid, hlength, hroom, rfl⟩
  refine ⟨_, hnew, .new hnew, hvalid, ?_, Trajectory.fits_zeros _⟩
  rw [Workspace.fits, Bool.and_eq_true, beq_iff_eq, decide_eq_true_iff]
  exact ⟨rfl, Nat.le_refl _⟩

/-- A stage of a workspace has the rows of the stage it holds. -/
theorem StageState.nc_of_fixed {s : StageState α} {d : Stage α} (hd : d.WellShaped)
    (hf : s.fixed = d.fixed) : s.nc = d.sizes.nc := by
  have hlo : s.data.bound.lo = d.lb.append d.lg := congrArg (fun p => p.2.bound.lo) hf
  rw [nc, hlo, Vec.size_append, hd.lb, hd.lg]
  rfl

theorem StageState.Shaped.allocated {s : StageState α} {d : Stage α} {n : Nat}
    (hs : s.Shaped n) (hd : d.WellShaped) (hf : s.fixed = d.fixed) : s.Allocated d.sizes n := by
  have hnx : s.nx = d.sizes.nx := congrArg (fun p => p.1.1) hf
  have hnu : s.nu = d.sizes.nu := congrArg (fun p => p.1.2) hf
  have hnc : s.nc = d.sizes.nc := nc_of_fixed hd hf
  have hnv : s.nu + s.nx = d.sizes.nv := by rw [hnu, hnx, StageSizes.nv]
  exact
    { nx := hnx
      nu := hnu
      v := hs.v.trans hnv
      pi := hs.pi
      stat := hs.stat.trans hnv
      dyn := hs.dyn
      ineq_lo := hs.ineq_lo.trans hnc
      ineq_up := hs.ineq_up.trans hnc
      cost_rows := hs.cost_rows.trans hnx
      cost_cols := hs.cost_cols.trans hnx
      gain_rows := hs.gain_rows.trans hnu
      gain_cols := hs.gain_cols.trans hnx
      factor := fun c hc => (hs.factor c hc).trans hnu }

/-- A loop head of a solve: the buffers have the right sizes and hold the horizon. -/
theorem Horizon.Solvable.visited {h : Horizon α} {config : SolverConfig α} {t : Trajectory α}
    {w : Workspace α} (hs : h.Solvable config t w) (hw : w.Allocated) {r : RunState α}
    (hr : RunState.Visits config (RunState.initial h config t w) r) :
    HorizonShaped r.workspace.stages ∧
      r.workspace.stages.map StageState.fixed = h.stages.map Stage.fixed := by
  obtain ⟨hshaped, hfixed⟩ := hr.horizonShaped (horizonShaped_initial hs hw)
  exact ⟨hshaped, hfixed.trans (initial_fixed hs hw)⟩

theorem RunState.Visits.sizes {config : SolverConfig α} {r₀ r : RunState α}
    (hr : Visits config r₀ r) : r.workspace.sizes = r₀.workspace.sizes := by
  refine Visits.induction (P := fun r => r.workspace.sizes = r₀.workspace.sizes) rfl
    (fun r _ ih _ _ => ?_) r hr
  exact (next_sizes config r).trans ih

/-- The buffers of a workspace in use have the sizes they were made with. -/
theorem Workspace.InUse.allocated {w : Workspace α} (hw : w.InUse) : w.Allocated := by
  induction hw with
  | new hnew => exact allocated_of? hnew
  | @solved w h config t res _ hres ih =>
      have hs := Horizon.solvable_of_solveIn hres
      obtain ⟨res', hres', r, hr, hfrom⟩ := hs.exists_solveIn
      obtain rfl := Except.ok.inj (hres.symm.trans hres')
      obtain ⟨hshaped, hfixed⟩ := hs.visited ih hr
      have hresFixed : res.workspace.stages.map StageState.fixed =
          h.stages.map Stage.fixed :=
        (map_fixed_of_base ((map_base_of_core hfrom.core).trans (residuals_base _))).trans hfixed
      have hsizes : res.workspace.sizes = h.sizes :=
        ((hfrom.sizes.trans hr.sizes).trans (h.initial_sizes config t w)).trans hs.sizes_eq
      constructor
      · rw [hsizes, length_of_fixed hresFixed, Horizon.sizes, List.length_map]
      · intro k s d hk hd
        obtain ⟨d', hd', heq⟩ := exists_stage_of_fixed hresFixed hk
        rw [hsizes, Horizon.sizes, List.getElem?_map, hd'] at hd
        obtain rfl := Option.some.inj hd
        have hshape := hfrom.chained hshaped k s hk
        rw [nextNx_of_fixed hresFixed] at hshape
        rw [hsizes]
        exact hshape.allocated (h.consistent.shaped d' (List.mem_of_getElem? hd')) heq

end StagedQP
