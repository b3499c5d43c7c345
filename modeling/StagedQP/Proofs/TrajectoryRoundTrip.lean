import StagedQP.Proofs.LastIterate
import StagedQP.Proofs.RefusedSolve

/-!
# Trajectories through a workspace

A warm start packs the caller's trajectory into the stage vectors, and what a solve returns is
unpacked from them. The two directions are separate passes over the stages, with the controls of a
stage in front of its states and a last stage that has no controls in a trajectory:

```text
stage        0          1        …      N
v        [u₀; x₀]   [u₁; x₁]     …    [  x_N]
```

They are inverse to each other. That only needs buffers of the sizes the workspace was made for; it
plays no role what is in them, whether any of the sizes is zero, or what a number is. A stage vector
is its controls followed by its states, so one lemma about each of the two parts serves all stages,
and the last stage, which keeps the controls it has, is the base of the induction over the chain.

## Main results

* `Workspace.toTrajectory_readTrajectory`, `Workspace.readTrajectory_toTrajectory` — the two ways
  round.
* `trajectory_survives_workspace` — both in place, and what a warm start without steps returns.
-/

namespace StagedQP

variable {α : Type} [Scalar α]

/-! ## The two parts of a stage vector -/

namespace StageState

variable {d : StageSizes} {n : Nat} {s : StageState α}

theorem Sized.states_setPoint (h : s.Sized d n) {u x : Vec α} (hu : u.size = d.nu)
    (hx : x.size = d.nx) : ({ s with point.v := u.append x } : StageState α).states = x :=
  Checked.slice_append_right (hu.trans h.nu.symm) (hx.trans h.nx.symm)

theorem Sized.controls_setPoint (h : s.Sized d n) {u : Vec α} (hu : u.size = d.nu) (x : Vec α) :
    ({ s with point.v := u.append x } : StageState α).controls = u :=
  Checked.slice_append_left (hu.trans h.nu.symm) x

/-- The point of a stage is put together again from its two parts. -/
theorem Sized.setPoint_self (h : s.Sized d n) :
    ({ s with point.v := s.controls.append s.states } : StageState α) = s := by
  have hsize : s.point.v.size = s.nu + s.nx := by rw [h.point.v, h.nu, h.nx]
  have hv : s.controls.append s.states = s.point.v := Checked.withTail_slice hsize
  rw [hv]

end StageState

/-! ## The two passes -/

namespace SizedChain

variable {sizes : List StageSizes} {l : List (StageState α)} {us xs : List (Vec α)}

/-- The states that were packed are those that are unpacked. -/
theorem states_readStages (h : SizedChain sizes l)
    (hus : us.map Vec.size = sizes.dropLast.map StageSizes.nu)
    (hxs : xs.map Vec.size = sizes.map StageSizes.nx) :
    (Workspace.readStages l us xs).map StageState.states = xs := by
  induction h generalizing us xs with
  | @last d s hs =>
      obtain rfl := List.map_eq_nil_iff.1 hus
      obtain ⟨x, xs, rfl, hx, hxs'⟩ := List.map_eq_cons_iff.1 hxs
      obtain rfl := List.map_eq_nil_iff.1 hxs'
      have hu : s.controls.size = d.nu := (Vec.size_slice ..).trans hs.nu
      exact congrArg (fun x => [x]) (hs.states_setPoint hu hx)
  | @cons d e ds s next rest hs _ ih =>
      obtain ⟨u, us, rfl, hu, hus'⟩ := List.map_eq_cons_iff.1 hus
      obtain ⟨x, xs, rfl, hx, hxs'⟩ := List.map_eq_cons_iff.1 hxs
      rw [Workspace.readStages, List.map_cons, List.tail_cons, ih hus' hxs', List.headD_cons,
        hs.states_setPoint hu hx]

/-- The controls that were packed are those that are unpacked. -/
theorem controls_readStages (h : SizedChain sizes l)
    (hus : us.map Vec.size = sizes.dropLast.map StageSizes.nu)
    (hxs : xs.map Vec.size = sizes.map StageSizes.nx) :
    (Workspace.readStages l us xs).dropLast.map StageState.controls = us := by
  induction h generalizing us xs with
  | @last d s hs =>
      obtain rfl := List.map_eq_nil_iff.1 hus
      obtain ⟨x, xs, rfl, hx, _⟩ := List.map_eq_cons_iff.1 hxs
      rfl
  | @cons d e ds s next rest hs _ ih =>
      obtain ⟨u, us, rfl, hu, hus'⟩ := List.map_eq_cons_iff.1 hus
      obtain ⟨x, xs, rfl, hx, hxs'⟩ := List.map_eq_cons_iff.1 hxs
      have hrest : Workspace.readStages (next :: rest) us xs ≠ [] := by
        intro hnil
        have hlen := Workspace.length_readStages (next :: rest) us xs
        rw [hnil] at hlen
        cases hlen
      rw [Workspace.readStages, List.tail_cons, List.dropLast_cons_of_ne_nil hrest, List.map_cons,
        ih hus' hxs', List.headD_cons, hs.controls_setPoint hu]

/-- Stages that read what they hold stay as they are. -/
theorem readStages_self (h : SizedChain sizes l) :
    Workspace.readStages l (l.dropLast.map StageState.controls) (l.map StageState.states) = l := by
  induction h with
  | last hs => exact congrArg (fun s => [s]) hs.setPoint_self
  | @cons d e ds s next rest hs _ ih =>
      rw [List.dropLast_cons_cons, List.map_cons, List.map_cons, Workspace.readStages,
        List.tail_cons, ih, List.headD_cons, hs.setPoint_self]

/-- The states that are unpacked have the lengths of a trajectory. -/
theorem sizes_states (h : SizedChain sizes l) :
    (l.map StageState.states).map Vec.size = sizes.map StageSizes.nx := by
  induction h with
  | last hs => exact congrArg (fun n => [n]) ((Vec.size_slice ..).trans hs.nx)
  | cons hs _ ih => exact congrArg₂ List.cons ((Vec.size_slice ..).trans hs.nx) ih

/-- So have the controls. -/
theorem sizes_controls (h : SizedChain sizes l) :
    (l.dropLast.map StageState.controls).map Vec.size = sizes.dropLast.map StageSizes.nu := by
  induction h with
  | last => rfl
  | cons hs _ ih => exact congrArg₂ List.cons ((Vec.size_slice ..).trans hs.nu) ih

theorem length_eq (h : SizedChain sizes l) : l.length = sizes.length := by
  have hlen := congrArg List.length h.sizes_states
  rwa [List.length_map, List.length_map, List.length_map] at hlen

end SizedChain

/-! ## Both ways round -/

namespace Workspace

variable {w : Workspace α} {t : Trajectory α} {sizes : List StageSizes}

/-- A trajectory comes out as it went in, whatever was in the buffers. -/
theorem toTrajectory_readTrajectory (hw : SizedChain sizes w.stages) (ht : t.fits sizes = true) :
    (w.readTrajectory t).toTrajectory = t := by
  obtain ⟨hus, hxs⟩ := Trajectory.sizes_of_fits ht
  rw [toTrajectory, readTrajectory, hw.states_readStages hus hxs, hw.controls_readStages hus hxs]

/-- A workspace that reads the trajectory it holds stays as it is. -/
theorem readTrajectory_toTrajectory (hw : SizedChain sizes w.stages) :
    w.readTrajectory w.toTrajectory = w := by
  rw [readTrajectory, toTrajectory, hw.readStages_self]

end Workspace

/-! ## A warm start without steps -/

/-- The point a warm start puts down is the caller's trajectory. -/
theorem Horizon.Solvable.toTrajectory_warm {h : Horizon α} {config : SolverConfig α}
    {t : Trajectory α} {w : Workspace α} (hs : h.Solvable config t w) (hw : w.Sized)
    (hwarm : config.warmStart = true) :
    (RunState.initial h config t w).workspace.toTrajectory = t := by
  have hstages : SizedChain h.sizes w.stages := hs.sizes_eq ▸ hw
  have hload : SizedChain h.sizes (w.load h).stages :=
    SizedChain.loadStages h.linkedStages hstages
  -- slacks and multipliers are put around the point, which stays
  have hstart : (RunState.initial h config t w).workspace.toTrajectory =
      (h.placed config t w).toTrajectory := by
    rw [Workspace.toTrajectory, Workspace.toTrajectory, Horizon.initial_stages, List.map_map,
      ← List.map_dropLast, List.map_map]
    rfl
  rw [hstart, Horizon.placed, if_pos hwarm, Workspace.toTrajectory_readTrajectory hload
    hs.trajectory]

/-- **Trajectories survive the workspace.** Take buffers of the sizes a workspace was made for, with
anything in them, and a trajectory of these sizes. Read in and written back, into whatever
trajectory of these sizes, it is what it was. The trajectory that the buffers hold, written out and
read in again, leaves every buffer as it was. Reading replaces stage vectors and nothing else,
writing touches no workspace. So a warm start that is ended before its first step leaves the caller
with the trajectory it was given. -/
theorem trajectory_survives_workspace {w : Workspace α} (hw : w.Sized) {t other : Trajectory α}
    (ht : t.fits w.sizes = true) (hother : other.fits w.sizes = true) :
    (Checked.readStages w.stages t.u t.x = .ok (w.readTrajectory t).stages ∧
      InPlace.writeBack.run ⟨other, w.readTrajectory t⟩ = .ok () ⟨t, w.readTrajectory t⟩) ∧
    (InPlace.writeBack.run ⟨other, w⟩ = .ok () ⟨w.toTrajectory, w⟩ ∧
      Checked.readStages w.stages w.toTrajectory.u w.toTrajectory.x = .ok w.stages) ∧
    ((w.readTrajectory t).stages.length = w.stages.length ∧
      ∀ (k : Nat) (s : StageState α), w.stages[k]? = some s → ∃ x, t.x[k]? = some x ∧
        (w.readTrajectory t).stages[k]? =
          some { s with point.v := (t.u[k]?.getD s.controls).append x }) ∧
    ∀ (h : Horizon α) (config : SolverConfig α) (out : Answer α) (s : Lent α),
      config.warmStart = true → (InPlace.solve h config).run ⟨t, w⟩ = .ok out s →
        out.report.iters = 0 → s.trajectory = t := by
  obtain ⟨hus, hxs⟩ := Trajectory.sizes_of_fits ht
  obtain ⟨hus', hxs'⟩ := Trajectory.sizes_of_fits hother
  have hread : SizedChain w.sizes (w.readTrajectory t).stages := SizedChain.readStages hw hus hxs
  have hback : ∀ {w' : Workspace α}, SizedChain w.sizes w'.stages →
      InPlace.writeBack.run ⟨other, w'⟩ = .ok () ⟨w'.toTrajectory, w'⟩ := by
    intro w' hw'
    rw [EStateM.run, InPlace.writeBack, Checked.writeStages_eq hw' hus' hxs']
    rfl
  refine ⟨⟨Checked.readStages_eq hw hus hxs, ?_⟩, ⟨hback hw, ?_⟩,
    ⟨Workspace.length_readStages .., fun k s hs => ?_⟩, fun h config out s hwarm hrun hzero => ?_⟩
  · rw [hback hread, Workspace.toTrajectory_readTrajectory hw ht]
  · have hagain : (w.readTrajectory w.toTrajectory).stages = w.stages :=
      congrArg Workspace.stages (Workspace.readTrajectory_toTrajectory hw)
    rw [Workspace.toTrajectory,
      Checked.readStages_eq hw (SizedChain.sizes_controls hw) (SizedChain.sizes_states hw)]
    exact congrArg Except.ok hagain
  · obtain ⟨d, hd⟩ : ∃ d, w.sizes[k]? = some d := by
      have hk : k < w.sizes.length := by
        rw [← SizedChain.length_eq hw]
        exact (List.getElem?_eq_some_iff.1 hs).1
      exact ⟨_, List.getElem?_eq_getElem hk⟩
    obtain ⟨x, hx, _⟩ := Trajectory.size_x ht hd
    refine ⟨x, hx, ?_⟩
    rw [Workspace.readTrajectory, Workspace.readStages_getElem? _ _ _ _ _ hx, hs]
    rfl
  · rw [InPlace.solve_eq hw] at hrun
    cases hres : h.solveIn config t w with
    | error e =>
        rw [hres] at hrun
        cases hrun
    | ok res =>
        rw [hres] at hrun
        cases hrun
        have hsolvable := Horizon.solvable_of_solveIn hres
        obtain ⟨res', hres', r, hr, hfrom⟩ := hsolvable.exists_solveIn
        obtain rfl := Except.ok.inj (hres.symm.trans hres')
        -- the only loop head without a step is the start
        obtain rfl := hr.eq_of_iters .start rfl (hzero.symm.trans hfrom.iters)
        exact hfrom.trajectory.trans (hsolvable.toTrajectory_warm hw hwarm)

/-- Two units of tolerance, and a start from the given trajectory. -/
def SolverConfig.warm : SolverConfig ℚ := { coarse with tol := 2, warmStart := true }

/-- The control between the bounds of the raised step, and the state it leads to. -/
def Trajectory.between : Trajectory ℚ :=
  ⟨[.empty, .ofList [3 / 4]], [.ofList [3 / 4]]⟩

/-- For instance on the raised step: the solve starts between the bounds, is within tolerance there,
and gives back what it was given. -/
theorem trajectory_survives_workspace_raised : ∃ w : Workspace ℚ,
    Workspace.of? Horizon.raised.sizes .warm = .ok w ∧
    InPlace.writeBack.run ⟨.zeros Horizon.raised.sizes, w.readTrajectory .between⟩ =
      .ok () ⟨.between, w.readTrajectory .between⟩ ∧
    ∃ out s, (InPlace.solve Horizon.raised .warm).run ⟨.between, w⟩ = .ok out s ∧
      out.report.iters = 0 ∧ s.trajectory = .between := by
  have hrun : ((Workspace.of? Horizon.raised.sizes .warm).toOption.bind fun w =>
      (Horizon.raised.solveIn .warm .between w).toOption.map fun res => res.report.iters) =
        some 0 := by decide +kernel
  obtain ⟨w, res, hnew, hres, hiters⟩ := exists_of_evaluated_bind hrun
  have hs := Horizon.solvable_of_solveIn hres
  have hw := Workspace.sized_of? hnew
  have hfits : (Trajectory.zeros Horizon.raised.sizes : Trajectory ℚ).fits w.sizes = true := by
    rw [hs.sizes_eq]
    exact Trajectory.fits_zeros _
  obtain ⟨⟨_, hback⟩, _, _, hsolve⟩ :=
    trajectory_survives_workspace hw (hs.sizes_eq ▸ hs.trajectory) hfits
  have hend := InPlace.solve_eq hw Horizon.raised .warm .between
  rw [hres] at hend
  exact ⟨w, hnew, hback, _, _, hend, hiters, hsolve _ _ _ _ rfl hend hiters⟩

end StagedQP
