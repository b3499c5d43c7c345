import StagedQP.Proofs.CheckedSolve

/-!
# Solves in place

A solve does not return a workspace and a trajectory: it overwrites the ones its caller lends it,
and what it has overwritten stays so however it ends. Here a solve is carried out in this way, write
by write, and with every size checked. There are three ways to end early:

```text
refused     the arguments are not accepted        the caller is told
fault       a size does not fit                   the program is stopped
breakdown   a control block cannot be factored    a status, if it is caught
```

A breakdown ends a step in the middle, with part of the sweep written; the run catches it, and goes
on to report the last point. So of the three only a refusal leaves a solve, and all refusals are
decided before the first write.

## Main results

* `InPlace.step_of_ok`, `InPlace.step_of_error` — a step made, and a step broken off.
* `InPlace.iterate_eq` — a run writes what the solver's own definition says.
* `InPlace.solve_eq` — a solve in place is `Horizon.solveIn`, and a refusal writes nothing.
* `solve_refuses_atomically` — what is refused, and what a refusal leaves.
-/

namespace StagedQP

variable {α β γ : Type}

/-- The buffers that a caller lends to a solve. -/
structure Lent (α : Type) where
  /-- The starting point of a warm start, and the place for the last point. -/
  trajectory : Trajectory α
  /-- The workspace. -/
  workspace : Workspace α

/-- Why a computation in lent buffers ends early. -/
inductive Stop (α : Type) where
  /-- The arguments of a solve are not accepted. -/
  | refused (cause : SetupError α)
  /-- A copy, a view or an index does not fit. -/
  | fault (cause : SizeFault)
  /-- A control block cannot be factored; `warnings` were given before it. -/
  | breakdown (warnings : List (Warning α)) (stage : Nat)

/-- Computations in lent buffers. What one has written when it ends early stays written. -/
abbrev InPlace (α β : Type) := EStateM (Stop α) (Lent α) β

/-- What a run keeps beside the workspace. -/
structure Tally (α : Type) where
  /-- Duality measure of the current point. -/
  mu : α
  /-- Number of accepted steps. -/
  iters : Nat
  /-- Warnings so far. -/
  warnings : List (Warning α)
  /-- Number of log lines so far. -/
  lines : Nat

section Tally

variable [Scalar α]

/-- One more log line, if the configuration asks for it. -/
def Tally.logged (c : Tally α) (config : SolverConfig α) : Tally α :=
  { c with lines := if config.verbose then c.lines + 1 else c.lines }

def Tally.warn (c : Tally α) (warnings : List (Warning α)) : Tally α :=
  { c with warnings := c.warnings ++ warnings }

/-- An accepted step counted. -/
def Tally.count (c : Tally α) (warnings : List (Warning α)) (stats : StepStats α) : Tally α :=
  { c with mu := stats.mu, iters := c.iters + 1, warnings := c.warnings ++ warnings }

/-- The state of a run without its workspace. -/
def RunState.tally (r : RunState α) : Tally α := ⟨r.mu, r.iters, r.warnings, r.lines⟩

end Tally

/-- What a solve returns beside its buffers. -/
structure Answer (α : Type) where
  /-- How it ended. -/
  status : Outcome
  /-- The report on the last point. -/
  report : SolveReport α
  /-- The warnings, in order. -/
  warnings : List (Warning α)
  /-- The number of log lines. -/
  lines : Nat

/-- The result of a solve without its buffers. -/
def SolveResult.answer (res : SolveResult α) : Answer α :=
  ⟨res.status, res.report, res.warnings, res.lines⟩

namespace InPlace

/-! ## Reading and writing -/

section Buffers

/-- A value computed from the workspace. -/
def read (f : Workspace α → Except SizeFault β) : InPlace α β := fun s =>
  match f s.workspace with
  | .error e => .error (.fault e) s
  | .ok b => .ok b s

/-- The workspace overwritten. -/
def write (f : Workspace α → Except SizeFault (Workspace α)) : InPlace α Unit := fun s =>
  match f s.workspace with
  | .error e => .error (.fault e) s
  | .ok w => .ok () { s with workspace := w }

/-- A breakdown as a value. Nothing else is caught, and nothing is undone. -/
def caught (x : InPlace α β) : InPlace α (Except (List (Warning α) × Nat) β) :=
  tryCatch (Except.ok <$> x) fun
    | .breakdown warnings k => return .error (warnings, k)
    | e => throw e

variable {x : InPlace α β} {s s' : Lent α}

theorem bind_of_ok {b : β} (h : x.run s = .ok b s') (f : β → InPlace α γ) :
    (x >>= f).run s = (f b).run s' := by
  show EStateM.bind x f s = _
  rw [EStateM.bind, show x s = .ok b s' from h]
  rfl

theorem bind_of_error {e : Stop α} (h : x.run s = .error e s') (f : β → InPlace α γ) :
    (x >>= f).run s = .error e s' := by
  show EStateM.bind x f s = _
  rw [EStateM.bind, show x s = .error e s' from h]

theorem read_of_ok {f : Workspace α → Except SizeFault β} {b : β} (h : f s.workspace = .ok b) :
    (read f).run s = .ok b s := by
  rw [EStateM.run, read, h]

theorem write_of_ok {f : Workspace α → Except SizeFault (Workspace α)} {w : Workspace α}
    (h : f s.workspace = .ok w) : (write f).run s = .ok () { s with workspace := w } := by
  rw [EStateM.run, write, h]

theorem read_run (f : Workspace α → β) :
    (read fun w => .ok (f w)).run s = .ok (f s.workspace) s := rfl

theorem write_run (f : Workspace α → Workspace α) :
    (write fun w => .ok (f w)).run s = .ok () { s with workspace := f s.workspace } := rfl

theorem caught_of_ok {b : β} (h : x.run s = .ok b s') : (caught x).run s = .ok (.ok b) s' := by
  show EStateM.tryCatch (EStateM.map Except.ok x) _ s = _
  rw [EStateM.tryCatch, EStateM.map, show x s = .ok b s' from h]

/-- What was written before a breakdown stays. -/
theorem caught_of_breakdown {warnings : List (Warning α)} {k : Nat}
    (h : x.run s = .error (.breakdown warnings k) s') :
    (caught x).run s = .ok (.error (warnings, k)) s' := by
  show EStateM.tryCatch (EStateM.map Except.ok x) _ s = _
  rw [EStateM.tryCatch, EStateM.map, show x s = .error (.breakdown warnings k) s' from h]
  rfl

end Buffers

variable [Scalar α] {sizes : List StageSizes} {w : Workspace α}

/-! ## Steps -/

/-- The sweep of a step, with its warnings. A breakdown leaves what the sweep got done. -/
def factorize : InPlace α (List (Warning α)) := do
  write fun w => do
    let stages ← w.stages.mapM Checked.condenseHessian
    return { w with stages := stages }
  let sweep ← read fun w => Checked.factorizeFrom 0 w.stages
  write fun w => .ok { w with stages := sweep.stages }
  match sweep.failed with
  | some k => throw (.breakdown sweep.warnings k)
  | none => return sweep.warnings

/-- Predictor, corrector and move on the factorization that is there. -/
def advance (mu sigmaMin : α) : InPlace α (StepStats α) := do
  write Checked.predictor
  let p ← read (Checked.predict mu sigmaMin)
  write (Checked.corrector (p.2.2 * mu))
  let alpha ← read Checked.stepLength
  write (Checked.moveAll alpha)
  let after ← read Checked.duality
  return ⟨p.2.2, p.1, p.2.1, alpha, after⟩

/-- One predictor-corrector step. -/
def step (mu sigmaMin : α) : InPlace α (List (Warning α) × StepStats α) := do
  let warnings ← factorize
  let stats ← advance mu sigmaMin
  return (warnings, stats)

theorem factorize_eq (h : SizedChain sizes w.stages) (t : Trajectory α) :
    (factorize : InPlace α _).run ⟨t, w⟩ = match w.sweep.failed with
      | some k => .error (.breakdown w.sweep.warnings k) ⟨t, { w with stages := w.sweep.stages }⟩
      | none => .ok w.sweep.warnings ⟨t, { w with stages := w.sweep.stages }⟩ := by
  have hcondense : (do
      let stages ← w.stages.mapM Checked.condenseHessian
      return { w with stages := stages } : Except SizeFault (Workspace α)) =
        .ok { w with stages := w.stages.map StageState.condenseHessian } := by
    rw [Checked.mapM_eq h fun _ _ _ hs => Checked.condenseHessian_eq hs]
    rfl
  have hsweep : Checked.factorizeFrom 0 (w.stages.map StageState.condenseHessian) = .ok w.sweep :=
    Checked.factorizeFrom_eq (h.map fun _ _ _ hs => hs.condenseHessian) 0
  rw [factorize, bind_of_ok (write_of_ok hcondense), bind_of_ok (read_of_ok hsweep),
    bind_of_ok (write_run _)]
  cases w.sweep.failed with
  | some k => rfl
  | none => rfl

theorem advance_eq (h : SizedChain sizes w.stages) (mu sigmaMin : α) (t : Trajectory α) :
    (advance mu sigmaMin).run ⟨t, { w with stages := w.sweep.stages }⟩ =
      .ok (w.record mu sigmaMin) ⟨t, w.moved mu sigmaMin⟩ := by
  have hcorrected := h.corrector (w.target mu sigmaMin)
  have hlength : Checked.stepLength (w.corrector (w.target mu sigmaMin)) =
      .ok (w.alpha mu sigmaMin) := Checked.stepLength_eq hcorrected
  have hmoved : Checked.moveAll (w.alpha mu sigmaMin) (w.corrector (w.target mu sigmaMin)) =
      .ok (w.moved mu sigmaMin) := Checked.moveAll_eq hcorrected _
  rw [advance, bind_of_ok (write_of_ok (Checked.predictor_eq h.sweep)),
    bind_of_ok (read_of_ok (Checked.predict_eq h.predictor mu sigmaMin)),
    bind_of_ok (write_of_ok (Checked.corrector_eq h.predictor _)),
    bind_of_ok (read_of_ok hlength), bind_of_ok (write_of_ok hmoved),
    bind_of_ok (read_of_ok (Checked.duality_eq (h.moved mu sigmaMin)))]
  rfl

/-- A step that breaks down has written what the solver's own definition has. -/
theorem step_of_error (h : SizedChain sizes w.stages) {mu sigmaMin : α} {k : Nat}
    (hfail : (w.step mu sigmaMin).outcome = .error k) (t : Trajectory α) :
    (step mu sigmaMin).run ⟨t, w⟩ =
      .error (.breakdown (w.step mu sigmaMin).warnings k) ⟨t, (w.step mu sigmaMin).workspace⟩ := by
  have hsweep := factorize_eq h t
  cases hf : w.sweep.failed with
  | none =>
      rw [Workspace.step_of_swept hf] at hfail
      cases hfail
  | some j =>
      rw [Workspace.step_of_failed hf] at hfail ⊢
      obtain rfl := Except.error.inj hfail
      rw [hf] at hsweep
      exact bind_of_error hsweep _

/-- So has a step that is made. -/
theorem step_of_ok (h : SizedChain sizes w.stages) {mu sigmaMin : α} {stats : StepStats α}
    (hok : (w.step mu sigmaMin).outcome = .ok stats) (t : Trajectory α) :
    (step mu sigmaMin).run ⟨t, w⟩ =
      .ok ((w.step mu sigmaMin).warnings, stats) ⟨t, (w.step mu sigmaMin).workspace⟩ := by
  obtain ⟨hf, hmoved, hwarnings, rfl⟩ := Workspace.of_step_ok hok
  have hsweep := factorize_eq h t
  rw [hf] at hsweep
  rw [hmoved, hwarnings, step, bind_of_ok hsweep, bind_of_ok (advance_eq h ..)]
  rfl

/-! ## Runs -/

/-- The head of the loop: residuals, and the verdict on the point. -/
def examine (config : SolverConfig α) (c : Tally α) :
    InPlace α (Tally α × Option (Outcome × List (Warning α))) := do
  write Checked.residuals
  let gap ← read fun w => .ok (w.gap c.mu)
  return (c.logged config, gap.verdict config c.iters)

/-- A step attempted. A breakdown and a step that is too short have a status. -/
def attempt (config : SolverConfig α) (c : Tally α) : InPlace α (Tally α × Option Outcome) := do
  match ← caught (step c.mu config.sigmaMin) with
  | .error (warnings, k) =>
    return (c.warn (warnings ++ [Warning.breakdown k c.iters]), some .belowMinStep)
  | .ok (warnings, stats) =>
    write fun w => .ok { w with stats := w.stats ++ [stats] }
    let c := (c.count warnings stats).logged config
    if Scalar.lt stats.alpha config.minStep then
      return (c.warn [.shortStep stats.alpha config.minStep c.iters], some .belowMinStep)
    else return (c, none)

/-- The steps of a solve, `remaining` of which the cap still allows. -/
def iterate (config : SolverConfig α) (remaining : Nat) (c : Tally α) :
    InPlace α (Tally α × Outcome) := do
  let (c, verdict) ← examine config c
  match verdict with
  | some (status, warnings) => return (c.warn warnings, status)
  | none =>
    match remaining with
    | 0 => return (c, .maxIterReached)
    | remaining + 1 =>
      let (c, ended) ← attempt config c
      match ended with
      | some status => return (c, status)
      | none => iterate config remaining c

section Run

variable {config : SolverConfig α} {r : RunState α} (h : SizedChain sizes r.workspace.stages)
  (t : Trajectory α)

include h

theorem examine_eq : (examine config r.tally).run ⟨t, r.workspace⟩ =
    .ok ((r.examine config).tally, r.verdict config) ⟨t, (r.examine config).workspace⟩ := by
  rw [examine, bind_of_ok (write_of_ok (Checked.residuals_eq h)), bind_of_ok (read_run _)]
  rfl

/-- A breakdown has a status, and part of the sweep in the workspace. -/
theorem attempt_of_error {k : Nat} (hfail : (r.attempt config).outcome = .error k) :
    (attempt config (r.examine config).tally).run ⟨t, (r.examine config).workspace⟩ =
      .ok ((r.examine config).tally.warn
        ((r.attempt config).warnings ++ [Warning.breakdown k r.iters]), some .belowMinStep)
        ⟨t, (r.attempt config).workspace⟩ := by
  have hstep : (step (r.examine config).tally.mu config.sigmaMin).run
      ⟨t, (r.examine config).workspace⟩ =
        .error (.breakdown (r.attempt config).warnings k) ⟨t, (r.attempt config).workspace⟩ :=
    step_of_error h.residuals hfail t
  rw [attempt, bind_of_ok (caught_of_breakdown hstep)]
  rfl

theorem attempt_of_ok {stats : StepStats α} (hok : (r.attempt config).outcome = .ok stats) :
    (attempt config (r.examine config).tally).run ⟨t, (r.examine config).workspace⟩ =
      .ok (if Scalar.lt stats.alpha config.minStep then
          (((r.examine config).accept config (r.attempt config) stats).tally.warn
            [.shortStep stats.alpha config.minStep (r.iters + 1)], some .belowMinStep)
        else (((r.examine config).accept config (r.attempt config) stats).tally, none))
        ⟨t, ((r.examine config).accept config (r.attempt config) stats).workspace⟩ := by
  have hstep : (step (r.examine config).tally.mu config.sigmaMin).run
      ⟨t, (r.examine config).workspace⟩ =
        .ok ((r.attempt config).warnings, stats) ⟨t, (r.attempt config).workspace⟩ :=
    step_of_ok h.residuals hok t
  rw [attempt, bind_of_ok (caught_of_ok hstep)]
  dsimp only
  rw [bind_of_ok (write_run _)]
  split
  · rfl
  · rfl

omit h in
/-- A run, however it ends: a breakdown is a status like the others. -/
theorem iterate_eq (config : SolverConfig α) : ∀ (remaining : Nat) (r : RunState α),
    SizedChain sizes r.workspace.stages →
      (iterate config remaining r.tally).run ⟨t, r.workspace⟩ =
        .ok ((r.run config remaining).1.tally, (r.run config remaining).2)
          ⟨t, (r.run config remaining).1.workspace⟩ := by
  refine RunState.run_induction (P := fun n r last => SizedChain sizes r.workspace.stages →
    (iterate config n r.tally).run ⟨t, r.workspace⟩ =
      .ok (last.1.tally, last.2) ⟨t, last.1.workspace⟩) ?stop ?cap ?breakdown ?short ?step
  case stop =>
    intro n r p hv h
    rw [iterate.eq_def, bind_of_ok (examine_eq h t), hv]
    rfl
  case cap =>
    intro r hv h
    rw [iterate.eq_def, bind_of_ok (examine_eq h t), hv]
    rfl
  case breakdown =>
    intro n r k hv hfail h
    rw [iterate.eq_def, bind_of_ok (examine_eq h t), hv]
    dsimp only
    rw [bind_of_ok (attempt_of_error h t hfail)]
    rfl
  case short =>
    intro n r stats hv hok hshort h
    have hattempt := attempt_of_ok h t hok
    rw [if_pos hshort] at hattempt
    rw [iterate.eq_def, bind_of_ok (examine_eq h t), hv]
    dsimp only
    rw [bind_of_ok hattempt]
    rfl
  case step =>
    intro n r stats last hv hok hlong ih h
    have hattempt := attempt_of_ok h t hok
    rw [if_neg hlong] at hattempt
    have hnext : SizedChain sizes (r.attempt config).workspace.stages := h.residuals.step _ _
    rw [iterate.eq_def, bind_of_ok (examine_eq h t), hv]
    dsimp only
    rw [bind_of_ok hattempt]
    exact ih hnext

end Run

/-! ## Solves -/

/-- The checks of a solve, which write nothing. -/
def checkArguments (h : Horizon α) (config : SolverConfig α) : InPlace α Unit := fun s =>
  match config.check with
  | .error e => .error (.refused e) s
  | .ok () =>
    if !s.workspace.fits h.sizes config.maxIter then .error (.refused (.mismatch 0 .workspace)) s
    else if !s.trajectory.fits h.sizes then .error (.refused (.mismatch 0 .trajectory)) s
    else .ok () s

/-- Data, starting point, slacks and multipliers. -/
def setUp (h : Horizon α) (config : SolverConfig α) : InPlace α (Tally α) := do
  let lent ← get
  write (Checked.placed h config lent.trajectory)
  write (Checked.startAll (startingBarrier h config))
  let mu ← read Checked.duality
  write fun w => .ok { w with stats := [] }
  return ⟨mu, 0, [], if config.verbose then 1 else 0⟩

/-- The stage vectors copied into the trajectory. -/
def writeBack : InPlace α Unit := fun s =>
  match Checked.writeStages s.workspace.stages s.trajectory.u s.trajectory.x with
  | .error e => .error (.fault e) s
  | .ok parts => .ok () { s with trajectory := { x := parts.2, u := parts.1 } }

/-- The last point written back, and its residuals evaluated once more. -/
def conclude (c : Tally α) (status : Outcome) : InPlace α (Answer α) := do
  writeBack
  write Checked.residuals
  let report ← read fun w => .ok ⟨c.iters, c.mu, w.residualNorms, w.bytes, w.stats⟩
  return ⟨status, report, c.warnings, c.lines⟩

/-- Solves a horizon in the buffers lent. -/
def solve (h : Horizon α) (config : SolverConfig α) : InPlace α (Answer α) := do
  checkArguments h config
  let start ← setUp h config
  let (last, status) ← iterate config config.maxIter start
  conclude last status

section Solve

variable {h : Horizon α} {config : SolverConfig α} {t : Trajectory α}

theorem setUp_eq (hs : h.Solvable config t w) (hw : SizedChain h.sizes w.stages) :
    (setUp h config).run ⟨t, w⟩ =
      .ok (RunState.initial h config t w).tally ⟨t, (RunState.initial h config t w).workspace⟩ := by
  have hplaced := hs.sized_placed hw
  have hlent : (get : InPlace α (Lent α)).run ⟨t, w⟩ = .ok ⟨t, w⟩ ⟨t, w⟩ := rfl
  rw [setUp, bind_of_ok hlent, bind_of_ok (write_of_ok (Checked.placed_eq hs hw)),
    bind_of_ok (write_of_ok (Checked.startAll_eq hplaced _)),
    bind_of_ok (read_of_ok (Checked.duality_eq (hplaced.start _))), bind_of_ok (write_run _)]
  rfl

theorem conclude_eq (ht : t.fits h.sizes = true) {r : RunState α}
    (hr : SizedChain h.sizes r.workspace.stages) (status : Outcome) :
    (conclude r.tally status).run ⟨t, r.workspace⟩ =
      .ok (r.conclude status).answer
        ⟨(r.conclude status).trajectory, (r.conclude status).workspace⟩ := by
  obtain ⟨hus, hxs⟩ := Trajectory.sizes_of_fits ht
  have hback : writeBack.run ⟨t, r.workspace⟩ =
      .ok () ⟨r.workspace.toTrajectory, r.workspace⟩ := by
    rw [EStateM.run, writeBack, Checked.writeStages_eq hr hus hxs]
    rfl
  -- residuals leave the stage vectors alone
  have hlast : (r.conclude status).trajectory = r.workspace.toTrajectory :=
    Workspace.toTrajectory_of_base (Workspace.residuals_base r.workspace)
  rw [conclude, bind_of_ok hback, bind_of_ok (write_of_ok (Checked.residuals_eq hr)),
    bind_of_ok (read_run _), hlast]
  rfl

/-- What a solve refuses is refused by the checks, with the same error. -/
theorem checkArguments_of_error {e : SetupError α} (hres : h.solveIn config t w = .error e) :
    (checkArguments h config).run ⟨t, w⟩ = .error (.refused e) ⟨t, w⟩ := by
  rw [Horizon.solveIn] at hres
  rw [EStateM.run, checkArguments]
  cases hvalid : config.check with
  | error e' =>
      rw [hvalid] at hres
      cases hres
      rfl
  | ok u =>
      rw [hvalid] at hres
      cases hfits : w.fits h.sizes config.maxIter with
      | false =>
          rw [hfits] at hres
          cases hres
          rfl
      | true =>
          cases hshape : t.fits h.sizes with
          | false =>
              rw [hfits, hshape] at hres
              cases hres
              rfl
          | true =>
              rw [hfits, hshape] at hres
              cases hres

theorem checkArguments_of_solvable (hs : h.Solvable config t w) :
    (checkArguments h config).run ⟨t, w⟩ = .ok () ⟨t, w⟩ := by
  rw [EStateM.run, checkArguments, hs.valid]
  simp only [hs.workspace, hs.trajectory]
  rfl

/-- A solve in place is the solve of the same arguments: refused with the same error and nothing
written, or ended with the same answer, and with its trajectory and workspace in the buffers. -/
theorem solve_eq (hw : w.Sized) (h : Horizon α) (config : SolverConfig α) (t : Trajectory α) :
    (solve h config).run ⟨t, w⟩ = match h.solveIn config t w with
      | .error e => .error (.refused e) ⟨t, w⟩
      | .ok res => .ok res.answer ⟨res.trajectory, res.workspace⟩ := by
  cases hres : h.solveIn config t w with
  | error e => rw [solve, bind_of_error (checkArguments_of_error hres)]
  | ok res =>
      have hs := Horizon.solvable_of_solveIn hres
      have hstart : SizedChain h.sizes w.stages := hs.sizes_eq ▸ hw
      have hinitial := hs.sized_initial hstart
      obtain rfl := Except.ok.inj (hres.symm.trans hs.solveIn_eq)
      rw [solve, bind_of_ok (checkArguments_of_solvable hs), bind_of_ok (setUp_eq hs hstart),
        bind_of_ok (iterate_eq t config _ _ hinitial)]
      exact conclude_eq hs.trajectory (hinitial.run config config.maxIter) _

end Solve

end InPlace

/-! ## Refusals -/

/-- How many vectors of states and of controls there are, and how long each of them is. -/
def Trajectory.lengths (t : Trajectory α) : List Nat × List Nat :=
  (t.x.map Vec.size, t.u.map Vec.size)

section Refusals

variable [Scalar α] {w : Workspace α} {h : Horizon α} {config : SolverConfig α} {t : Trajectory α}

/-- The trajectories of given stage sizes have the lengths of the trajectory of zeros. -/
theorem Trajectory.fits_iff_lengths (sizes : List StageSizes) :
    t.fits sizes = true ↔ t.lengths = (Trajectory.zeros sizes : Trajectory α).lengths := by
  rw [fits, Bool.and_eq_true, beq_iff_eq, beq_iff_eq, lengths, lengths, Prod.mk.injEq, zeros,
    List.map_map, List.map_map]
  simp only [Function.comp_def, Vec.size_zeros]

theorem Horizon.solvable_iff : h.Solvable config t w ↔ config.check = .ok () ∧
    (w.sizes = h.sizes ∧ config.maxIter ≤ w.maxIter) ∧
      t.lengths = (Trajectory.zeros h.sizes : Trajectory α).lengths := by
  rw [← Trajectory.fits_iff_lengths]
  constructor
  · intro hs
    have hfits := hs.workspace
    rw [Workspace.fits, Bool.and_eq_true, decide_eq_true_iff] at hfits
    exact ⟨hs.valid, ⟨hs.sizes_eq, hfits.2⟩, hs.trajectory⟩
  · rintro ⟨hvalid, ⟨hsizes, hcap⟩, hshape⟩
    refine ⟨hvalid, ?_, hshape⟩
    rw [Workspace.fits, Bool.and_eq_true, decide_eq_true_iff]
    exact ⟨beq_iff_eq.2 hsizes, hcap⟩

theorem Horizon.exists_refusal_iff :
    (∃ e, h.solveIn config t w = .error e) ↔ ¬ h.Solvable config t w := by
  constructor
  · rintro ⟨e, he⟩ hs
    rw [hs.solveIn_eq] at he
    cases he
  · intro hs
    cases hres : h.solveIn config t w with
    | error e => exact ⟨e, rfl⟩
    | ok res => exact absurd (solvable_of_solveIn hres) hs

/-- **A refusal is atomic, and has one of three reasons.** In a workspace with any history, a solve
ends with an error exactly if the configuration is out of range, the workspace is of other sizes or
has a smaller cap, or the trajectory has not the vectors of the trajectory of zeros. The error then
is that of the refused solve, and trajectory and workspace are what they were. In all other cases
the solve ends with a status, whatever the data and whatever the arithmetic makes of them. -/
theorem solve_refuses_atomically (hw : w.Reached) (h : Horizon α) (config : SolverConfig α)
    (t : Trajectory α) :
    ((∃ e s, (InPlace.solve h config).run ⟨t, w⟩ = .error e s) ↔
      config.check ≠ .ok () ∨ (w.sizes ≠ h.sizes ∨ w.maxIter < config.maxIter) ∨
        t.lengths ≠ (Trajectory.zeros h.sizes : Trajectory α).lengths) ∧
    (∀ e s, (InPlace.solve h config).run ⟨t, w⟩ = .error e s →
      s = ⟨t, w⟩ ∧ ∃ cause, e = .refused cause ∧ h.solveIn config t w = .error cause) ∧
    ∀ out s, (InPlace.solve h config).run ⟨t, w⟩ = .ok out s →
      ∃ res, h.solveIn config t w = .ok res ∧ out = res.answer ∧
        s = ⟨res.trajectory, res.workspace⟩ := by
  have hsolve := InPlace.solve_eq hw.sized h config t
  have hreasons : (∃ e, h.solveIn config t w = .error e) ↔
      config.check ≠ .ok () ∨ (w.sizes ≠ h.sizes ∨ w.maxIter < config.maxIter) ∨
        t.lengths ≠ (Trajectory.zeros h.sizes : Trajectory α).lengths := by
    rw [Horizon.exists_refusal_iff, Horizon.solvable_iff, not_and_or, not_and_or, not_and_or,
      not_le]
  rw [← hreasons, hsolve]
  cases hres : h.solveIn config t w with
  | error e =>
      refine ⟨⟨fun _ => ⟨e, rfl⟩, fun _ => ⟨_, _, rfl⟩⟩, fun e' s he => ?_, fun out s hout => ?_⟩
      · cases he
        exact ⟨rfl, e, rfl, rfl⟩
      · cases hout
  | ok res =>
      refine ⟨⟨fun ⟨_, _, he⟩ => ?_, fun ⟨_, he⟩ => ?_⟩, fun e' s he => ?_, fun out s hout => ?_⟩
      · cases he
      · cases he
      · cases he
      · cases hout
        exact ⟨res, rfl, rfl, rfl⟩

/-- For instance on the raised step: a trajectory without vectors is refused, and left as it is with
the workspace; with the trajectory of zeros the same workspace then serves. -/
theorem solve_refuses_atomically_raised : ∃ w : Workspace ℚ,
    (∃ e, (InPlace.solve Horizon.raised .coarse).run ⟨⟨[], []⟩, w⟩ = .error e ⟨⟨[], []⟩, w⟩) ∧
    ∃ out s, (InPlace.solve Horizon.raised .coarse).run
      ⟨Trajectory.zeros Horizon.raised.sizes, w⟩ = .ok out s ∧ out.status = .success := by
  obtain ⟨w, res, hnew, hres, hsuccess, _⟩ := Horizon.exists_solved_raised
  refine ⟨w, ?_, ?_⟩
  · obtain ⟨hreasons, hatomic, _⟩ :=
      solve_refuses_atomically (.new hnew) Horizon.raised .coarse ⟨[], []⟩
    obtain ⟨e, s, he⟩ := hreasons.2 (.inr (.inr (by decide +kernel)))
    obtain ⟨rfl, _⟩ := hatomic e s he
    exact ⟨e, he⟩
  · obtain ⟨_, hatomic, hends⟩ := solve_refuses_atomically (.new hnew) Horizon.raised .coarse
      (Trajectory.zeros Horizon.raised.sizes)
    cases hrun : (InPlace.solve Horizon.raised .coarse).run
        ⟨Trajectory.zeros Horizon.raised.sizes, w⟩ with
    | error e s =>
        obtain ⟨_, cause, _, hcause⟩ := hatomic e s hrun
        cases hres.symm.trans hcause
    | ok out s =>
        obtain ⟨res', hres', rfl, _⟩ := hends out s hrun
        obtain rfl := Except.ok.inj (hres.symm.trans hres')
        exact ⟨_, s, rfl, hsuccess⟩

end Refusals

end StagedQP
