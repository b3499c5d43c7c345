import StagedQP.Proofs.CheckedSweep
import StagedQP.Proofs.LastIterate

/-!
# Solves in buffers

Whole chains, steps and solves with every size checked. A solve takes the data of a horizon into the
buffers, reads the caller's trajectory if the start is warm, makes its steps, and copies the last
point into the caller's trajectory. A chain without stages, which has no last stage, is refused.

The sizes are checked once, when a horizon is accepted and when a workspace and a trajectory are
compared with it. After that no check of this module ever fails: on a workspace in any state that
its callers can bring it into, every operation returns what the solver's own definition says.

## Main results

* `Checked.residuals_eq`, `Checked.step_eq`, `Checked.run_eq`, `Checked.solveIn_eq` — operations on
  buffers that have their sizes.
* `Checked.perform_eq`, `Checked.foldlM_perform` — one call of a caller, and all of them.
* `calls_keep_sizes` — any sequence of calls on a new workspace.
-/

namespace StagedQP

namespace Checked

variable {α : Type} [Scalar α] {sizes : List StageSizes} {l : List (StageState α)}
  {w : Workspace α}

/-! ## Points and residuals -/

/-- Slacks and multipliers put around the stage vectors. -/
def startAll (mu0 : α) (w : Workspace α) : Except SizeFault (Workspace α) := do
  let stages ← w.stages.mapM (start mu0)
  return { w with stages := stages }

/-- The multipliers of the stage before, if there is one, taken off. -/
def coupleFrom (before : Option (StageState α)) (s : StageState α) :
    Except SizeFault (StageState α) :=
  match before with
  | none => .ok s
  | some b => coupleBefore b.point.pi s

/-- Own residuals coupled along the chain; `before` is the stage before the first one listed. -/
def couple (before : Option (StageState α)) :
    List (StageState α) → Except SizeFault (List (StageState α))
  | [] => .error .outside
  | s :: rest => do
    let coupled ← coupleFrom before s
    match rest with
    | [] => return [coupled]
    | next :: _ =>
      let coupled ← coupleAfter next coupled
      let after ← couple (some s) rest
      return coupled :: after

/-- The residuals of the current point. -/
def residuals (w : Workspace α) : Except SizeFault (Workspace α) := do
  let stages ← w.stages.mapM ownResiduals
  let stages ← couple none stages
  return { w with stages := stages }

/-- The mean product of a slack and its multiplier. -/
def duality (w : Workspace α) : Except SizeFault α :=
  if w.pairs = 0 then .ok 0
  else do
    let sum ← w.stages.foldlM (fun acc s => do return acc + (← products s)) 0
    return sum / Scalar.ofNat w.pairs

omit [Scalar α] in
/-- A value gathered over all stages. -/
theorem foldlM_eq (h : SizedChain sizes l) {β : Type}
    {f : β → StageState α → Except SizeFault β} {g : β → StageState α → β}
    (hfg : ∀ d n s, s.Sized d n → ∀ b, f b s = .ok (g b s)) (b : β) :
    l.foldlM f b = .ok (l.foldl g b) := by
  induction h generalizing b with
  | last hs =>
      rw [List.foldlM_cons, hfg _ _ _ hs]
      rfl
  | cons hs _ ih =>
      rw [List.foldlM_cons, hfg _ _ _ hs, ok_bind, ih]
      rfl

theorem startAll_eq (h : SizedChain sizes w.stages) (mu0 : α) :
    startAll mu0 w = .ok (w.start mu0) := by
  rw [startAll, mapM_eq h fun _ _ _ hs => start_eq hs mu0]
  rfl

/-- The stage before, if there is one, has as many multipliers as a stage has states. -/
theorem coupleFrom_eq {d : StageSizes} {n : Nat} {s : StageState α} (h : s.Sized d n)
    {before : Option (StageState α)} (hbefore : ∀ b, before = some b → b.point.pi.size = d.nx) :
    ∃ s', coupleFrom before s = .ok s' ∧ s'.Sized d n ∧
      ∀ rest, Workspace.couple before (s :: rest) = (match rest with
        | [] => s'
        | next :: _ => s'.coupleAfter next.states) :: Workspace.couple (some s) rest := by
  cases before with
  | none => exact ⟨s, rfl, h, fun _ => rfl⟩
  | some b =>
      exact ⟨_, coupleBefore_eq h (hbefore b rfl), h.coupleBefore b.point.pi, fun _ => rfl⟩

/-- Neighbours have buffers of the sizes that meet. -/
theorem couple_eq (h : SizedChain sizes l) (before : Option (StageState α))
    (hbefore : ∀ b d, before = some b → sizes.head? = some d → b.point.pi.size = d.nx) :
    couple before l = .ok (Workspace.couple before l) := by
  induction h generalizing before with
  | @last d s hs =>
      obtain ⟨s', hfrom, _, heq⟩ := coupleFrom_eq hs fun b hb => hbefore b d hb rfl
      rw [couple, hfrom, heq]
      rfl
  | @cons d e ds s next rest hs h ih =>
      obtain ⟨s', hfrom, hs', heq⟩ := coupleFrom_eq hs fun b hb => hbefore b d hb rfl
      obtain ⟨_, hnext⟩ := h.head
      have hafter := ih (some s) fun b d' hb hd' => by
        obtain rfl := Option.some.inj hb
        obtain rfl := Option.some.inj hd'
        exact hs.point.pi
      rw [couple, hfrom, heq]
      simp only [ok_bind, coupleAfter_eq hs' hnext rfl, hafter]
      rfl

theorem residuals_eq (h : SizedChain sizes w.stages) : residuals w = .ok w.residuals := by
  rw [residuals, mapM_eq h fun _ _ _ hs => ownResiduals_eq hs, ok_bind,
    couple_eq (h.map fun _ _ _ hs => hs.ownResiduals) none fun _ _ hb => nomatch hb]
  rfl

theorem duality_eq (h : SizedChain sizes w.stages) : duality w = .ok w.duality := by
  rw [duality, Workspace.duality]
  split
  · rfl
  · rw [foldlM_eq h (g := fun acc s => acc + s.products) fun _ _ s hs acc => by
      rw [products_eq hs]; rfl]
    rfl

/-! ## Steps -/

/-- The largest step length, at most `cap`, that keeps slacks and multipliers nonnegative. -/
def maxStep (cap : Option α) (w : Workspace α) : Except SizeFault (Option α) :=
  w.stages.foldlM stepLimit cap

/-- The duality measure after a step of length `a`. -/
def trialDuality (a : α) (w : Workspace α) : Except SizeFault α := do
  let sum ← w.stages.foldlM (fun acc s => do return acc + (← trialProducts a s)) 0
  return sum / Scalar.ofNat w.pairs

/-- The predictor step length, the duality measure it leads to, and the centering. -/
def predict (mu sigmaMin : α) (w : Workspace α) : Except SizeFault (α × α × α) := do
  let limit ← maxStep (some 1) w
  let alphaAff := limit.getD 1
  if w.pairs ≠ 0 && Scalar.lt 0 mu then
    let muAff ← trialDuality alphaAff w
    return (alphaAff, muAff, Workspace.centering muAff mu sigmaMin)
  else return (alphaAff, 0, 0)

/-- The length of the step along the corrector. -/
def stepLength (w : Workspace α) : Except SizeFault α := do
  match ← maxStep none w with
  | none => return 1
  | some a => return Scalar.min (Workspace.boundaryFraction * a) 1

/-- The direction towards zero products. -/
def predictor (w : Workspace α) : Except SizeFault (Workspace α) := do
  let aimed ← w.stages.mapM aimAtZero
  let stages ← newtonDirection aimed
  return { w with stages := stages }

/-- The direction towards products `target`, once the predictor is there. -/
def corrector (target : α) (w : Workspace α) : Except SizeFault (Workspace α) := do
  let aimed ← w.stages.mapM (aimAtTarget target)
  let stages ← newtonDirection aimed
  return { w with stages := stages }

/-- The points reached by a step of length `a`. -/
def moveAll (a : α) (w : Workspace α) : Except SizeFault (Workspace α) := do
  let stages ← w.stages.mapM (move a)
  return { w with stages := stages }

/-- One predictor-corrector step. -/
def step (mu sigmaMin : α) (w : Workspace α) : Except SizeFault (StepResult α) := do
  let condensed ← w.stages.mapM condenseHessian
  let sweep ← factorizeFrom 0 condensed
  match sweep.failed with
  | some k => return ⟨{ w with stages := sweep.stages }, sweep.warnings, .error k⟩
  | none =>
    let predicted ← predictor { w with stages := sweep.stages }
    let p ← predict mu sigmaMin predicted
    let corrected ← corrector (p.2.2 * mu) predicted
    let alpha ← stepLength corrected
    let moved ← moveAll alpha corrected
    let after ← duality moved
    return ⟨moved, sweep.warnings, .ok ⟨p.2.2, p.1, p.2.1, alpha, after⟩⟩

theorem maxStep_eq (h : SizedChain sizes w.stages) (cap : Option α) :
    maxStep cap w = .ok (w.maxStep cap) :=
  foldlM_eq h (fun _ _ _ hs limit => stepLimit_eq hs limit) cap

theorem trialDuality_eq (h : SizedChain sizes w.stages) (a : α) :
    trialDuality a w = .ok (w.trialDuality a) := by
  rw [trialDuality, foldlM_eq h (g := fun acc s => acc + s.trialProducts a) fun _ _ s hs acc => by
    rw [trialProducts_eq hs]; rfl]
  rfl

theorem predict_eq (h : SizedChain sizes w.stages) (mu sigmaMin : α) :
    predict mu sigmaMin w = .ok (w.predict mu sigmaMin) := by
  rw [predict, maxStep_eq h, ok_bind, Workspace.predict]
  split
  · simp only [trialDuality_eq h]
    rfl
  · rfl

theorem stepLength_eq (h : SizedChain sizes w.stages) : stepLength w = .ok w.stepLength := by
  rw [stepLength, maxStep_eq h, ok_bind, Workspace.stepLength]
  cases w.maxStep none with
  | none => rfl
  | some a => rfl

theorem predictor_eq (h : SizedChain sizes w.sweep.stages) :
    predictor { w with stages := w.sweep.stages } = .ok w.predictor := by
  rw [predictor, mapM_eq h fun _ _ _ hs => aimAtZero_eq hs, ok_bind,
    newtonDirection_eq (h.map fun _ _ _ hs => hs.aimAtZero)]
  rfl

theorem corrector_eq (h : SizedChain sizes w.predictor.stages) (target : α) :
    corrector target w.predictor = .ok (w.corrector target) := by
  rw [corrector, mapM_eq h fun _ _ _ hs => aimAtTarget_eq hs target, ok_bind,
    newtonDirection_eq (h.map fun _ _ _ hs => hs.aimAtTarget target)]
  rfl

theorem moveAll_eq (h : SizedChain sizes w.stages) (a : α) :
    moveAll a w = .ok { w with stages := w.stages.map (StageState.move a) } := by
  rw [moveAll, mapM_eq h fun _ _ _ hs => move_eq hs a]
  rfl

/-- A step, made or broken off. -/
theorem step_eq (h : SizedChain sizes w.stages) (mu sigmaMin : α) :
    step mu sigmaMin w = .ok (w.step mu sigmaMin) := by
  have hcorrected := h.corrector (w.target mu sigmaMin)
  have hlength : stepLength (w.corrector (w.target mu sigmaMin)) = .ok (w.alpha mu sigmaMin) :=
    stepLength_eq hcorrected
  have hmoved : moveAll (w.alpha mu sigmaMin) (w.corrector (w.target mu sigmaMin)) =
      .ok (w.moved mu sigmaMin) := moveAll_eq hcorrected _
  rw [step, mapM_eq h fun _ _ _ hs => condenseHessian_eq hs, ok_bind,
    factorizeFrom_eq (h.map fun _ _ _ hs => hs.condenseHessian), ok_bind,
    show StagedQP.Riccati.factorizeFrom 0 (w.stages.map StageState.condenseHessian) = w.sweep from
      rfl]
  cases hf : w.sweep.failed with
  | some k =>
      rw [Workspace.step_of_failed hf]
      rfl
  | none =>
      rw [Workspace.step_of_swept hf]
      simp only
      rw [predictor_eq h.sweep, ok_bind, predict_eq h.predictor, ok_bind,
        show (w.predictor.predict mu sigmaMin).2.2 * mu = w.target mu sigmaMin from rfl,
        corrector_eq h.predictor, ok_bind, hlength, ok_bind, hmoved, ok_bind,
        duality_eq (h.moved mu sigmaMin)]
      rfl

/-! ## Data and trajectories -/

/-- The data of the stages listed taken in, as far as there are stages. -/
def loadStages :
    List (StageState α) → List (Stage α) → Except SizeFault (List (StageState α))
  | s :: ss, d :: ds => do
    let s ← load d s
    let ss ← loadStages ss ds
    return s :: ss
  | ss, _ => .ok ss

/-- The stage vectors read from a trajectory. The last stage has no controls there. -/
def readStages :
    List (StageState α) → List (Vec α) → List (Vec α) → Except SizeFault (List (StageState α))
  | [last], _, x :: _ => do
    let v ← writeRows last.point.v last.nu last.nx x
    return [{ last with point.v := v }]
  | s :: next :: rest, u :: us, x :: xs => do
    let v ← loadParts s.point.v s.nu s.nx u x
    let after ← readStages (next :: rest) us xs
    return { s with point.v := v } :: after
  | _, _, _ => .error .outside

/-- The stage vectors copied into a trajectory: its controls and its states. -/
def writeStages : List (StageState α) → List (Vec α) → List (Vec α) →
    Except SizeFault (List (Vec α) × List (Vec α))
  | [last], us, x :: xs => do
    let states ← rows last.point.v last.nu last.nx
    let x ← copy x states
    return (us, x :: xs)
  | s :: next :: rest, u :: us, x :: xs => do
    let controls ← rows s.point.v 0 s.nu
    let u ← copy u controls
    let states ← rows s.point.v s.nu s.nx
    let x ← copy x states
    let after ← writeStages (next :: rest) us xs
    return (u :: after.1, x :: after.2)
  | _, _, _ => .error .outside

theorem loadStages_eq {ds : List (Stage α)} (hds : LinkedStages ds)
    (h : SizedChain (ds.map Stage.sizes) l) :
    loadStages l ds = .ok (Workspace.loadStages l ds) := by
  induction hds generalizing l with
  | last hd hidx hn =>
      cases h with
      | last hs =>
          rw [loadStages, load_eq (hn ▸ hs) hd hidx]
          rfl
  | cons hd hidx hn _ ih =>
      cases h with
      | cons hs h =>
          rw [loadStages, load_eq (hn ▸ hs) hd hidx, ok_bind, ih h]
          rfl

theorem readStages_eq (h : SizedChain sizes l) {us xs : List (Vec α)}
    (hus : us.map Vec.size = sizes.dropLast.map StageSizes.nu)
    (hxs : xs.map Vec.size = sizes.map StageSizes.nx) :
    readStages l us xs = .ok (Workspace.readStages l us xs) := by
  induction h generalizing us xs with
  | @last d s hs =>
      obtain rfl := List.map_eq_nil_iff.1 hus
      obtain ⟨x, xs, rfl, hx, _⟩ := List.map_eq_cons_iff.1 hxs
      have hv : s.point.v.size = s.nu + s.nx := by rw [hs.point.v, hs.nu, hs.nx]
      rw [readStages, writeRows_tail hv (hx.trans hs.nx.symm)]
      rfl
  | @cons d e ds s next rest hs _ ih =>
      obtain ⟨u, us, rfl, hu, hus'⟩ := List.map_eq_cons_iff.1 hus
      obtain ⟨x, xs, rfl, hx, hxs'⟩ := List.map_eq_cons_iff.1 hxs
      have hv : s.point.v.size = s.nu + s.nx := by rw [hs.point.v, hs.nu, hs.nx]
      rw [readStages, loadParts_eq hv (hu.trans hs.nu.symm) (hx.trans hs.nx.symm), ok_bind,
        ih hus' hxs']
      rfl

theorem writeStages_eq (h : SizedChain sizes l) {us xs : List (Vec α)}
    (hus : us.map Vec.size = sizes.dropLast.map StageSizes.nu)
    (hxs : xs.map Vec.size = sizes.map StageSizes.nx) :
    writeStages l us xs = .ok (l.dropLast.map StageState.controls, l.map StageState.states) := by
  induction h generalizing us xs with
  | @last d s hs =>
      obtain rfl := List.map_eq_nil_iff.1 hus
      obtain ⟨x, xs, rfl, hx, hxs'⟩ := List.map_eq_cons_iff.1 hxs
      obtain rfl := List.map_eq_nil_iff.1 hxs'
      have hv : s.point.v.size = s.nu + s.nx := by rw [hs.point.v, hs.nu, hs.nx]
      rw [writeStages, rows_eq (Nat.le_of_eq hv.symm), ok_bind,
        copy_eq (hx.trans (hs.nx.symm.trans (Vec.size_slice ..).symm))]
      rfl
  | @cons d e ds s next rest hs _ ih =>
      obtain ⟨u, us, rfl, hu, hus'⟩ := List.map_eq_cons_iff.1 hus
      obtain ⟨x, xs, rfl, hx, hxs'⟩ := List.map_eq_cons_iff.1 hxs
      have hv : s.point.v.size = s.nu + s.nx := by rw [hs.point.v, hs.nu, hs.nx]
      rw [writeStages, rows_eq (by omega), ok_bind,
        copy_eq (hu.trans (hs.nu.symm.trans (Vec.size_slice ..).symm)), ok_bind,
        rows_eq (Nat.le_of_eq hv.symm), ok_bind,
        copy_eq (hx.trans (hs.nx.symm.trans (Vec.size_slice ..).symm)), ok_bind, ih hus' hxs']
      rfl

/-! ## Runs -/

/-- The steps of a solve, `remaining` of which the cap still allows. -/
def run (config : SolverConfig α) (remaining : Nat) (r : RunState α) :
    Except SizeFault (RunState α × Outcome) := do
  let evaluated ← residuals r.workspace
  let r : RunState α := { r with workspace := evaluated, lines := r.logged config 1 }
  match (r.workspace.gap r.mu).verdict config r.iters with
  | some (status, warnings) => return (r.warn warnings, status)
  | none =>
    match remaining with
    | 0 => return (r, .maxIterReached)
    | remaining + 1 =>
      let s ← step r.mu config.sigmaMin r.workspace
      match s.outcome with
      | .error k =>
        return ({ r with workspace := s.workspace }.warn
          (s.warnings ++ [Warning.breakdown k r.iters]), .belowMinStep)
      | .ok stats =>
        let next := r.accept config s stats
        if Scalar.lt stats.alpha config.minStep then
          return (next.warn [.shortStep stats.alpha config.minStep next.iters], .belowMinStep)
        else run config remaining next

/-- The data of a horizon taken in, and the stage vectors put where the solve starts. -/
def placed (h : Horizon α) (config : SolverConfig α) (t : Trajectory α) (w : Workspace α) :
    Except SizeFault (Workspace α) := do
  let loaded ← loadStages w.stages h.stages
  if config.warmStart then
    let stages ← readStages loaded t.u t.x
    return { w with stages := stages }
  else return { w with stages := loaded }.clearPoint

/-- The state from which a solve starts. -/
def initial (h : Horizon α) (config : SolverConfig α) (t : Trajectory α) (w : Workspace α) :
    Except SizeFault (RunState α) := do
  let placed ← placed h config t w
  let started ← startAll (startingBarrier h config) placed
  let mu ← duality started
  return {
    workspace := { started with stats := [] }
    mu := mu
    iters := 0
    warnings := []
    lines := if config.verbose then 1 else 0 }

/-- The result of a run that ended with `status`; `t` is the caller's trajectory. -/
def conclude (t : Trajectory α) (r : RunState α) (status : Outcome) :
    Except SizeFault (SolveResult α) := do
  let last ← residuals r.workspace
  -- residuals leave the stage vectors alone, so these may be copied before or after
  let parts ← writeStages last.stages t.u t.x
  return {
    status := status
    trajectory := { x := parts.2, u := parts.1 }
    workspace := last
    report :=
      { iters := r.iters
        mu := r.mu
        norms := last.residualNorms
        bytes := last.bytes
        stats := last.stats }
    warnings := r.warnings
    lines := r.lines }

/-- Solves a horizon in the caller's workspace and trajectory, unless it refuses them. -/
def solveIn (h : Horizon α) (config : SolverConfig α) (t : Trajectory α) (w : Workspace α) :
    Except SizeFault (Except (SetupError α) (SolveResult α)) :=
  match config.check with
  | .error e => .ok (.error e)
  | .ok () =>
    if !w.fits h.sizes config.maxIter then .ok (.error (.mismatch 0 .workspace))
    else if !t.fits h.sizes then .ok (.error (.mismatch 0 .trajectory))
    else do
      let r ← initial h config t w
      let last ← run config config.maxIter r
      let res ← conclude t last.1 last.2
      return .ok res

/-- A run on buffers of the right sizes, however it ends. -/
theorem run_eq (config : SolverConfig α) : ∀ (remaining : Nat) (r : RunState α),
    SizedChain sizes r.workspace.stages →
      run config remaining r = .ok (r.run config remaining) := by
  have hattempt : ∀ {r : RunState α}, SizedChain sizes r.workspace.stages →
      step r.mu config.sigmaMin r.workspace.residuals = .ok (r.attempt config) :=
    fun h => step_eq h.residuals _ _
  refine RunState.run_induction (P := fun n r last => SizedChain sizes r.workspace.stages →
    run config n r = .ok last) ?stop ?cap ?breakdown ?short ?step
  case stop =>
    intro n r p hv h
    have hv' : (r.workspace.residuals.gap r.mu).verdict config r.iters = some p := hv
    rw [run.eq_def, residuals_eq h]
    simp only [ok_bind, hv']
    rfl
  case cap =>
    intro r hv h
    have hv' : (r.workspace.residuals.gap r.mu).verdict config r.iters = none := hv
    rw [run.eq_def, residuals_eq h]
    simp only [ok_bind, hv']
    rfl
  case breakdown =>
    intro n r k hv hfail h
    have hv' : (r.workspace.residuals.gap r.mu).verdict config r.iters = none := hv
    rw [run.eq_def, residuals_eq h]
    simp only [ok_bind, hv', hattempt h, hfail]
    rfl
  case short =>
    intro n r stats hv hok hshort h
    have hv' : (r.workspace.residuals.gap r.mu).verdict config r.iters = none := hv
    rw [run.eq_def, residuals_eq h]
    simp only [ok_bind, hv', hattempt h, hok, hshort, if_true]
    rfl
  case step =>
    intro n r stats last hv hok hlong ih h
    have hv' : (r.workspace.residuals.gap r.mu).verdict config r.iters = none := hv
    have hnext : SizedChain sizes (r.attempt config).workspace.stages := h.residuals.step _ _
    rw [run.eq_def, residuals_eq h]
    simp only [ok_bind, hv', hattempt h, hok, hlong]
    exact ih hnext

section Solve

variable {h : Horizon α} {config : SolverConfig α} {t : Trajectory α}

theorem placed_eq (hs : h.Solvable config t w) (hw : SizedChain h.sizes w.stages) :
    placed h config t w = .ok (h.placed config t w) := by
  obtain ⟨hus, hxs⟩ := Trajectory.sizes_of_fits hs.trajectory
  rw [placed, loadStages_eq h.linkedStages hw, ok_bind, Horizon.placed]
  split
  · rw [readStages_eq (SizedChain.loadStages h.linkedStages hw) hus hxs]
    rfl
  · rfl

theorem initial_eq (hs : h.Solvable config t w) (hw : SizedChain h.sizes w.stages) :
    initial h config t w = .ok (RunState.initial h config t w) := by
  have hplaced := hs.sized_placed hw
  rw [initial, placed_eq hs hw, ok_bind, startAll_eq hplaced, ok_bind,
    duality_eq (hplaced.start _)]
  rfl

/-- The caller's trajectory has room for the last point. -/
theorem conclude_eq (ht : t.fits h.sizes = true) {r : RunState α}
    (hr : SizedChain h.sizes r.workspace.stages) (status : Outcome) :
    conclude t r status = .ok (r.conclude status) := by
  obtain ⟨hus, hxs⟩ := Trajectory.sizes_of_fits ht
  rw [conclude, residuals_eq hr, ok_bind, writeStages_eq hr.residuals hus hxs]
  rfl

/-- A solve, whether its arguments are refused or not. -/
theorem solveIn_eq (hw : w.Sized) (h : Horizon α) (config : SolverConfig α) (t : Trajectory α) :
    solveIn h config t w = .ok (h.solveIn config t w) := by
  cases hvalid : config.check with
  | error e =>
      rw [solveIn, Horizon.solveIn, hvalid]
      rfl
  | ok u =>
      cases hfits : w.fits h.sizes config.maxIter with
      | false =>
          rw [solveIn, Horizon.solveIn, hvalid, hfits]
          rfl
      | true =>
          cases hshape : t.fits h.sizes with
          | false =>
              rw [solveIn, Horizon.solveIn, hvalid, hfits, hshape]
              rfl
          | true =>
              have hs : h.Solvable config t w := ⟨hvalid, hfits, hshape⟩
              have hstart : SizedChain h.sizes w.stages := hs.sizes_eq ▸ hw
              have hinitial := hs.sized_initial hstart
              have hlast := hinitial.run config config.maxIter
              rw [hs.solveIn_eq, solveIn, hvalid, hfits, hshape]
              show (do
                let r ← initial h config t w
                let last ← run config config.maxIter r
                let res ← conclude t last.1 last.2
                return Except.ok res) = _
              rw [initial_eq hs hstart, ok_bind, run_eq _ _ _ hinitial, ok_bind,
                conclude_eq hshape hlast]
              rfl

end Solve

end Checked

/-! ## Calls -/

/-- What a caller can do with a workspace. -/
inductive Call (α : Type) [Scalar α] where
  /-- Solve a horizon in it. -/
  | solve (h : Horizon α) (config : SolverConfig α) (t : Trajectory α)
  /-- Put slacks and multipliers around the stage vectors. -/
  | start (mu0 : α)
  /-- Evaluate the residuals. -/
  | evaluate
  /-- Attempt a step. -/
  | step (mu sigmaMin : α)
  /-- Ask for the largest step length. -/
  | limit (cap : Option α)
  /-- Ask for the duality measure. -/
  | measure

variable {α : Type} [Scalar α] {w : Workspace α}

/-- The workspace after a call. A solve that is refused leaves it as it is. -/
def Call.perform (w : Workspace α) : Call α → Workspace α
  | .solve h config t =>
    match h.solveIn config t w with
    | .error _ => w
    | .ok res => res.workspace
  | .start mu0 => w.start mu0
  | .evaluate => w.residuals
  | .step mu sigmaMin => (w.step mu sigmaMin).workspace
  | .limit _ => w
  | .measure => w

/-- The same call with every size checked. -/
def Checked.perform (w : Workspace α) : Call α → Except SizeFault (Workspace α)
  | .solve h config t => do
    match ← Checked.solveIn h config t w with
    | .error _ => return w
    | .ok res => return res.workspace
  | .start mu0 => Checked.startAll mu0 w
  | .evaluate => Checked.residuals w
  | .step mu sigmaMin => do
    let s ← Checked.step mu sigmaMin w
    return s.workspace
  | .limit cap => do
    let _ ← Checked.maxStep cap w
    return w
  | .measure => do
    let _ ← Checked.duality w
    return w

/-- One call on buffers that have their sizes trips no check. -/
theorem Checked.perform_eq (hw : w.Sized) (c : Call α) :
    Checked.perform w c = .ok (c.perform w) := by
  cases c with
  | solve h config t =>
      rw [Checked.perform, Checked.solveIn_eq hw, ok_bind, Call.perform]
      cases h.solveIn config t w with
      | error e => rfl
      | ok res => rfl
  | start mu0 => exact Checked.startAll_eq hw mu0
  | evaluate => exact Checked.residuals_eq hw
  | step mu sigmaMin =>
      rw [Checked.perform, Checked.step_eq hw]
      rfl
  | limit cap =>
      rw [Checked.perform, Checked.maxStep_eq hw]
      rfl
  | measure =>
      rw [Checked.perform, Checked.duality_eq hw]
      rfl

/-- A call is one more event in the history of a workspace. -/
theorem Workspace.Reached.perform (hw : w.Reached) (c : Call α) : (c.perform w).Reached := by
  cases c with
  | solve h config t =>
      rw [Call.perform]
      cases hres : h.solveIn config t w with
      | error e => exact hw
      | ok res => exact .solved hw hres
  | start mu0 => exact .started mu0 hw
  | evaluate => exact .evaluated hw
  | step mu sigmaMin => exact .stepped mu sigmaMin hw
  | limit cap => exact hw
  | measure => exact hw

/-- No call changes the stage sizes that a workspace was made for. -/
theorem Call.perform_sizes (w : Workspace α) (c : Call α) : (c.perform w).sizes = w.sizes := by
  cases c with
  | solve h config t =>
      rw [Call.perform]
      cases hres : h.solveIn config t w with
      | error e => rfl
      | ok res => exact Workspace.solved_sizes hres
  | step mu sigmaMin => exact Workspace.step_sizes ..
  | start mu0 => rfl
  | evaluate => rfl
  | limit cap => rfl
  | measure => rfl

/-- All calls of a sequence, in any order and however each of them ends. -/
theorem Checked.foldlM_perform (hw : w.Reached) (calls : List (Call α)) :
    calls.foldlM Checked.perform w = .ok (calls.foldl Call.perform w) ∧
      (calls.foldl Call.perform w).Reached ∧
      (calls.foldl Call.perform w).sizes = w.sizes := by
  induction calls generalizing w with
  | nil => exact ⟨rfl, hw, rfl⟩
  | cons c rest ih =>
      obtain ⟨hrest, hlast, hsizes⟩ := ih (hw.perform c)
      refine ⟨?_, hlast, hsizes.trans (Call.perform_sizes w c)⟩
      rw [List.foldlM_cons, Checked.perform_eq hw.sized, ok_bind, hrest]
      rfl

/-- A workspace made for any stage sizes and used in any way since: with every copy, view, product
and index checked, no call of the sequence trips a check, the last one leaves the workspace that the
solver's own definitions leave, and all buffers have the sizes they were made with. -/
theorem calls_keep_sizes {sizes : List StageSizes} {config : SolverConfig α}
    (hnew : Workspace.of? sizes config = .ok w) (calls : List (Call α)) :
    calls.foldlM Checked.perform w = .ok (calls.foldl Call.perform w) ∧
      SizedChain sizes (calls.foldl Call.perform w).stages := by
  obtain ⟨hcalls, hreached, hsizes⟩ := Checked.foldlM_perform (.new hnew) calls
  have hmade : (calls.foldl Call.perform w).sizes = sizes :=
    hsizes.trans (Workspace.eq_of_of? hnew).2.1
  exact ⟨hcalls, hmade ▸ hreached.sized⟩

/-- For instance a workspace of the raised step that is stepped before anything is in it, solved in,
stepped further, asked, and solved in again. -/
theorem calls_keep_sizes_raised : ∃ (w : Workspace ℚ) (calls : List (Call ℚ)),
    Workspace.of? Horizon.raised.sizes .coarse = .ok w ∧
    calls = [.step 1 0, .solve Horizon.raised .coarse (Trajectory.zeros Horizon.raised.sizes),
      .start 2, .evaluate, .step 1 0, .limit none, .measure,
      .solve Horizon.raised .coarse (Trajectory.zeros Horizon.raised.sizes)] ∧
    calls.foldlM Checked.perform w = .ok (calls.foldl Call.perform w) ∧
    SizedChain Horizon.raised.sizes (calls.foldl Call.perform w).stages := by
  obtain ⟨w, _, hnew, _⟩ := Horizon.exists_solved_raised
  exact ⟨w, _, hnew, rfl, calls_keep_sizes hnew _⟩

end StagedQP
