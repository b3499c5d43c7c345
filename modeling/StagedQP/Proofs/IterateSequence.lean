import StagedQP.Proofs.SolveHistory
import StagedQP.Proofs.RunEnding

/-!
# One sequence of iterates

Tolerance, iteration cap and least step length are looked at when a run decides whether to go on,
and nowhere else. The horizon, the starting point, the initial barrier and the least centering fix a
sequence of iterates, and what the other parameters do is to cut it somewhere:

```text
the same number of steps     the same point, duality measure, residuals and records
fewer steps                  the records are the first of those of the longer run
a larger cap, nothing else   the same end, unless it was the cap that cut the sequence
```

Two runs under such configurations are followed side by side, in workspaces that may be of different
caps and histories. They need not stop at the same iterate, so there is no relation between their
ends to keep; what is kept is the relation between the states after equally many steps.

Nothing here uses a law of arithmetic.

## Main results

* `RunState.SameIterate.after` — after equally many steps, two runs are at one iterate.
* `RunState.SameIterate.visits_prefix` — the records of the shorter run come first in the longer.
* `RunState.SameIterate.run_longer` — the effect of a larger cap on a run.
* `stopping_cuts_iterates` — two solves that differ in when they stop.
-/

namespace StagedQP

variable {α : Type} [Scalar α]

/-- Two configurations that make the same steps: they may differ in when they stop and in what they
log. -/
structure SolverConfig.SameSteps (c c' : SolverConfig α) : Prop where
  /-- The initial barrier. -/
  mu0 : c'.mu0 = c.mu0
  /-- The least centering. -/
  sigmaMin : c'.sigmaMin = c.sigmaMin
  /-- Where the start is taken from. -/
  warmStart : c'.warmStart = c.warmStart

omit [Scalar α] in
theorem SolverConfig.SameSteps.symm {c c' : SolverConfig α} (h : c.SameSteps c') :
    c'.SameSteps c :=
  ⟨h.mu0.symm, h.sigmaMin.symm, h.warmStart.symm⟩

namespace RunState

/-! ## States at one iterate -/

/-- Two states of runs that nothing but the histories of their workspaces and the number of log
lines tells apart. -/
def SameIterate (r r' : RunState α) : Prop := r.Agrees { r' with lines := r.lines }

variable {c c' : SolverConfig α} {r r' : RunState α}

theorem SameIterate.symm (h : r.SameIterate r') : r'.SameIterate r where
  workspace :=
    { left := h.workspace.right
      right := h.workspace.left
      base := h.workspace.base.symm
      stats := h.workspace.stats.symm
      sizes := h.workspace.sizes.symm }
  mu := h.mu.symm
  iters := h.iters.symm
  warnings := h.warnings.symm
  lines := rfl

theorem SameIterate.gap (h : r.SameIterate r') : r'.gap = r.gap := by
  rw [RunState.gap, RunState.gap, Workspace.gap, Workspace.gap, show r'.mu = r.mu from h.mu,
    Workspace.residualNorms_of_core h.workspace.core_residuals]

/-- Both attempts to step come out alike. -/
theorem SameIterate.attempt (h : r.SameIterate r') (hsteps : c.SameSteps c') :
    (r'.attempt c').outcome = (r.attempt c).outcome ∧
      (r'.attempt c').warnings = (r.attempt c).warnings ∧
      (r.attempt c).workspace.Agrees (r'.attempt c').workspace := by
  have hsame : r'.attempt c' = { r' with lines := r.lines }.attempt c := by
    rw [RunState.attempt, RunState.attempt, hsteps.sigmaMin]
  rw [hsame]
  exact Agrees.attempt h c

theorem SameIterate.examine (h : r.SameIterate r') (c c' : SolverConfig α) :
    (r.examine c).SameIterate (r'.examine c') :=
  Agrees.examine h c

/-- Both accept the same step. -/
theorem SameIterate.accept (h : r.SameIterate r') {stats stats' : StepStats α}
    (hsteps : c.SameSteps c') (hstats : stats' = stats) :
    ((r.examine c).accept c (r.attempt c) stats).SameIterate
      ((r'.examine c').accept c' (r'.attempt c') stats') := by
  obtain ⟨_, hwarnings, hagrees⟩ := h.attempt hsteps
  subst hstats
  exact Agrees.accept (h.examine c c') c hagrees hwarnings stats'

/-- What one of them warns of, both warn of. -/
theorem SameIterate.warn (h : r.SameIterate r') (warnings : List (Warning α)) :
    (r.warn warnings).SameIterate (r'.warn warnings) :=
  Agrees.warn h warnings

theorem SameIterate.advance (h : r.SameIterate r') (hsteps : c.SameSteps c') {q : RunState α}
    (hq : r.advance c = some q) : ∃ q', r'.advance c' = some q' ∧ q.SameIterate q' := by
  have houtcome := (h.attempt hsteps).1
  unfold RunState.advance at hq ⊢
  cases hok : (r.attempt c).outcome with
  | error k =>
      rw [hok] at hq
      cases hq
  | ok stats =>
      rw [hok] at hq
      cases hq
      rw [houtcome, hok]
      exact ⟨_, rfl, h.accept hsteps rfl⟩

/-- After equally many steps, two runs are at one iterate. -/
theorem SameIterate.after (h : r.SameIterate r') (hsteps : c.SameSteps c') (n : Nat) :
    ∀ {q : RunState α}, after c r n = some q →
      ∃ q', RunState.after c' r' n = some q' ∧ q.SameIterate q' := by
  induction n with
  | zero =>
      intro q hq
      cases hq
      exact ⟨r', rfl, h⟩
  | succ n ih =>
      intro q hq
      obtain ⟨p, hp, hq⟩ := Option.bind_eq_some_iff.1 hq
      obtain ⟨p', hp', hsame⟩ := ih hp
      obtain ⟨q', hq', hsame'⟩ := hsame.advance hsteps hq
      refine ⟨q', ?_, hsame'⟩
      show (RunState.after c' r' n).bind (RunState.advance c') = some q'
      rw [hp', Option.bind_some, hq']

/-! ## Records -/

theorem after_add (c : SolverConfig α) (r : RunState α) (m n : Nat) :
    after c r (m + n) = (after c r m).bind fun q => after c q n := by
  induction n with
  | zero =>
      show after c r m = (after c r m).bind some
      rw [Option.bind_fun_some]
  | succ n ih =>
      show (after c r (m + n)).bind (advance c) = (after c r m).bind fun q => after c q (n + 1)
      rw [ih, Option.bind_assoc]
      rfl

/-- Steps add records and leave those there are. -/
theorem prefix_after (n : Nat) : ∀ {q : RunState α}, after c r n = some q →
    r.workspace.stats <+: q.workspace.stats := by
  induction n with
  | zero =>
      intro q hq
      cases hq
      exact List.prefix_rfl
  | succ n ih =>
      intro q hq
      obtain ⟨p, hp, hq⟩ := Option.bind_eq_some_iff.1 hq
      unfold advance at hq
      split at hq
      · cases hq
        rw [stats_accept ‹_›]
        exact (ih hp).trans (List.prefix_append _ _)
      · cases hq

section Visited

variable {r₀ r₀' : RunState α} (h₀ : r₀.SameIterate r₀') (hsteps : c.SameSteps c')
  (hr : Visits c r₀ r) (hr' : Visits c' r₀' r') (hzero : r₀.iters = 0)

include h₀ hsteps hr hr' hzero

/-- Loop heads of two runs after equally many steps are at one iterate. -/
theorem SameIterate.visits (hiters : r'.iters = r.iters) : r.SameIterate r' := by
  obtain ⟨q, hq, hsame⟩ := h₀.after hsteps r.iters (hr.after_eq hzero)
  have hafter := hr'.after_eq (Eq.trans h₀.iters hzero)
  rw [hiters, hq] at hafter
  exact Option.some.inj hafter ▸ hsame

/-- The records of the shorter run are the first of the longer. -/
theorem SameIterate.visits_prefix (hle : r.iters ≤ r'.iters) :
    r.workspace.stats <+: r'.workspace.stats := by
  obtain ⟨q, hq, hsame⟩ := h₀.after hsteps r.iters (hr.after_eq hzero)
  have hafter := hr'.after_eq (Eq.trans h₀.iters hzero)
  obtain ⟨n, hn⟩ := Nat.exists_eq_add_of_le hle
  rw [hn, after_add, hq, Option.bind_some] at hafter
  have hprefix := prefix_after n hafter
  rwa [show q.workspace.stats = r.workspace.stats from hsame.workspace.stats] at hprefix

end Visited

/-! ## A larger cap -/

/-- A run takes back no step. -/
theorem SameIterate.le_iters_run (h : r.SameIterate r') (c' : SolverConfig α) (n : Nat) :
    r.iters ≤ (r'.run c' n).1.iters := by
  obtain ⟨q, hq, hends⟩ := run_endsAt c' r' n r' .start
  rw [hends.iters, ← show r'.iters = r.iters from h.iters]
  refine Visits.induction (P := fun q => r'.iters ≤ q.iters) (Nat.le_refl _)
    (fun p _ hp _ _ => ?_) q hq
  exact Nat.le_succ_of_le hp

/-- A run whose cap is not reached has a step left. -/
theorem exists_steps_left {m : Nat} (hv : r.verdict c = none) (hm : c.maxIter ≤ r.iters + m) :
    ∃ n, m = n + 1 := by
  have hmore := (verdict_eq_none_iff.1 hv).2.2
  exact ⟨m - 1, by omega⟩

section Longer

variable (h : r.SameIterate r') (htol : c'.tol = c.tol) (hcap : c.maxIter ≤ c'.maxIter)

include h htol

/-- A verdict other than that the cap is reached does not depend on the cap. -/
theorem SameIterate.verdict {p : Outcome × List (Warning α)} (hv : r.verdict c = some p)
    (hp : p.1 ≠ .maxIterReached) : r'.verdict c' = some p := by
  have hgap : r'.gap = r.gap := h.gap
  unfold RunState.gap at hgap
  unfold RunState.verdict Gap.verdict at hv ⊢
  rw [hgap, htol, show r'.iters = r.iters from h.iters]
  split at hv
  · rw [if_pos ‹_›, hv]
  · rw [if_neg ‹_›]
    split at hv
    · rw [if_pos ‹_›, hv]
    · split at hv
      · cases hv
        exact absurd rfl hp
      · cases hv

include hcap

theorem SameIterate.verdict_none (hv : r.verdict c = none) : r'.verdict c' = none := by
  obtain ⟨hfar, hfinite, hmore⟩ := verdict_eq_none_iff.1 hv
  refine verdict_eq_none_iff.2 ⟨?_, ?_, ?_⟩
  · rw [h.gap, htol, hfar]
  · rw [h.gap, hfinite]
  · rw [show r'.iters = r.iters from h.iters]
    exact Nat.lt_of_lt_of_le hmore hcap

omit h in
/-- A run under a larger cap goes at least as far, and ends alike unless it was the cap that ended
the other. -/
theorem SameIterate.run_longer (hsteps : c.SameSteps c') (hmin : c'.minStep = c.minStep) :
    ∀ (n : Nat) (r : RunState α) (m : Nat) (r' : RunState α), r.SameIterate r' →
      c'.maxIter ≤ r'.iters + m → (r.run c n).1.iters ≤ (r'.run c' m).1.iters ∧
        ((r.run c n).2 ≠ .maxIterReached →
          (r'.run c' m).2 = (r.run c n).2 ∧ (r.run c n).1.SameIterate (r'.run c' m).1) := by
  refine run_induction (P := fun n r last => ∀ m r', r.SameIterate r' →
    c'.maxIter ≤ r'.iters + m → last.1.iters ≤ (r'.run c' m).1.iters ∧
      (last.2 ≠ .maxIterReached → (r'.run c' m).2 = last.2 ∧ last.1.SameIterate (r'.run c' m).1))
    ?stop ?cap ?breakdown ?short ?step
  case stop =>
    intro n r p hv m r' h hm
    refine ⟨h.le_iters_run c' m, fun hp => ?_⟩
    rw [run_of_verdict (h.verdict htol hv hp)]
    exact ⟨rfl, (h.examine c c').warn p.2⟩
  case cap =>
    intro r _ m r' h hm
    exact ⟨h.le_iters_run c' m, fun hp => absurd rfl hp⟩
  all_goals
    intro n r
  case breakdown =>
    intro k hv hok m r' h hm
    have hv' := h.verdict_none htol hcap hv
    obtain ⟨m, rfl⟩ := exists_steps_left hv' hm
    obtain ⟨houtcome, hwarnings, hagrees⟩ := h.attempt hsteps
    rw [run_of_error hv' (houtcome.trans hok), hwarnings, show r'.iters = r.iters from h.iters]
    have hexamined := h.examine c c'
    have hbroken : ({ r.examine c with workspace := (r.attempt c).workspace } :
        RunState α).SameIterate
        { r'.examine c' with workspace := (r'.attempt c').workspace } :=
      { hexamined with workspace := hagrees }
    exact ⟨Nat.le_of_eq h.iters.symm, fun _ => ⟨rfl, hbroken.warn _⟩⟩
  case short =>
    intro stats hv hok hshort m r' h hm
    have hv' := h.verdict_none htol hcap hv
    obtain ⟨m, rfl⟩ := exists_steps_left hv' hm
    obtain ⟨houtcome, _, _⟩ := h.attempt hsteps
    rw [run_of_ok hv' (houtcome.trans hok), hmin, if_pos hshort,
      show r'.iters = r.iters from h.iters]
    have haccepted := h.accept hsteps (rfl : stats = stats)
    exact ⟨Nat.le_of_eq haccepted.iters.symm, fun _ => ⟨rfl, haccepted.warn _⟩⟩
  case step =>
    intro stats last hv hok hlong ih m r' h hm
    have hv' := h.verdict_none htol hcap hv
    obtain ⟨m, rfl⟩ := exists_steps_left hv' hm
    obtain ⟨houtcome, _, _⟩ := h.attempt hsteps
    rw [run_of_ok hv' (houtcome.trans hok), hmin, if_neg hlong]
    refine ih m _ (h.accept hsteps rfl) ?_
    show c'.maxIter ≤ r'.iters + 1 + m
    omega

end Longer

end RunState

/-! ## Two solves -/

/-- Two solves start at one iterate. -/
theorem Horizon.Solvable.sameIterate_initial {h : Horizon α} {c c' : SolverConfig α}
    {t t' : Trajectory α} {w w' : Workspace α} (hs : h.Solvable c t w)
    (hs' : h.Solvable c' t' w') (hw : w.Reached) (hw' : w'.Reached) (hsteps : c.SameSteps c')
    (ht : c.warmStart = true → t' = t) :
    (RunState.initial h c t w).SameIterate (RunState.initial h c' t' w') := by
  -- Neither start looks at the cap, so a cap of one step does for both workspaces.
  have hone : ∀ {t : Trajectory α} {w : Workspace α} {d : SolverConfig α}, h.Solvable d t w →
      w.fits h.sizes 1 = true := by
    intro t w d hd
    have hfits := hd.workspace
    have hcap := ((SolverConfig.check_eq_ok_iff d).1 hd.valid).2.1
    rw [Workspace.fits, Bool.and_eq_true, decide_eq_true_iff] at hfits ⊢
    exact ⟨hfits.1, by omega⟩
  obtain ⟨htol, _, hrest⟩ := (SolverConfig.check_eq_ok_iff c).1 hs.valid
  have hvalid : ({ c with maxIter := 1 } : SolverConfig α).check = .ok () :=
    (SolverConfig.check_eq_ok_iff _).2 ⟨htol, Nat.one_ne_zero, hrest⟩
  have hcut : h.Solvable { c with maxIter := 1 } t w := ⟨hvalid, hone hs, hs.trajectory⟩
  have hcut' : h.Solvable { c with maxIter := 1 } t' w' := ⟨hvalid, hone hs', hs'.trajectory⟩
  have hstart := hcut.agrees_initial hcut' (hw.settled hs.sizes_eq.symm)
    (hw'.settled hs'.sizes_eq.symm) ht
  have hsame : { RunState.initial h c' t' w' with
      lines := (RunState.initial h { c with maxIter := 1 } t w).lines } =
      RunState.initial h { c with maxIter := 1 } t' w' := by
    simp only [RunState.initial, startingBarrier, hsteps.mu0, hsteps.warmStart]
  show RunState.Agrees _ { RunState.initial h c' t' w' with
    lines := (RunState.initial h { c with maxIter := 1 } t w).lines }
  rw [hsame]
  exact hstart

/-- Two results report the same point. -/
structure SolveResult.SamePoint (res res' : SolveResult α) : Prop where
  /-- The trajectory. -/
  trajectory : res'.trajectory = res.trajectory
  /-- The number of steps. -/
  iters : res'.report.iters = res.report.iters
  /-- The duality measure. -/
  mu : res'.report.mu = res.report.mu
  /-- The residual norms. -/
  norms : res'.report.norms = res.report.norms
  /-- The records of the steps. -/
  stats : res'.report.stats = res.report.stats

/-- What is returned from one iterate is the same. -/
theorem SolveResult.From.samePoint {c c' : SolverConfig α} {r r' : RunState α}
    {res res' : SolveResult α} (hfrom : res.From c r) (hfrom' : res'.From c' r')
    (h : r.SameIterate r') : res.SamePoint res' where
  trajectory := by
    rw [hfrom.trajectory, hfrom'.trajectory]
    exact Workspace.toTrajectory_of_base h.workspace.base
  iters := by
    rw [hfrom.iters, hfrom'.iters]
    exact h.iters
  mu := by
    rw [hfrom.mu, hfrom'.mu]
    exact h.mu
  norms := by
    rw [hfrom.norms, hfrom'.norms]
    exact Workspace.residualNorms_of_core h.workspace.core_residuals
  stats := by
    rw [hfrom.stats, hfrom'.stats]
    exact h.workspace.stats

/-- **Tolerance, cap and least step only cut the sequence of iterates.** Two solves of one horizon
from one start, under configurations that agree on the initial barrier, the least centering and the
kind of start, in workspaces that fit: the records of one are the first of the other's, and after
equally many steps they return the same point. If they differ in nothing else but the cap, the one
with the larger cap makes at least as many steps, and unless the other ended at its cap, both end
alike with the same point and the same warnings. -/
theorem stopping_cuts_iterates {h : Horizon α} {c c' : SolverConfig α} {t t' : Trajectory α}
    {w w' : Workspace α} (hs : h.Solvable c t w) (hs' : h.Solvable c' t' w') (hw : w.Reached)
    (hw' : w'.Reached) (hsteps : c.SameSteps c') (ht : c.warmStart = true → t' = t) :
    ∃ res res', h.solveIn c t w = .ok res ∧ h.solveIn c' t' w' = .ok res' ∧
      (res.report.stats <+: res'.report.stats ∨ res'.report.stats <+: res.report.stats) ∧
      (res'.report.iters = res.report.iters → res.SamePoint res') ∧
      (c'.tol = c.tol → c'.minStep = c.minStep → c.maxIter ≤ c'.maxIter →
        res.report.iters ≤ res'.report.iters ∧
        (res.status ≠ .maxIterReached →
          res'.status = res.status ∧ res.SamePoint res' ∧ res'.warnings = res.warnings)) := by
  have hstart := hs.sameIterate_initial hs' hw hw' hsteps ht
  obtain ⟨r, hr, hends⟩ := RunState.run_endsAt c (RunState.initial h c t w) c.maxIter _ .start
  obtain ⟨r', hr', hends'⟩ :=
    RunState.run_endsAt c' (RunState.initial h c' t' w') c'.maxIter _ .start
  have hfrom := SolveResult.from_conclude hends
  have hfrom' := SolveResult.from_conclude hends'
  have hsame : r'.iters = r.iters → r.SameIterate r' := hstart.visits hsteps hr hr' rfl
  refine ⟨_, _, hs.solveIn_eq, hs'.solveIn_eq, ?_, ?_, ?_⟩
  · rw [hfrom.stats, hfrom'.stats]
    rcases Nat.le_total r.iters r'.iters with hle | hle
    · exact .inl (hstart.visits_prefix hsteps hr hr' rfl hle)
    · exact .inr (hstart.symm.visits_prefix hsteps.symm hr' hr rfl hle)
  · intro hiters
    rw [hfrom.iters, hfrom'.iters] at hiters
    exact hfrom.samePoint hfrom' (hsame hiters)
  · intro htol hmin hcap
    obtain ⟨hle, halike⟩ := RunState.SameIterate.run_longer htol hcap hsteps hmin c.maxIter _
      c'.maxIter _ hstart (Nat.le_add_left ..)
    refine ⟨hle, fun hstatus => ?_⟩
    obtain ⟨hends_alike, hlast⟩ := halike hstatus
    have hiters : r'.iters = r.iters := hends'.iters.symm.trans (Eq.trans hlast.iters hends.iters)
    exact ⟨hends_alike, hfrom.samePoint hfrom' (hsame hiters), hlast.warnings⟩

/-- For instance on the raised step: its solve succeeds after two steps under a cap of fifty, so
under a cap of sixty, with a log, it succeeds after the same two steps. -/
theorem stopping_cuts_iterates_raised : ∃ (w w' : Workspace ℚ) (res res' : SolveResult ℚ),
    Horizon.raised.solveIn .coarse (Trajectory.zeros Horizon.raised.sizes) w = .ok res ∧
    Horizon.raised.solveIn { SolverConfig.coarse with maxIter := 60, verbose := true }
      (Trajectory.zeros Horizon.raised.sizes) w' = .ok res' ∧
    res'.status = .success ∧ res'.report.iters = 2 ∧ res'.trajectory = res.trajectory ∧
    res'.report.stats = res.report.stats := by
  obtain ⟨w, res, hnew, hres, hsuccess, hiters⟩ := Horizon.exists_solved_raised
  have hvalid : SolverConfig.check { SolverConfig.coarse with maxIter := 60, verbose := true } =
      .ok () := (SolverConfig.check_eq_ok_iff _).2 (by decide +kernel)
  obtain ⟨w', hnew', _, hs'⟩ := Horizon.raised.exists_solvable hvalid (by decide)
  obtain ⟨res₁, res', hres₁, hres', _, _, hlonger⟩ :=
    stopping_cuts_iterates (Horizon.solvable_of_solveIn hres) hs' (.new hnew) (.new hnew')
      ⟨rfl, rfl, rfl⟩ fun _ => rfl
  obtain rfl := Except.ok.inj (hres.symm.trans hres₁)
  obtain ⟨hstatus, hsame, _⟩ := (hlonger rfl rfl (by decide)).2 (by rw [hsuccess]; decide)
  exact ⟨w, w', res, res', hres, hres', hstatus.trans hsuccess, hsame.iters.trans hiters,
    hsame.trajectory, hsame.stats⟩

end StagedQP
