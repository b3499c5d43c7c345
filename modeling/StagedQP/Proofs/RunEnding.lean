import StagedQP.Proofs.LastIterate

/-!
# How a run ends

The loop of a solve has four exits, and what decides between them is split: the verdict at a loop
head looks at the gap and the cap, and a step that was made, or could not be made, is judged after
it. `RunState.Ended` lists the ways out with everything that is known on each of them. A run takes
one of them (`RunState.run_ended`) and no state allows for two outcomes (`RunState.Ended.unique`),
so the outcome of a solve can be read off what it returns:

```text
success          no short step, gap within tolerance
maxIterReached   no short step, gap finite but not within tolerance, iters = maxIter
belowMinStep     the last step was short, or
                 no short step, gap neither finite nor within tolerance, or
                 no short step, gap finite but not within tolerance, iters < maxIter,
                   and no step can be made from the last iterate
```

A short step wins over everything the point it leads to may satisfy, tolerance over breakdown, and
breakdown over the cap. The number of steps that `RunState.run` is given besides, as a bound for its
recursion, never decides: `RunState.run_of_le`.

Nothing here uses a law of arithmetic.

## Main results

* `RunState.Visits.iters_le` — no loop head is past the cap.
* `RunState.run_of_le` — the loop ends by itself.
* `RunState.run_ended` — one of the ways out was taken.
* `outcome_of_solve` — the exact meaning of each outcome.
-/

namespace StagedQP

variable {α : Type} [Scalar α]

/-! ## Verdicts -/

namespace Gap

variable {g : Gap α} {config : SolverConfig α} {iters : Nat}

theorem verdict_eq_none_iff : g.verdict config iters = none ↔
    g.within config.tol = false ∧ g.isFinite = true ∧ iters < config.maxIter := by
  unfold verdict
  by_cases hwithin : g.within config.tol = true
  · simp [hwithin]
  · by_cases hfinite : g.isFinite = true
    · simp [hwithin, hfinite]
    · simp [hwithin, hfinite]

/-- Tolerance is asked for first, then finiteness, then the cap. -/
theorem outcome_of_verdict {p : Outcome × List (Warning α)}
    (h : g.verdict config iters = some p) :
    (p.1 = .success ∧ g.within config.tol = true) ∨
    (p.1 = .belowMinStep ∧ g.within config.tol = false ∧ g.isFinite = false) ∨
    (p.1 = .maxIterReached ∧ g.within config.tol = false ∧ g.isFinite = true ∧
      config.maxIter ≤ iters) := by
  unfold verdict at h
  by_cases hwithin : g.within config.tol = true
  · simp only [hwithin, if_true, Option.some.injEq] at h
    exact .inl ⟨h ▸ rfl, hwithin⟩
  · simp only [hwithin, Bool.false_eq_true, if_false] at h
    by_cases hfinite : g.isFinite = true
    · simp only [hfinite, Bool.not_true, Bool.false_eq_true, if_false] at h
      split at h
      · exact .inr (.inr ⟨by cases h; rfl, by simpa using hwithin, hfinite, ‹_›⟩)
      · cases h
    · simp only [hfinite, Bool.not_false, if_true, Option.some.injEq] at h
      exact .inr (.inl ⟨h ▸ rfl, by simpa using hwithin, by simpa using hfinite⟩)

end Gap

/-! ## Ways out -/

/-- The step was shorter than the least step length. -/
def StepStats.Short (config : SolverConfig α) (s : StepStats α) : Prop :=
  Scalar.lt s.alpha config.minStep = true

namespace RunState

/-- The gap of a loop head. -/
def gap (r : RunState α) : Gap α := r.workspace.residuals.gap r.mu

/-- None of the steps that led to `r` was short. -/
def Steady (config : SolverConfig α) (r : RunState α) : Prop :=
  ∀ s ∈ r.workspace.stats, ¬ s.Short config

/-- The ways in which a run can be over at the loop head `r`. -/
inductive Ended (config : SolverConfig α) (r : RunState α) : Outcome → Prop where
  /-- The gap is within tolerance. -/
  | converged (hsteady : r.Steady config) (hwithin : r.gap.within config.tol = true) :
      Ended config r .success
  /-- The cap is reached. -/
  | capped (hsteady : r.Steady config) (hfar : r.gap.within config.tol = false)
      (hfinite : r.gap.isFinite = true) (hcap : r.iters = config.maxIter) :
      Ended config r .maxIterReached
  /-- The gap is not finite. -/
  | diverged (hsteady : r.Steady config) (hfar : r.gap.within config.tol = false)
      (hinfinite : r.gap.isFinite = false) : Ended config r .belowMinStep
  /-- No step can be made. -/
  | stuck (hsteady : r.Steady config) (hfar : r.gap.within config.tol = false)
      (hfinite : r.gap.isFinite = true) (hmore : r.iters < config.maxIter) {k : Nat}
      (hfailed : (r.attempt config).outcome = .error k) : Ended config r .belowMinStep
  /-- The last step was short, the first to be so. -/
  | short {before : List (StepStats α)} {last : StepStats α}
      (hstats : r.workspace.stats = before ++ [last])
      (hsteady : ∀ s ∈ before, ¬ s.Short config) (hshort : last.Short config) :
      Ended config r .belowMinStep

section Ended

variable {config : SolverConfig α} {r : RunState α} {o o' : Outcome}

theorem not_steady_of_short {before : List (StepStats α)} {last : StepStats α}
    (hstats : r.workspace.stats = before ++ [last]) (hshort : last.Short config) :
    ¬ r.Steady config := by
  intro hsteady
  refine hsteady last ?_ hshort
  simp [hstats]

/-- Success rules out every other way out. -/
theorem Ended.success_iff :
    r.Ended config .success ↔ r.Steady config ∧ r.gap.within config.tol = true := by
  constructor
  · rintro ⟨hsteady, hwithin⟩
    exact ⟨hsteady, hwithin⟩
  · rintro ⟨hsteady, hwithin⟩
    exact .converged hsteady hwithin

theorem Ended.maxIterReached_iff : r.Ended config .maxIterReached ↔
    r.Steady config ∧ r.gap.within config.tol = false ∧ r.gap.isFinite = true ∧
      r.iters = config.maxIter := by
  constructor
  · intro hended
    cases hended with
    | capped hsteady hfar hfinite hcap => exact ⟨hsteady, hfar, hfinite, hcap⟩
  · rintro ⟨hsteady, hfar, hfinite, hcap⟩
    exact .capped hsteady hfar hfinite hcap

theorem Ended.belowMinStep_iff : r.Ended config .belowMinStep ↔
    (∃ last, r.workspace.stats.getLast? = some last ∧ last.Short config ∧
      ∀ s ∈ r.workspace.stats.dropLast, ¬ s.Short config) ∨
    (r.Steady config ∧ r.gap.within config.tol = false ∧ r.gap.isFinite = false) ∨
    (r.Steady config ∧ r.gap.within config.tol = false ∧ r.gap.isFinite = true ∧
      r.iters < config.maxIter ∧ ∃ k, (r.attempt config).outcome = .error k) := by
  constructor
  · intro hended
    cases hended with
    | diverged hsteady hfar hinfinite => exact .inr (.inl ⟨hsteady, hfar, hinfinite⟩)
    | stuck hsteady hfar hfinite hmore hfailed =>
        exact .inr (.inr ⟨hsteady, hfar, hfinite, hmore, _, hfailed⟩)
    | short hstats hbefore hshort =>
        refine .inl ⟨_, ?_, hshort, ?_⟩
        · rw [hstats, List.getLast?_concat]
        · rwa [hstats, List.dropLast_concat]
  · rintro (⟨last, hlast, hshort, hbefore⟩ | ⟨hsteady, hfar, hinfinite⟩ |
      ⟨hsteady, hfar, hfinite, hmore, k, hfailed⟩)
    · exact .short (List.dropLast_append_getLast? last hlast).symm hbefore hshort
    · exact .diverged hsteady hfar hinfinite
    · exact .stuck hsteady hfar hfinite hmore hfailed

/-- Whichever way a run ended, only its last step can have been short. -/
theorem Ended.steady_dropLast (h : r.Ended config o) :
    ∀ s ∈ r.workspace.stats.dropLast, ¬ s.Short config := by
  have hsteady : r.Steady config → ∀ s ∈ r.workspace.stats.dropLast, ¬ s.Short config :=
    fun hall s hs => hall s (List.mem_of_mem_dropLast hs)
  cases h with
  | converged hall => exact hsteady hall
  | capped hall => exact hsteady hall
  | diverged hall => exact hsteady hall
  | stuck hall => exact hsteady hall
  | short hstats hbefore _ =>
      rw [hstats, List.dropLast_concat]
      exact hbefore

/-- No two outcomes are possible at one loop head. -/
theorem Ended.unique (h : r.Ended config o) (h' : r.Ended config o') : o = o' := by
  cases h with
  | converged hsteady hwithin =>
      cases h' with
      | converged => rfl
      | capped _ hfar => simp [hwithin] at hfar
      | diverged _ hfar => simp [hwithin] at hfar
      | stuck _ hfar => simp [hwithin] at hfar
      | short hstats _ hshort => exact absurd hsteady (not_steady_of_short hstats hshort)
  | capped hsteady hfar hfinite hcap =>
      cases h' with
      | converged _ hwithin => simp [hwithin] at hfar
      | capped => rfl
      | diverged _ _ hinfinite => simp [hfinite] at hinfinite
      | stuck _ _ _ hmore => omega
      | short hstats _ hshort => exact absurd hsteady (not_steady_of_short hstats hshort)
  | diverged hsteady hfar hinfinite =>
      cases h' with
      | converged _ hwithin => simp [hwithin] at hfar
      | capped _ _ hfinite => simp [hfinite] at hinfinite
      | diverged => rfl
      | stuck => rfl
      | short => rfl
  | stuck hsteady hfar hfinite hmore hfailed =>
      cases h' with
      | converged _ hwithin => simp [hwithin] at hfar
      | capped _ _ _ hcap => omega
      | diverged => rfl
      | stuck => rfl
      | short => rfl
  | short hstats hbefore hshort =>
      cases h' with
      | converged hsteady => exact absurd hsteady (not_steady_of_short hstats hshort)
      | capped hsteady => exact absurd hsteady (not_steady_of_short hstats hshort)
      | diverged => rfl
      | stuck => rfl
      | short => rfl

end Ended

/-! ## Runs -/

section Run

variable {config : SolverConfig α} {r₀ r : RunState α}

theorem verdict_eq_none_iff : r.verdict config = none ↔
    r.gap.within config.tol = false ∧ r.gap.isFinite = true ∧ r.iters < config.maxIter :=
  Gap.verdict_eq_none_iff

/-- No loop head is past the cap: at the cap there is a verdict. -/
theorem Visits.iters_le (h : Visits config r₀ r) (h₀ : r₀.iters ≤ config.maxIter) :
    r.iters ≤ config.maxIter := by
  refine Visits.induction (P := fun r => r.iters ≤ config.maxIter) h₀ (fun r _ _ hgo _ => ?_) r h
  exact (verdict_eq_none_iff.1 hgo).2.2

/-- The loop ends by itself: with as many steps left as the cap allows for, the bound on its
recursion makes no difference. -/
theorem run_of_le (config : SolverConfig α) : ∀ n (r : RunState α),
    config.maxIter ≤ r.iters + n → ∀ m, n ≤ m → r.run config m = r.run config n := by
  refine run_induction (P := fun n r last =>
    config.maxIter ≤ r.iters + n → ∀ m, n ≤ m → r.run config m = last)
    ?stop ?cap ?breakdown ?short ?step
  case stop =>
    intro n r p hv _ m _
    exact run_of_verdict hv m
  case cap =>
    intro r hv hcap
    have hmore := (verdict_eq_none_iff.1 hv).2.2
    omega
  case breakdown =>
    intro n r k hv hok _ m hm
    obtain ⟨m, rfl⟩ : ∃ i, m = i + 1 := ⟨m - 1, by omega⟩
    exact run_of_error hv hok m
  case short =>
    intro n r stats hv hok hshort _ m hm
    obtain ⟨m, rfl⟩ : ∃ i, m = i + 1 := ⟨m - 1, by omega⟩
    rw [run_of_ok hv hok, if_pos hshort]
  case step =>
    intro n r stats last hv hok hlong ih hcap m hm
    obtain ⟨m, rfl⟩ : ∃ i, m = i + 1 := ⟨m - 1, by omega⟩
    rw [run_of_ok hv hok, if_neg hlong]
    refine ih ?_ m (by omega)
    show config.maxIter ≤ r.iters + 1 + n
    omega

/-- The records of a step that was accepted. -/
theorem stats_accept {stats : StepStats α} (hok : (r.attempt config).outcome = .ok stats) :
    ((r.examine config).accept config (r.attempt config) stats).workspace.stats =
      r.workspace.stats ++ [stats] := by
  obtain ⟨_, rfl, heq⟩ := accept_eq_next hok
  rw [heq, next_stats]

/-- A run that has made no short step yet ends in one of the ways listed. -/
theorem run_ended (config : SolverConfig α) (r₀ : RunState α) (h₀ : r₀.iters ≤ config.maxIter) :
    ∀ n r, Visits config r₀ r → r.Steady config → config.maxIter ≤ r.iters + n →
      ∃ r', Visits config r₀ r' ∧ r'.iters = (r.run config n).1.iters ∧
        r'.Ended config (r.run config n).2 := by
  refine run_induction (P := fun n r last => Visits config r₀ r → r.Steady config →
    config.maxIter ≤ r.iters + n →
      ∃ r', Visits config r₀ r' ∧ r'.iters = last.1.iters ∧ r'.Ended config last.2)
    ?stop ?cap ?breakdown ?short ?step
  case stop =>
    intro n r p hv hr hsteady _
    refine ⟨r, hr, rfl, ?_⟩
    rcases Gap.outcome_of_verdict hv with ⟨ho, hwithin⟩ | ⟨ho, hfar, hinfinite⟩ |
      ⟨ho, hfar, hfinite, hcap⟩
    · exact ho ▸ .converged hsteady hwithin
    · exact ho ▸ .diverged hsteady hfar hinfinite
    · exact ho ▸ .capped hsteady hfar hfinite (Nat.le_antisymm (hr.iters_le h₀) hcap)
  case cap =>
    intro r hv _ _ hcap
    have hmore := (verdict_eq_none_iff.1 hv).2.2
    omega
  case breakdown =>
    intro n r k hv hok hr hsteady _
    obtain ⟨hfar, hfinite, hmore⟩ := verdict_eq_none_iff.1 hv
    exact ⟨r, hr, rfl, .stuck hsteady hfar hfinite hmore hok⟩
  case short =>
    intro n r stats hv hok hshort hr hsteady _
    exact ⟨_, .step hr hv hok, rfl, .short (stats_accept hok) hsteady hshort⟩
  case step =>
    intro n r stats last hv hok hlong ih hr hsteady hcap
    refine ih (.step hr hv hok) (fun s hs => ?_) ?_
    · rw [stats_accept hok, List.mem_append, List.mem_singleton] at hs
      rcases hs with hold | rfl
      · exact hsteady s hold
      · exact hlong
    · show config.maxIter ≤ r.iters + 1 + n
      omega

end Run

end RunState

/-! ## The outcome of a solve -/

namespace SolveResult

/-- The gap reported. -/
def gap (res : SolveResult α) : Gap α := ⟨res.report.mu, res.report.norms⟩

/-- No step reported was short. -/
def Steady (config : SolverConfig α) (res : SolveResult α) : Prop :=
  ∀ s ∈ res.report.stats, ¬ s.Short config

/-- The last step reported was short. -/
def EndsShort (config : SolverConfig α) (res : SolveResult α) : Prop :=
  ∃ s, res.report.stats.getLast? = some s ∧ s.Short config

end SolveResult

/-- What is returned is from the loop head after as many steps as are reported, and the run ended
there in one of the ways listed. -/
theorem Horizon.Solvable.exists_ended {h : Horizon α} {config : SolverConfig α}
    {t : Trajectory α} {w : Workspace α} (hs : h.Solvable config t w) :
    ∃ res r, h.solveIn config t w = .ok res ∧
      RunState.Visits config (RunState.initial h config t w) r ∧ res.From config r ∧
      r.Ended config res.status := by
  obtain ⟨r, hr, hends⟩ := RunState.run_endsAt config (RunState.initial h config t w)
    config.maxIter (RunState.initial h config t w) .start
  obtain ⟨r', hr', hiters, hended⟩ := RunState.run_ended config (RunState.initial h config t w)
    (Nat.zero_le _) config.maxIter (RunState.initial h config t w) .start
    (fun _ hmem => absurd hmem List.not_mem_nil) (Nat.le_add_left ..)
  obtain rfl := hr.eq_of_iters hr' rfl (hiters.trans hends.iters)
  exact ⟨_, _, hs.solveIn_eq, hr, SolveResult.from_conclude hends, hended⟩

/-- **The exact meaning of each outcome.** The loop of a solve ends within `config.maxIter` accepted
steps, whatever bound its recursion is given. There is one record for each step, and none but the
last can be of a short one. Success, the cap and the failure to go on are told apart by what is
returned: the gap reported, the number of steps, the last record, and whether another step can be
made from the last iterate. -/
theorem outcome_of_solve {h : Horizon α} {config : SolverConfig α} {t : Trajectory α}
    {w : Workspace α} (hs : h.Solvable config t w) :
    (∀ n, config.maxIter ≤ n → (RunState.initial h config t w).run config n =
      (RunState.initial h config t w).run config config.maxIter) ∧
    ∃ res r, h.solveIn config t w = .ok res ∧
      RunState.after config (RunState.initial h config t w) res.report.iters = some r ∧
      res.Describes r ∧
      res.report.stats.length = res.report.iters ∧
      res.report.iters ≤ config.maxIter ∧ config.maxIter ≤ w.maxIter ∧
      (∀ s ∈ res.report.stats.dropLast, ¬ s.Short config) ∧
      (res.status = .success ↔ res.Steady config ∧ res.gap.within config.tol = true) ∧
      (res.status = .maxIterReached ↔ res.Steady config ∧ res.gap.within config.tol = false ∧
        res.gap.isFinite = true ∧ res.report.iters = config.maxIter) ∧
      (res.status = .belowMinStep ↔ res.EndsShort config ∨
        (res.Steady config ∧ res.gap.within config.tol = false ∧ res.gap.isFinite = false) ∨
        (res.Steady config ∧ res.gap.within config.tol = false ∧ res.gap.isFinite = true ∧
          res.report.iters < config.maxIter ∧
          ∃ k, (r.attempt config).outcome = .error k)) := by
  obtain ⟨res, r, hres, hr, hfrom, hended⟩ := hs.exists_ended
  have hcons := hr.consistent (RunState.consistent_initial h config t w)
  have hfits := hs.workspace
  have hgap : res.gap = r.gap := by rw [SolveResult.gap, hfrom.mu, hfrom.norms]; rfl
  have hsteady : res.Steady config ↔ r.Steady config := by
    rw [SolveResult.Steady, hfrom.stats, RunState.Steady]
  have hiff : ∀ o, res.status = o ↔ r.Ended config o := fun o =>
    ⟨fun heq => heq ▸ hended, fun ho => hended.unique ho⟩
  rw [Workspace.fits, Bool.and_eq_true, decide_eq_true_iff] at hfits
  refine ⟨fun n => RunState.run_of_le config _ _ (Nat.le_add_left ..) n,
    res, r, hres, ?_, hfrom.describes hcons, ?_, ?_, hfits.2, ?_, ?_, ?_, ?_⟩
  · rw [hfrom.iters]
    exact hr.after_eq rfl
  · rw [hfrom.stats, hfrom.iters]
    exact hcons.length
  · rw [hfrom.iters]
    exact hr.iters_le (Nat.zero_le _)
  · rw [hfrom.stats]
    exact hended.steady_dropLast
  · rw [hiff, RunState.Ended.success_iff, hsteady, hgap]
  · rw [hiff, RunState.Ended.maxIterReached_iff, hsteady, hgap, hfrom.iters]
  · have hshort : res.EndsShort config ↔ ∃ last, r.workspace.stats.getLast? = some last ∧
        last.Short config ∧ ∀ s ∈ r.workspace.stats.dropLast, ¬ s.Short config := by
      rw [SolveResult.EndsShort, hfrom.stats]
      have hbefore := hended.steady_dropLast
      tauto
    rw [hiff, RunState.Ended.belowMinStep_iff, hsteady, hgap, hfrom.iters, hshort]

/-- For instance on the raised step: its solve succeeds, so neither of its two steps was short and
the gap reported is within a quarter. -/
theorem outcome_of_solve_raised : ∃ (w : Workspace ℚ) (res : SolveResult ℚ),
    Horizon.raised.solveIn .coarse (Trajectory.zeros Horizon.raised.sizes) w = .ok res ∧
    res.status = .success ∧ res.report.stats.length = 2 ∧
    res.Steady .coarse ∧ res.gap.within (1 / 4) = true := by
  obtain ⟨w, res, hres, hsuccess, hiters⟩ := Horizon.solveIn_raised
  obtain ⟨_, res', r, hres', _, _, hlength, _, _, _, hmeaning, _⟩ :=
    outcome_of_solve (Horizon.solvable_of_solveIn hres)
  obtain rfl := Except.ok.inj (hres.symm.trans hres')
  obtain ⟨hsteady, hwithin⟩ := hmeaning.1 hsuccess
  exact ⟨w, res, hres, hsuccess, hlength.trans hiters, hsteady, hwithin⟩

end StagedQP
