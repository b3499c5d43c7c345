import StagedQP.Proofs.AcceptedProblem
import StagedQP.Proofs.ZeroOrderHold

/-!
# Which regulation problems of a chain exist

The regulation of a chain of masses goes a long way from seven numbers to a horizon: the chain, its
forcing, the sampling with an exponential and a linear solve, the check of the problem, the layout
of the stages, the check of the stages. Each of these can fail. All that can fail in fact is said by
the numbers themselves,

```text
nx even and positive     1 ≤ nu ≤ nx / 2     0 < ts     1 ≤ steps     nb ≤ nu + nx
```

with no condition on the numbers of general rows: the state matrix of a chain is invertible at any
length, every array of the problem is made with the size that the check asks for, and all bounds
enclose zero.

## Main results

* `ControlProblem.chainWith_eq_ok_iff` — the problem.
* `ControlProblem.check_regulation_iff`, `ControlProblem.boundsInOrder_regulation` — its checks.
* `ControlProblem.chain_builds_iff` — the horizon.
-/

namespace StagedQP

namespace ContinuousPlant

variable {K : Type} [Field K] [LinearOrder K] [SquareRoot K]
  {expm : Mat K → Mat K} {solve : Mat K → Mat K → Option (Mat K)}
  {nx nu : Nat} {b : Vec K}

/-- A sampled chain has the states and the inputs of the chain, and fits together. -/
theorem check_sampled_forcedChain (hexp : ExactExponential expm) (hsolve : ExactSolve solve)
    (heven : nx % 2 = 0) (hb : b.size = nx) {ts : K} {d : SampledPlant K}
    (hd : (forcedChain nx nu b).sampleWith expm solve ts = .ok d) :
    d.nx = nx ∧ d.nu = nu ∧ d.check = .ok () := by
  have hheld := held_of_sampleWith hexp hsolve (fitted_forcedChain heven nu hb) hd
  have hrows : (forcedChain nx nu b).nx = nx := nx_forcedChain heven b
  have hdnx : d.nx = nx := hheld.shapeA.rows.trans hrows
  have hdnu : d.nu = nu := hheld.shapeB.cols
  refine ⟨hdnx, hdnu, ?_⟩
  simp only [SampledPlant.check, seq_eq_ok, Mat.checkShape_eq_ok, Vec.checkLength_eq_ok]
  refine ⟨⟨rfl, ?_⟩, ⟨?_, rfl⟩, ?_⟩
  · rw [hheld.shapeA.cols, hrows, hdnx]
  · rw [hheld.shapeB.rows, hrows, hdnx]
  · rw [hheld.b, hdnx]
    exact hb

end ContinuousPlant

namespace ControlProblem

open ContinuousPlant (forcedChain IsChainSize)

/-! ## The problem -/

section Problem

variable {K : Type} [Field K] [LinearOrder K] [SquareRoot K] {expm : Mat K → Mat K}
  {solve : Mat K → Mat K → Option (Mat K)} {ts : K} {nx nu steps nb ng ngn : Nat}
  {p : ControlProblem K}

/-- The problem of a chain is the regulation of the chain, sampled under its constant force. -/
theorem chainWith_eq_ok_iff : chainWith expm solve ts nx nu steps nb ng ngn = .ok p ↔
    IsChainSize nx nu ∧ ∃ d,
      (forcedChain nx nu (Vec.const nx (Scalar.decimal 1 1))).sampleWith expm solve ts = .ok d ∧
      p = regulation d steps nb ng ngn := by
  rw [chainWith]
  cases hchain : (ContinuousPlant.chain? nx nu : Except (SetupError K) (ContinuousPlant K)) with
  | error e =>
      have hno : ¬ IsChainSize nx nu := by
        intro hsizes
        rw [ContinuousPlant.chain?_eq_ok_iff.2 ⟨hsizes, rfl⟩] at hchain
        cases hchain
      simp [bind, Except.bind, hno]
  | ok c =>
      obtain ⟨hsizes, rfl⟩ := ContinuousPlant.chain?_eq_ok_iff.1 hchain
      have hforced := ContinuousPlant.withOffset?_forcedChain hsizes.even nu (Vec.zeros nx)
        (Vec.size_const nx (Scalar.decimal 1 1 : K))
      simp only [bind, Except.bind, hforced]
      cases (forcedChain nx nu (Vec.const nx (Scalar.decimal 1 1))).sampleWith expm solve ts with
      | error e => simp
      | ok d => simp [pure, Except.pure, hsizes, eq_comm]

end Problem

/-! ## Its checks -/

/-- The check of a problem passes when each of its parts does. -/
theorem check_eq_ok_iff {α : Type} {p : ControlProblem α} : p.check = .ok () ↔
    p.plant.check = .ok () ∧ p.steps ≠ 0 ∧ p.x0.size = p.plant.nx ∧ p.checkCost = .ok () ∧
      p.checkTerminalCost = .ok () ∧ p.checkBox = .ok () ∧ p.checkGeneral = .ok () ∧
      p.checkTerminal = .ok () := by
  rw [check, seq_eq_ok]
  by_cases hsteps : p.steps = 0
  · rw [if_pos hsteps]
    constructor
    · rintro ⟨_, h⟩
      exact absurd h throw_bind_ne_ok
    · rintro ⟨_, hpos, _⟩
      exact absurd hsteps hpos
  · rw [if_neg hsteps]
    simp only [seq_eq_ok, Vec.checkLength_eq_ok]
    simp [hsteps]

section Checks

variable {α : Type} [Scalar α] {d : SampledPlant α} {steps nb ng ngn : Nat}

theorem checkCost_regulation (d : SampledPlant α) (steps nb ng ngn : Nat) :
    (regulation d steps nb ng ngn).checkCost = .ok () := by
  simp only [checkCost, seq_eq_ok, Mat.checkShape_eq_ok, Vec.checkLength_eq_ok]
  simp [regulation, free, Mat.identity, Mat.scaledIdentity, Mat.diagonal]

theorem checkGeneral_regulation (d : SampledPlant α) (steps nb ng ngn : Nat) :
    (regulation d steps nb ng ngn).checkGeneral = .ok () := by
  simp only [checkGeneral, seq_eq_ok, Mat.checkShape_eq_ok, Vec.checkLength_eq_ok]
  simp [regulation, GeneralRows.zeros, GeneralRows.count, free]

/-- More states may be pinned than there are. -/
theorem checkTerminal_regulation (d : SampledPlant α) (steps nb ng ngn : Nat) :
    (regulation d steps nb ng ngn).checkTerminal = .ok () := by
  simp only [checkTerminal, seq_eq_ok, Mat.checkShape_eq_ok, Vec.checkLength_eq_ok]
  simp [regulation, TerminalRows.pinned, TerminalRows.count, free, Mat.identity,
    Mat.diagonal]

/-- Box rows are the one thing there can be too many of. -/
theorem checkBox_regulation : (regulation d steps nb ng ngn).checkBox = .ok () ↔
    nb ≤ d.nu + d.nx := by
  have hsplit : BoxRows.split (regulation d steps nb ng ngn).bounds.nb
      (regulation d steps nb ng ngn).plant.nu = (min d.nu nb, nb - d.nu) := rfl
  have hnx : (regulation d steps nb ng ngn).plant.nx = d.nx := rfl
  rw [checkBox, hsplit, hnx]
  dsimp only
  by_cases hlt : d.nx < nb - d.nu
  · rw [if_pos hlt]
    constructor
    · intro h
      exact absurd h throw_bind_ne_ok
    · intro hle
      omega
  · rw [if_neg hlt]
    simp only [seq_eq_ok, Vec.checkLength_eq_ok]
    simp only [regulation, BoxRows.symmetric, BoxRows.split, Vec.size_const, true_and, true_iff]
    omega

/-- The regulation of a plant that fits together passes the check with at least one step, and with
no more box rows than controls and states. -/
theorem check_regulation_iff (hd : d.check = .ok ()) (steps nb ng ngn : Nat) :
    (regulation d steps nb ng ngn).check = .ok () ↔ 1 ≤ steps ∧ nb ≤ d.nu + d.nx := by
  have hx0 : (regulation d steps nb ng ngn).x0.size = d.nx := Vec.size_ofFn ..
  have hterminal : (regulation d steps nb ng ngn).checkTerminalCost = .ok () := rfl
  rw [check_eq_ok_iff, checkBox_regulation]
  constructor
  · rintro ⟨_, hsteps, _, _, _, hnb, _⟩
    exact ⟨Nat.one_le_iff_ne_zero.2 hsteps, hnb⟩
  · rintro ⟨hsteps, hnb⟩
    exact ⟨hd, Nat.one_le_iff_ne_zero.1 hsteps, hx0, checkCost_regulation .., hterminal, hnb,
      checkGeneral_regulation .., checkTerminal_regulation ..⟩

end Checks

section Bounds

variable {K : Type} [Field K] [LinearOrder K] [IsStrictOrderedRing K] [SquareRoot K]
  {d : SampledPlant K} {steps nb ng ngn : Nat}

omit [SquareRoot K] in
/-- Opposite bounds are in order. -/
theorem get_const_neg_le {a : K} (ha : 0 ≤ a) (n i : Nat) :
    (Vec.const n (-a)).get i ≤ (Vec.const n a).get i := by
  rw [Vec.const, Vec.const, Vec.get_ofFn, Vec.get_ofFn]
  split
  · exact neg_le_self ha
  · exact le_rfl

/-- All bounds of a regulation problem enclose zero. -/
theorem boundsInOrder_regulation (d : SampledPlant K) (steps nb ng ngn : Nat) :
    (regulation d steps nb ng ngn).BoundsInOrder where
  controls i _ := by
    refine get_const_neg_le ?_ _ i
    rw [Scalar.decimal_exact]
    positivity
  states i _ := by
    refine get_const_neg_le ?_ _ i
    rw [Scalar.ofNat_exact]
    positivity
  general _ _ := le_rfl
  terminal _ _ := le_rfl

/-- A regulation problem is built when it passes its check. -/
theorem build_regulation_iff (hd : d.check = .ok ()) (steps nb ng ngn : Nat) :
    (∃ h, (regulation d steps nb ng ngn).build? = .ok h) ↔ 1 ≤ steps ∧ nb ≤ d.nu + d.nx := by
  rw [← check_regulation_iff hd steps nb ng ngn]
  constructor
  · rintro ⟨h, hbuild⟩
    rw [build?, seq_eq_ok] at hbuild
    exact hbuild.1
  · intro hcheck
    have hp := fitted_of_check hcheck
    have hstages : Horizon.check (regulation d steps nb ng ngn).stages = .ok () :=
      (laidOut_templates hp).check_eq_ok_iff.2
        ((rowsInOrder_templates hp).2 (boundsInOrder_regulation ..))
    refine ⟨⟨_, hstages⟩, ?_⟩
    rw [build?, seq_eq_ok, Horizon.of?_eq_ok_iff]
    exact ⟨hcheck, hstages, rfl⟩

end Bounds

/-! ## The horizon -/

open ContinuousPlant in
/-- **Which chains have a regulation horizon.** With an exact exponential and an exact linear solve,
the problem of a chain is made and built exactly for an even, positive number of states, at least
one input and at most one for each mass, a positive period, at least one step, and no more box rows
than there are inputs and states; the numbers of general rows do not matter. The state matrix of a
chain is invertible whatever its length, so no chain is ever too singular to be sampled. -/
theorem chain_builds_iff {K : Type} [Field K] [LinearOrder K] [IsStrictOrderedRing K]
    [SquareRoot K] {expm : Mat K → Mat K} {solve : Mat K → Mat K → Option (Mat K)}
    (hexp : ExactExponential expm) (hsolve : ExactSolve solve) :
    (∀ (ts : K) (nx nu steps nb ng ngn : Nat),
      (∃ h, (chainWith expm solve ts nx nu steps nb ng ngn >>= build?) = .ok h) ↔
        (nx % 2 = 0 ∧ 0 < nx) ∧ (1 ≤ nu ∧ nu ≤ nx / 2) ∧ 0 < ts ∧ 1 ≤ steps ∧ nb ≤ nu + nx) ∧
    (∀ nx, nx % 2 = 0 → (chainState (nx / 2) : Mat K).HasShape nx nx ∧
      (chainState (nx / 2) : Mat K).IsInvertible) ∧
    ∀ (nx nu : Nat) (c : ContinuousPlant K), ContinuousPlant.chain? nx nu = .ok c →
      ∀ (b : Vec K) (ts : K) (cause : Singularity),
        ({ c with b := b } : ContinuousPlant K).sampleWith expm solve ts ≠
          .error (.singular cause) := by
  refine ⟨fun ts nx nu steps nb ng ngn => ?builds, fun nx hnx => ?invertible,
    fun nx nu c hc b ts cause => ?sampled⟩
  case builds =>
    constructor
    · rintro ⟨h, hbuild⟩
      obtain ⟨p, hp, hbuild⟩ := exists_of_bind_eq_ok hbuild
      obtain ⟨hsizes, d, hd, rfl⟩ := chainWith_eq_ok_iff.1 hp
      obtain ⟨hnx, hnu, hcheck⟩ := check_sampled_forcedChain hexp hsolve hsizes.even
        (Vec.size_const ..) hd
      have hlimits := (build_regulation_iff hcheck steps nb ng ngn).1 ⟨h, hbuild⟩
      rw [hnx, hnu] at hlimits
      exact ⟨⟨hsizes.even, hsizes.states⟩, ⟨hsizes.inputs, hsizes.masses⟩,
        (sampleWith_eq_ok_iff.1 hd).1, hlimits⟩
    · rintro ⟨⟨heven, hstates⟩, ⟨hinputs, hmasses⟩, hts, hlimits⟩
      have hforce : (Vec.const nx (Scalar.decimal 1 1) : Vec K).size = nx := Vec.size_const ..
      obtain ⟨d, hd⟩ := exists_sampleWith hexp hsolve (fitted_forcedChain heven nu hforce)
        (isInvertible_forcedChain ..) hts
      obtain ⟨hnx, hnu, hcheck⟩ := check_sampled_forcedChain hexp hsolve heven hforce hd
      rw [← hnx, ← hnu] at hlimits
      obtain ⟨h, hbuild⟩ := (build_regulation_iff hcheck steps nb ng ngn).2 hlimits
      refine ⟨h, ?_⟩
      rw [chainWith_eq_ok_iff.2 ⟨⟨hstates, heven, hinputs, hmasses⟩, d, hd, rfl⟩]
      exact hbuild
  case invertible =>
    have htwice : 2 * (nx / 2) = nx := by omega
    have hshape := hasShape_chainState (K := K) (nx / 2)
    rw [htwice] at hshape
    exact ⟨hshape, isInvertible_chainState _⟩
  case sampled =>
    obtain ⟨hsizes, rfl⟩ := chain?_eq_ok_iff.1 hc
    -- the system for the input matrix does not mention the forcing
    obtain ⟨x, hx⟩ := exists_answer hexp hsolve
      (fitted_forcedChain hsizes.even nu (Vec.size_zeros nx))
      (isInvertible_forcedChain ..) ts
    refine sampleWith_ne_singular (fun hnone => ?_) cause
    exact Option.some_ne_none x (hx.symm.trans hnone)

open ContinuousPlant in
/-- For instance three masses of which two are pushed have a horizon of three steps with all eight
controls and states bounded, and with nine states pinned at its end, three more than there are; a
ninth box row is one too many. -/
theorem chain_builds_iff_threeMasses : ExactExponential Mat.realExp ∧
    ExactSolve (Mat.solve? : Mat ℝ → Mat ℝ → Option (Mat ℝ)) ∧
    (∃ h, (chainWith Mat.realExp Mat.solve? (1 / 4) 6 2 3 8 2 9 >>= build?) = .ok h) ∧
    (¬ ∃ h, (chainWith Mat.realExp Mat.solve? (1 / 4) 6 2 3 9 2 9 >>= build?) = .ok h) ∧
    (chainState 3 : Mat ℝ).IsInvertible := by
  obtain ⟨hbuilds, hinvertible, _⟩ := chain_builds_iff isExponential_realExp.exact
    (Mat.exactSolve_solve? (K := ℝ))
  refine ⟨isExponential_realExp.exact, Mat.exactSolve_solve?, ?_, ?_, (hinvertible 6 rfl).2⟩
  · rw [hbuilds]
    norm_num
  · rw [hbuilds]
    norm_num

end ControlProblem

end StagedQP
