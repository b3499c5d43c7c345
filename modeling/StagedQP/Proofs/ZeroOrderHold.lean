import StagedQP.Plant.Sampled
import StagedQP.Proofs.EliminationSolve
import StagedQP.Proofs.MassChain
import StagedQP.Proofs.MatrixExponential

/-!
# Sampling periods add up

A plant whose input is held constant goes from one state to another in a way that does not depend on
when it is looked at. So sampling with a period `s + t` must be sampling with `s` and then with `t`,

```text
A(s + t) = A(t) A(s)        B(s + t) = A(t) B(s) + B(t).
```

The first equation is the law of the exponential. The second is one of the linear solve: `B(t)` is
defined by `A B(t) = (A(t) - I) B`, and multiplied by the state matrix `A` from the left both sides
become `(A(t) A(s) - I) B`, provided that `A(t)` commutes with `A`. This is where the order of the
factors matters.

## Main results

* `ContinuousPlant.sampleWith_eq_ok_iff` — sampling in exact arithmetic.
* `ContinuousPlant.Held.add` — the two equations.
* `zeroOrderHold_consistent` — a family of sampled plants, one for each period.
-/

namespace StagedQP

variable {K : Type} [Field K] [LinearOrder K] [SquareRoot K]

/-! ## Sampling -/

/-- In exact arithmetic every entry is finite. -/
theorem Mat.allFinite_exact (m : Mat K) : m.allFinite = true := by
  simp [allFinite, Scalar.isFinite_exact]

namespace ContinuousPlant

variable {expm : Mat K → Mat K} {solve : Mat K → Mat K → Option (Mat K)} {p : ContinuousPlant K}
  {ts : K} {d : SampledPlant K}

/-- The right-hand side of the system for the input matrix. -/
def inputSystem (expm : Mat K → Mat K) (p : ContinuousPlant K) (ts : K) : Mat K :=
  ((expm (p.A.scale ts)).sub (Mat.identity p.nx p.nx)).mul p.B

/-- Sampling asks for a positive period and for an answer of the linear solve, and for nothing
else. -/
theorem sampleWith_eq_ok_iff : p.sampleWith expm solve ts = .ok d ↔
    0 < ts ∧ ∃ b, solve p.A (inputSystem expm p ts) = some b ∧
      d = ⟨ts, expm (p.A.scale ts), b, p.b⟩ := by
  have hperiod : (!Scalar.isFinite ts || Scalar.le ts 0) = true ↔ ¬ 0 < ts := by
    simp [Scalar.isFinite_exact, Scalar.le_iff]
  rw [sampleWith, inputSystem]
  by_cases hts : 0 < ts
  · rw [if_neg (hperiod.not.2 (not_not.2 hts))]
    dsimp only
    cases solve p.A (((expm (p.A.scale ts)).sub (Mat.identity p.nx p.nx)).mul p.B) with
    | none => simp
    | some b => simp [Mat.allFinite_exact, hts, eq_comm]
  · rw [if_pos (hperiod.2 hts)]
    simp [hts]

/-- The only thing that a plant can be too singular for is the linear solve. -/
theorem sampleWith_ne_singular (h : solve p.A (inputSystem expm p ts) ≠ none)
    (cause : Singularity) : p.sampleWith expm solve ts ≠ .error (.singular cause) := by
  rw [inputSystem] at h
  rw [sampleWith]
  split
  · simp
  · dsimp only
    cases hb : solve p.A (((expm (p.A.scale ts)).sub (Mat.identity p.nx p.nx)).mul p.B) with
    | none => exact absurd hb h
    | some b => simp [Mat.allFinite_exact]

variable (hexp : ExactExponential expm) (hsolve : ExactSolve solve) (hp : p.Fitted)

include hexp hp in
theorem hasShape_inputSystem (ts : K) : (inputSystem expm p ts).HasShape p.nx p.nu :=
  ((hexp.shape (hp.A.scale ts)).sub _).mul hp.B

include hexp hsolve hp

theorem exists_answer (hA : p.A.IsInvertible) (ts : K) :
    ∃ b, solve p.A (inputSystem expm p ts) = some b :=
  hsolve.answers hp.A (hasShape_inputSystem hexp hp ts) hA

/-- An invertible plant is sampled with every positive period. -/
theorem exists_sampleWith (hA : p.A.IsInvertible) (hts : 0 < ts) :
    ∃ d, p.sampleWith expm solve ts = .ok d := by
  obtain ⟨b, hb⟩ := exists_answer hexp hsolve hp hA ts
  exact ⟨_, sampleWith_eq_ok_iff.2 ⟨hts, b, hb, rfl⟩⟩

omit hexp hsolve hp

/-- The sampled plant `d` holds the input of `p` for the time `ts`. -/
structure Held (expm : Mat K → Mat K) (p : ContinuousPlant K) (ts : K) (d : SampledPlant K) :
    Prop where
  /-- The state matrix is the exponential. -/
  A : d.A = expm (p.A.scale ts)
  /-- It has the shape of that of the plant. -/
  shapeA : d.A.HasShape p.nx p.nx
  /-- The input matrix has the shape of that of the plant. -/
  shapeB : d.B.HasShape p.nx p.nu
  /-- It solves the system for the input matrix. -/
  B : p.A.mul d.B = (d.A.sub (Mat.identity p.nx p.nx)).mul p.B
  /-- The forcing term is passed on. -/
  b : d.b = p.b

include hexp hsolve hp

theorem held_of_sampleWith (h : p.sampleWith expm solve ts = .ok d) : Held expm p ts d := by
  obtain ⟨_, b, hb, rfl⟩ := sampleWith_eq_ok_iff.1 h
  obtain ⟨hshape, hmul⟩ := hsolve.solves hp.A (hasShape_inputSystem hexp hp ts) hb
  exact ⟨rfl, hexp.shape (hp.A.scale ts), hshape, hmul, rfl⟩

end ContinuousPlant

/-! ## Two periods -/

namespace ContinuousPlant.Held

variable {expm : Mat K → Mat K} {p : ContinuousPlant K} {s t : K} {ds dt dst : SampledPlant K}

/-- The system for the input matrix, as an equation of tables. -/
theorem table_B (hp : p.Fitted) (h : Held expm p t dt) :
    p.A.toMatrix p.nx p.nx * dt.B.toMatrix p.nx p.nu =
      (dt.A.toMatrix p.nx p.nx - 1) * p.B.toMatrix p.nx p.nu := by
  rw [← Mat.toMatrix_mul hp.A h.shapeB, h.B, Mat.toMatrix_mul (h.shapeA.sub _) hp.B,
    Mat.toMatrix_sub h.shapeA, Mat.toMatrix_identity]

/-- Holding the input for `s` and then for `t` is holding it for `s + t`. -/
theorem add (hexp : ExactExponential expm) (hp : p.Fitted) (hA : p.A.IsInvertible)
    (hs : Held expm p s ds) (ht : Held expm p t dt) (hst : Held expm p (s + t) dst) :
    dst.A = dt.A.mul ds.A ∧ dst.B = (dt.A.mul ds.B).add dt.B := by
  have hstate : dst.A = dt.A.mul ds.A := by
    rw [hst.A, ht.A, hs.A, add_comm]
    exact hexp.add hp.A t s
  have hcomm : dt.A.toMatrix p.nx p.nx * p.A.toMatrix p.nx p.nx =
      p.A.toMatrix p.nx p.nx * dt.A.toMatrix p.nx p.nx := by
    rw [← Mat.toMatrix_mul ht.shapeA hp.A, ← Mat.toMatrix_mul hp.A ht.shapeA, ht.A,
      hexp.comm hp.A t]
  have hsum : (dt.A.mul ds.B).HasShape p.nx p.nu := ht.shapeA.mul hs.shapeB
  refine ⟨hstate, hst.shapeB.ext (hsum.add _) (Mat.mul_left_cancel hp.A.rows hA ?_)⟩
  rw [Mat.toMatrix_add hsum, Mat.toMatrix_mul ht.shapeA hs.shapeB]
  calc p.A.toMatrix p.nx p.nx * dst.B.toMatrix p.nx p.nu
      = (dt.A.toMatrix p.nx p.nx * ds.A.toMatrix p.nx p.nx - 1) * p.B.toMatrix p.nx p.nu := by
        rw [hst.table_B hp, hstate, Mat.toMatrix_mul ht.shapeA hs.shapeA]
    _ = dt.A.toMatrix p.nx p.nx *
          ((ds.A.toMatrix p.nx p.nx - 1) * p.B.toMatrix p.nx p.nu) +
          (dt.A.toMatrix p.nx p.nx - 1) * p.B.toMatrix p.nx p.nu := by
        simp only [Matrix.sub_mul, Matrix.mul_sub, Matrix.one_mul, Matrix.mul_assoc]
        abel
    _ = dt.A.toMatrix p.nx p.nx * (p.A.toMatrix p.nx p.nx * ds.B.toMatrix p.nx p.nu) +
          p.A.toMatrix p.nx p.nx * dt.B.toMatrix p.nx p.nu := by
        rw [hs.table_B hp, ht.table_B hp]
    _ = p.A.toMatrix p.nx p.nx *
          (dt.A.toMatrix p.nx p.nx * ds.B.toMatrix p.nx p.nu + dt.B.toMatrix p.nx p.nu) := by
        rw [← Matrix.mul_assoc, hcomm, Matrix.mul_assoc, ← Matrix.mul_add]

/-- The state after a period without forcing. -/
theorem get_step (h : Held expm p t dt) (hb : p.b = Vec.zeros p.nx) (x u : Vec K)
    (i : Fin p.nx) : (dt.step x u).get i =
      ((dt.A.toMatrix p.nx p.nx).mulVec (fun j => x.get j) +
        (dt.B.toMatrix p.nx p.nu).mulVec fun j => u.get j) i := by
  have hsize : dt.b.size = p.nx := by
    rw [h.b, hb, Vec.size_zeros]
  rw [SampledPlant.step, Mat.get_addMulVec _ _ _ (by simp [hsize]),
    Mat.get_addMulVec _ _ _ (by simp [hsize]), h.b, hb, Vec.get_zeros, zero_add, h.shapeA.cols,
    h.shapeB.cols, Mat.rowSum_eq_mulVec, Mat.rowSum_eq_mulVec]
  rfl

theorem size_step (h : Held expm p t dt) (hb : p.b = Vec.zeros p.nx) (x u : Vec K) :
    (dt.step x u).size = p.nx := by
  rw [SampledPlant.step, Mat.size_addMulVec, Mat.size_addMulVec, h.b, hb, Vec.size_zeros]

/-- A step over `s + t` is a step over `s` and then one over `t`. -/
theorem step_add (hexp : ExactExponential expm) (hp : p.Fitted) (hA : p.A.IsInvertible)
    (hb : p.b = Vec.zeros p.nx) (hs : Held expm p s ds) (ht : Held expm p t dt)
    (hst : Held expm p (s + t) dst) (x u : Vec K) :
    dst.step x u = dt.step (ds.step x u) u := by
  obtain ⟨hstate, hinput⟩ := add hexp hp hA hs ht hst
  refine Vec.ext_get ((hst.size_step hb x u).trans (ht.size_step hb _ u).symm) fun i hi => ?_
  rw [hst.size_step hb] at hi
  have hmiddle : (fun j : Fin p.nx => (ds.step x u).get j) =
      (ds.A.toMatrix p.nx p.nx).mulVec (fun j => x.get j) +
        (ds.B.toMatrix p.nx p.nu).mulVec fun j => u.get j := funext (hs.get_step hb x u)
  rw [hst.get_step hb x u ⟨i, hi⟩, ht.get_step hb _ u ⟨i, hi⟩, hmiddle, hstate, hinput,
    Mat.toMatrix_add (ht.shapeA.mul hs.shapeB), Mat.toMatrix_mul ht.shapeA hs.shapeA,
    Mat.toMatrix_mul ht.shapeA hs.shapeB, Matrix.mulVec_add, Matrix.mulVec_mulVec,
    Matrix.mulVec_mulVec, Matrix.add_mulVec, add_assoc]

end ContinuousPlant.Held

/-! ## All periods -/

/-- **Sampling periods add up.** A plant without forcing whose state matrix is invertible is sampled
with every positive period. Over `s + t` the sampled plants do what they do over `s` and then over
`t` with the same input, and `m` steps over `s` are one step over `m s`. -/
theorem zeroOrderHold_consistent [IsStrictOrderedRing K] {expm : Mat K → Mat K}
    {solve : Mat K → Mat K → Option (Mat K)} (hexp : ExactExponential expm)
    (hsolve : ExactSolve solve) {p : ContinuousPlant K} (hp : p.Fitted) (hA : p.A.IsInvertible)
    (hb : p.b = Vec.zeros p.nx) :
    ∃ d : K → SampledPlant K, (∀ t, 0 < t → p.sampleWith expm solve t = .ok (d t)) ∧
      (∀ s t, 0 < s → 0 < t →
        (d (s + t)).A = (d t).A.mul (d s).A ∧
        (d (s + t)).B = ((d t).A.mul (d s).B).add (d t).B ∧
        ∀ x u, (d (s + t)).step x u = (d t).step ((d s).step x u) u) ∧
      ∀ s, 0 < s → ∀ m : Nat, 0 < m → ∀ x u,
        (d (m * s)).step x u = (fun y => (d s).step y u)^[m] x := by
  have : Nonempty (SampledPlant K) := ⟨⟨0, p.A, p.B, p.b⟩⟩
  choose! d hd using fun (t : K) (ht : 0 < t) =>
    ContinuousPlant.exists_sampleWith hexp hsolve hp hA ht
  have hheld : ∀ t, 0 < t → ContinuousPlant.Held expm p t (d t) := fun t ht =>
    ContinuousPlant.held_of_sampleWith hexp hsolve hp (hd t ht)
  have hstep : ∀ s t, 0 < s → 0 < t → ∀ x u,
      (d (s + t)).step x u = (d t).step ((d s).step x u) u := fun s t hs ht =>
    ContinuousPlant.Held.step_add hexp hp hA hb (hheld s hs) (hheld t ht)
      (hheld _ (add_pos hs ht))
  refine ⟨d, hd, fun s t hs ht => ?_, fun s hs m hm x u => ?_⟩
  · obtain ⟨hstate, hinput⟩ := ContinuousPlant.Held.add hexp hp hA (hheld s hs) (hheld t ht)
      (hheld _ (add_pos hs ht))
    exact ⟨hstate, hinput, hstep s t hs ht⟩
  -- one more step of the period `s`
  · induction m, hm using Nat.le_induction with
    | base => simp
    | succ m hm ih =>
        have hpos : 0 < (m : K) * s := mul_pos (Nat.cast_pos.2 hm) hs
        rw [Nat.cast_succ, add_mul, one_mul, hstep _ s hpos hs, ih, Function.iterate_succ_apply']

/-- For instance three masses of which two are pushed, with the exponential series and elimination:
looked at every quarter of a second, they are where five looks put them after five quarters. -/
theorem zeroOrderHold_consistent_chain : ∃ (p : ContinuousPlant ℝ) (d : ℝ → SampledPlant ℝ),
    ContinuousPlant.chain? 6 2 = .ok p ∧ p.Fitted ∧ p.A.IsInvertible ∧ p.b = Vec.zeros p.nx ∧
    ExactExponential Mat.realExp ∧ ExactSolve (Mat.solve? : Mat ℝ → Mat ℝ → Option (Mat ℝ)) ∧
    p.sampleWith Mat.realExp Mat.solve? (1 / 4) = .ok (d (1 / 4)) ∧
    (d (1 / 4 + 1 / 2)).A = (d (1 / 2)).A.mul (d (1 / 4)).A ∧
    (d (1 / 4 + 1 / 2)).B = ((d (1 / 2)).A.mul (d (1 / 4)).B).add (d (1 / 2)).B ∧
    ∀ x u, (d ((5 : Nat) * (1 / 4))).step x u = (fun y => (d (1 / 4)).step y u)^[5] x := by
  have hp : ContinuousPlant.chain? 6 2 =
      .ok (ContinuousPlant.forcedChain 6 2 (Vec.zeros 6) : ContinuousPlant ℝ) :=
    ContinuousPlant.chain?_eq_ok_iff.2 ⟨⟨by decide, rfl, by decide, by decide⟩, rfl⟩
  have hfitted : (ContinuousPlant.forcedChain 6 2 (Vec.zeros 6) : ContinuousPlant ℝ).Fitted :=
    ContinuousPlant.fitted_forcedChain rfl 2 (Vec.size_zeros 6)
  have hinvertible := ContinuousPlant.isInvertible_forcedChain (K := ℝ) 6 2 (Vec.zeros 6)
  obtain ⟨d, hd, hadd, hmany⟩ := zeroOrderHold_consistent isExponential_realExp.exact
    Mat.exactSolve_solve? hfitted hinvertible rfl
  obtain ⟨hstate, hinput, _⟩ := hadd (1 / 4) (1 / 2) (by norm_num) (by norm_num)
  exact ⟨_, d, hp, hfitted, hinvertible, rfl, isExponential_realExp.exact, Mat.exactSolve_solve?,
    hd _ (by norm_num), hstate, hinput, hmany (1 / 4) (by norm_num) 5 (by norm_num)⟩

end StagedQP
