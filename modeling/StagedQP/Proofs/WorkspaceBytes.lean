import StagedQP.Proofs.CheckedSolve
import StagedQP.Proofs.SolveHistory

/-!
# The size of a workspace

A caller asks for the size of a workspace before there is one, so the size is computed from the
sizes of the stages by a formula, `StageState.valueCount`, while the buffers are made one by one, by
`StageState.zeros`. The two are maintained apart. This module counts what the buffers hold and finds
the formula: nine matrices, nine pairs and seventeen single vectors, and the factor.

A stage also has buffers as long as the states of the stage after it, so one more state enlarges two
stages. All the same the size of a workspace grows with each size of each stage and with the cap,
and a stage repeated in place adds the size that the stage has as its own successor.

A size that is a machine word is not yet the size of a workspace that can be made, because an array
takes at most half as many bytes as there are words. Of every buffer of a stage there is a second
one of its size or larger, so the stages never meet that bound. The records of all iterations are
one array, and do.

## Main results

* `StageState.stored_zeros` — what the buffers of a new stage hold.
* `StageState.two_mul_le_valueCount` — none of them holds more than half of that.
* `valueTotal_mono`, `valueTotal_repeat` — larger stages, and one more of them.
* `byteSize_exact` — the size in bytes, as long as it is a machine word, and when a workspace of
  that size is made.
-/

namespace StagedQP

variable {α : Type}

/-! ## What the buffers hold -/

namespace StageState

/-- The matrices that are kept for a stage, the factor apart. -/
def matrices (s : StageState α) : List (Mat α) :=
  [s.data.hess, s.data.jac, s.data.dyn, s.condensed.weighted, s.condensed.hess, s.riccati.total,
    s.riccati.pulled, s.riccati.cost, s.riccati.gain]

/-- The vectors kept for the lower and the upper side of the inequality rows. -/
def rowVectors (s : StageState α) : List (Sides (Vec α)) :=
  [s.data.bound, s.point.t, s.point.lam, s.residual.ineq, s.residual.comp, s.direction.dt,
    s.direction.dlam, s.affineT, s.affineLam]

/-- The other vectors kept for a stage. -/
def vectors (s : StageState α) : List (Vec α) :=
  [s.data.grad, s.data.off, s.point.v, s.point.pi, s.residual.stat, s.residual.dyn,
    s.condensed.weight, s.condensed.term, s.condensed.grad, s.riccati.totalVec, s.riccati.costVec,
    s.riccati.feed, s.direction.dv, s.direction.dpi, s.scratch.nv, s.scratch.nc, s.scratch.nxNext]

/-- The number of values that each buffer of a stage holds. -/
def bufferSizes (s : StageState α) : List Nat :=
  (s.matrices.map fun m => m.data.size)
    ++ (s.rowVectors.map fun v => v.lo.size)
    ++ (s.rowVectors.map fun v => v.up.size)
    ++ s.vectors.map Vec.size
    ++ s.riccati.factor.toList.map fun c => c.lower.data.size

/-- The number of values that the buffers of a stage hold. -/
def stored (s : StageState α) : Nat := s.bufferSizes.sum

/-- The buffers of a new stage, by their sizes. -/
theorem bufferSizes_zeros [Scalar α] (d : StageSizes) (n : Nat) :
    (zeros d n : StageState α).bufferSizes =
      [d.nv * d.nv, d.nc * d.nv, n * d.nv, d.nc * d.nv, d.nv * d.nv, d.nv * d.nv, d.nv * n,
        d.nx * d.nx, d.nu * d.nx] ++ List.replicate 9 d.nc ++ List.replicate 9 d.nc ++
      [d.nv, n, d.nv, n, d.nv, n, d.nc, d.nc, d.nv, d.nv, d.nx, d.nu, d.nv, n, d.nv, d.nc, n] ++
      [d.nu * d.nu] := by
  have hmat : ∀ r c, (Mat.zeros r c : Mat α).data.size = r * c := fun r c =>
    Mat.wellFormed_ofFn ..
  have hfactor : (Mat.identity d.nu d.nu : Mat α).data.size = d.nu * d.nu :=
    Mat.wellFormed_ofFn ..
  simp only [bufferSizes, matrices, rowVectors, vectors, zeros, Cholesky.ofIdentity, List.map_cons,
    List.map_nil, Option.toList_some, hmat, hfactor, Vec.size_zeros]
  rfl

/-- A new stage holds the values that the formula counts. -/
theorem stored_zeros [Scalar α] (d : StageSizes) (n : Nat) :
    (zeros d n : StageState α).stored = valueCount d n := by
  simp only [stored, bufferSizes_zeros, List.sum_append, List.sum_replicate, List.sum_cons,
    List.sum_nil, valueCount, smul_eq_mul]
  ring

/-- No buffer of a new stage holds more than half of the values: there is another one of its size,
or it is a block of one that is there three times. -/
theorem two_mul_le_valueCount [Scalar α] {d : StageSizes} {n b : Nat}
    (hb : b ∈ (zeros d n : StageState α).bufferSizes) : 2 * b ≤ valueCount d n := by
  have hstates : d.nx * d.nx ≤ d.nv * d.nv := by unfold StageSizes.nv; gcongr <;> omega
  have hgain : d.nu * d.nx ≤ d.nv * d.nv := by unfold StageSizes.nv; gcongr <;> omega
  have hcontrols : d.nu * d.nu ≤ d.nv * d.nv := by unfold StageSizes.nv; gcongr <;> omega
  have hswap : d.nv * n = n * d.nv := Nat.mul_comm ..
  have hnv : d.nv = d.nu + d.nx := rfl
  rw [bufferSizes_zeros] at hb
  simp only [valueCount, Nat.mul_assoc]
  simp only [List.mem_append, List.mem_cons, List.mem_replicate, List.not_mem_nil,
    or_false] at hb
  -- whichever buffer it is, the claim is linear in the products
  omega

end StageState

/-- The number of values that the buffers of all stages hold. -/
def Workspace.stored (w : Workspace α) : Nat := (w.stages.map StageState.stored).sum

/-! ## The formula along a chain -/

/-- The number of values kept for all stages. -/
def valueTotal (sizes : List StageSizes) : Nat := (valueCounts sizes).sum

/-- Number of states of the first stage, `0` if there is none. -/
def firstStates (sizes : List StageSizes) : Nat := sizes.head?.elim 0 StageSizes.nx

/-- One more stage in front. -/
theorem valueTotal_cons (d : StageSizes) (rest : List StageSizes) :
    valueTotal (d :: rest) = StageState.valueCount d (firstStates rest) + valueTotal rest := by
  cases rest with
  | nil => rfl
  | cons e rest => rfl

/-- A stage repeated in place is one more stage, with as many states after it as in it. -/
theorem valueTotal_repeat (l₁ : List StageSizes) (d : StageSizes) (l₂ : List StageSizes) :
    valueTotal (l₁ ++ d :: d :: l₂) =
      valueTotal (l₁ ++ d :: l₂) + StageState.valueCount d d.nx := by
  induction l₁ with
  | nil =>
      show valueTotal (d :: d :: l₂) = valueTotal (d :: l₂) + _
      rw [valueTotal_cons d (d :: l₂), Nat.add_comm]
      rfl
  | cons e rest ih =>
      have hfirst : firstStates (rest ++ d :: d :: l₂) = firstStates (rest ++ d :: l₂) := by
        cases rest with
        | nil => rfl
        | cons f rest => rfl
      rw [List.cons_append, List.cons_append, valueTotal_cons, valueTotal_cons, ih, hfirst,
        Nat.add_assoc]

/-- A stage is no larger than another in any of its sizes. -/
structure StageSizes.Within (d d' : StageSizes) : Prop where
  nx : d.nx ≤ d'.nx
  nu : d.nu ≤ d'.nu
  nb : d.nb ≤ d'.nb
  ng : d.ng ≤ d'.ng

/-- A larger stage, or one before a larger stage, keeps more values. -/
theorem StageState.valueCount_mono {d d' : StageSizes} (h : d.Within d') {n n' : Nat}
    (hn : n ≤ n') :
    valueCount d n ≤ valueCount d' n' ∧ (d ≠ d' → valueCount d n < valueCount d' n') := by
  obtain ⟨nx, nu, nb, ng⟩ := d
  obtain ⟨nx', nu', nb', ng'⟩ := d'
  obtain ⟨hnx, hnu, hnb, hng⟩ := h
  simp only [valueCount, StageSizes.nv, StageSizes.nc] at *
  have hnv : nu + nx ≤ nu' + nx' := Nat.add_le_add hnu hnx
  have hnc : nb + ng ≤ nb' + ng' := Nat.add_le_add hnb hng
  -- the products never get smaller, and the linear terms see every size
  have hsquare : 3 * (nu + nx) * (nu + nx) ≤ 3 * (nu' + nx') * (nu' + nx') := by gcongr
  have hrows : 2 * (nb + ng) * (nu + nx) ≤ 2 * (nb' + ng') * (nu' + nx') := by gcongr
  have hdynamics : 2 * n * (nu + nx) ≤ 2 * n' * (nu' + nx') := by gcongr
  have hcost : nx * nx ≤ nx' * nx' := by gcongr
  have hgain : nu * nx ≤ nu' * nx' := by gcongr
  have hfactor : nu * nu ≤ nu' * nu' := by gcongr
  constructor
  · omega
  · intro hne
    have hsome : nx ≠ nx' ∨ nu ≠ nu' ∨ nb ≠ nb' ∨ ng ≠ ng' := by
      by_contra hall
      simp only [not_or, not_not] at hall
      obtain ⟨rfl, rfl, rfl, rfl⟩ := hall
      exact hne rfl
    omega

/-- A stage that is not empty keeps something. -/
theorem StageState.valueCount_pos {d : StageSizes} (hd : d ≠ ⟨0, 0, 0, 0⟩) (n : Nat) :
    0 < valueCount d n := by
  have hempty : (⟨0, 0, 0, 0⟩ : StageSizes).Within d :=
    ⟨Nat.zero_le _, Nat.zero_le _, Nat.zero_le _, Nat.zero_le _⟩
  exact Nat.zero_lt_of_lt ((valueCount_mono hempty (Nat.le_refl n)).2 hd.symm)

theorem firstStates_mono {l l' : List StageSizes} (h : List.Forall₂ StageSizes.Within l l') :
    firstStates l ≤ firstStates l' := by
  cases h with
  | nil => exact Nat.le_refl 0
  | cons hd _ => exact hd.nx

/-- Larger stages keep more values. -/
theorem valueTotal_mono {l l' : List StageSizes} (h : List.Forall₂ StageSizes.Within l l') :
    valueTotal l ≤ valueTotal l' ∧ (l ≠ l' → valueTotal l < valueTotal l') := by
  induction h with
  | nil => exact ⟨Nat.le_refl _, fun hne => absurd rfl hne⟩
  | @cons d d' rest rest' hd hrest ih =>
      obtain ⟨hle, hlt⟩ := StageState.valueCount_mono hd (firstStates_mono hrest)
      rw [valueTotal_cons, valueTotal_cons]
      refine ⟨Nat.add_le_add hle ih.1, fun hne => ?_⟩
      by_cases hhead : d = d'
      · have htail : rest ≠ rest' := by
          rintro rfl
          exact hne (by rw [hhead])
        exact Nat.add_lt_add_of_le_of_lt hle (ih.2 htail)
      · exact Nat.add_lt_add_of_lt_of_le (hlt hhead) ih.1

/-! ## The size in bytes -/

/-- The size in bytes of a workspace, however large. -/
def totalBytes (sizes : List StageSizes) (maxIter : Nat) : Nat :=
  (valueTotal sizes + statsPerIteration * maxIter) * bytesPerValue

/-- Below the size of a word nothing is lost. -/
theorem byteSize_eq_totalBytes {sizes : List StageSizes} {maxIter : Nat}
    (h : totalBytes sizes maxIter < wordModulus) :
    Workspace.byteSize sizes maxIter = totalBytes sizes maxIter := Nat.mod_eq_of_lt h

theorem totalBytes_mono {l l' : List StageSizes} (h : List.Forall₂ StageSizes.Within l l')
    {maxIter maxIter' : Nat} (hcap : maxIter ≤ maxIter') :
    totalBytes l maxIter ≤ totalBytes l' maxIter' ∧
      (l ≠ l' ∨ maxIter ≠ maxIter' → totalBytes l maxIter < totalBytes l' maxIter') := by
  obtain ⟨hle, hlt⟩ := valueTotal_mono h
  unfold totalBytes statsPerIteration bytesPerValue
  refine ⟨by omega, fun hne => ?_⟩
  rcases hne with hsizes | hcaps
  · have := hlt hsizes
    omega
  · omega

section Use

variable [Scalar α]

/-- The buffers of a new workspace hold what the formula counts. -/
theorem Workspace.stored_zeros (sizes : List StageSizes) (maxIter : Nat) :
    (zeros sizes maxIter : Workspace α).stored = valueTotal sizes := by
  have hstage : (StageState.stored ∘ fun p : StageSizes × Nat =>
      (StageState.zeros p.1 p.2 : StageState α)) = fun p => StageState.valueCount p.1 p.2 :=
    funext fun p => StageState.stored_zeros p.1 p.2
  rw [stored, zeros, List.map_map, hstage]
  rfl

/-- As long as the size in bytes is a machine word, every buffer of a stage fits an array. -/
theorem Workspace.buffer_le_arrayLimit {sizes : List StageSizes} {maxIter : Nat}
    (h : totalBytes sizes maxIter < wordModulus) {s : StageState α}
    (hs : s ∈ (zeros sizes maxIter : Workspace α).stages) {b : Nat}
    (hb : b ∈ s.bufferSizes) : bytesPerValue * b ≤ arrayLimit := by
  obtain ⟨p, hp, rfl⟩ := List.mem_map.1 hs
  have hhalf := StageState.two_mul_le_valueCount hb
  have hpart : StageState.valueCount p.1 p.2 ≤ valueTotal sizes :=
    List.le_sum_of_mem (List.mem_map.2 ⟨p, hp, rfl⟩)
  unfold totalBytes bytesPerValue wordModulus at h
  unfold bytesPerValue arrayLimit
  omega

/-- No call changes the cap that a workspace was made for. -/
theorem Call.perform_maxIter (w : Workspace α) (c : Call α) :
    (c.perform w).maxIter = w.maxIter := by
  cases c with
  | solve h config t =>
      rw [Call.perform]
      cases hres : h.solveIn config t w with
      | error e => rfl
      | ok res => exact Workspace.solved_maxIter hres
  | step mu sigmaMin => exact Workspace.step_maxIter ..
  | start mu0 => rfl
  | evaluate => rfl
  | limit cap => rfl
  | measure => rfl

/-- No sequence of calls changes the size in bytes. -/
theorem Call.foldl_perform_bytes (calls : List (Call α)) (w : Workspace α) :
    (calls.foldl Call.perform w).bytes = w.bytes := by
  induction calls generalizing w with
  | nil => rfl
  | cons c rest ih =>
      rw [List.foldl_cons, ih, Workspace.bytes, Workspace.bytes, perform_sizes, perform_maxIter]

end Use

/-- **The size asked for is the size of the buffers, and grows with everything; a workspace of that
size is made unless the cap is too large.** For at least two stages and a valid configuration, as
long as the number of bytes is a machine word: the size is eight bytes for each value in the buffers
of a new workspace and for each of the five records of an iteration. Every buffer of a stage fits an
array. If the records of all iterations do, forty bytes each, there is a workspace, and the size
that was asked for is the one it reports; whatever is called with it, it reports the same and its
buffers keep their sizes. If they do not, there is none. A list of smaller stages or a smaller cap
takes no more bytes, and fewer if anything differs. So does the list in which a stage that is not
empty stands once and not twice. -/
theorem byteSize_exact [Scalar α] {sizes : List StageSizes} {config : SolverConfig α}
    (hlength : 2 ≤ sizes.length) (hvalid : config.check = .ok ())
    (hword : totalBytes sizes config.maxIter < wordModulus) :
    Workspace.byteSize sizes config.maxIter =
      8 * ((Workspace.zeros sizes config.maxIter : Workspace α).stored + 5 * config.maxIter) ∧
    (∀ s ∈ (Workspace.zeros sizes config.maxIter : Workspace α).stages, ∀ b ∈ s.bufferSizes,
      8 * b ≤ arrayLimit) ∧
    (40 * config.maxIter ≤ arrayLimit → ∃ w, Workspace.of? sizes config = .ok w ∧
      Workspace.byteSize sizes config.maxIter = w.bytes ∧
      w.bytes = 8 * (w.stored + 5 * config.maxIter) ∧
      ∀ calls : List (Call α), (calls.foldl Call.perform w).bytes = w.bytes ∧
        SizedChain sizes (calls.foldl Call.perform w).stages) ∧
    (arrayLimit < 40 * config.maxIter → Workspace.of? sizes config = .error .capacity) ∧
    (∀ (smaller : List StageSizes) (maxIter : Nat), List.Forall₂ StageSizes.Within smaller sizes →
      maxIter ≤ config.maxIter →
        Workspace.byteSize smaller maxIter ≤ Workspace.byteSize sizes config.maxIter ∧
        (smaller ≠ sizes ∨ maxIter ≠ config.maxIter →
          Workspace.byteSize smaller maxIter < Workspace.byteSize sizes config.maxIter)) ∧
    ∀ (l₁ l₂ : List StageSizes) (d : StageSizes), sizes = l₁ ++ d :: d :: l₂ → d ≠ ⟨0, 0, 0, 0⟩ →
      Workspace.byteSize (l₁ ++ d :: l₂) config.maxIter <
        Workspace.byteSize sizes config.maxIter := by
  have hbytes := byteSize_eq_totalBytes hword
  have hformula : Workspace.byteSize sizes config.maxIter =
      8 * ((Workspace.zeros sizes config.maxIter : Workspace α).stored + 5 * config.maxIter) := by
    rw [hbytes, Workspace.stored_zeros, totalBytes, statsPerIteration, bytesPerValue,
      Nat.mul_comm]
  refine ⟨hformula, fun s hs b hb => Workspace.buffer_le_arrayLimit hword hs hb,
    fun hroom => ?made, fun hfull => ?refused, fun smaller maxIter hsmaller hcap => ?monotone,
    fun l₁ l₂ d hsizes hd => ?repeated⟩
  case made =>
    have hnew := Workspace.of?_eq_ok_iff.2 ⟨hvalid, hlength, hroom, rfl⟩
    refine ⟨_, hnew, rfl, hformula, fun calls => ⟨Call.foldl_perform_bytes calls _, ?_⟩⟩
    obtain ⟨_, hreached, hkept⟩ := Checked.foldlM_perform (.new hnew) calls
    have hchain : SizedChain _ _ := hreached.sized
    rw [hkept] at hchain
    exact hchain
  case refused => exact (Workspace.of?_eq hlength hvalid).trans (if_pos hfull)
  case monotone =>
    obtain ⟨hle, hlt⟩ := totalBytes_mono hsmaller hcap
    rw [hbytes, byteSize_eq_totalBytes (hle.trans_lt hword)]
    exact ⟨hle, hlt⟩
  case repeated =>
    have hpos := StageState.valueCount_pos hd d.nx
    have hlt : totalBytes (l₁ ++ d :: l₂) config.maxIter < totalBytes sizes config.maxIter := by
      rw [hsizes, totalBytes, totalBytes, valueTotal_repeat, bytesPerValue]
      omega
    rw [hbytes, byteSize_eq_totalBytes (hlt.trans hword)]
    exact hlt

/-- For instance three steps of a plant with six states and two controls take 20856 bytes, before
and after an evaluation of residuals and an attempt at a step; without the second of the two
interior stages, or with one iteration fewer, they take less. -/
theorem byteSize_exact_threeSteps : ∃ (sizes : List StageSizes) (w : Workspace ℚ),
    sizes = [⟨0, 2, 2, 0⟩, ⟨6, 2, 8, 1⟩, ⟨6, 2, 8, 1⟩, ⟨6, 0, 6, 9⟩] ∧ 2 ≤ sizes.length ∧
    (.standard : SolverConfig ℚ).check = .ok () ∧ totalBytes sizes 50 < wordModulus ∧
    Workspace.of? sizes .standard = .ok w ∧ w.bytes = 20856 ∧
    ([Call.evaluate, .step 1 0].foldl Call.perform w).bytes = 20856 ∧
    Workspace.byteSize [⟨0, 2, 2, 0⟩, ⟨6, 2, 8, 1⟩, ⟨6, 0, 6, 9⟩] 50 < 20856 ∧
    Workspace.byteSize sizes 49 < 20856 := by
  have hvalid : (.standard : SolverConfig ℚ).check = .ok () := by
    rw [SolverConfig.check_eq_ok_iff]
    decide +kernel
  have hbytes : Workspace.byteSize [⟨0, 2, 2, 0⟩, ⟨6, 2, 8, 1⟩, ⟨6, 2, 8, 1⟩, ⟨6, 0, 6, 9⟩] 50 =
      20856 := by decide
  have hword : totalBytes [⟨0, 2, 2, 0⟩, ⟨6, 2, 8, 1⟩, ⟨6, 2, 8, 1⟩, ⟨6, 0, 6, 9⟩] 50 <
      wordModulus := by decide
  obtain ⟨_, _, hmade, _, hsmaller, hrepeated⟩ := byteSize_exact (by decide) hvalid hword
  obtain ⟨w, hnew, hsize, _, hcalls⟩ := hmade (by decide)
  have hw := hsize.symm.trans hbytes
  refine ⟨_, w, rfl, by decide, hvalid, hword, hnew, hw, (hcalls _).1.trans hw, ?_, ?_⟩
  · rw [← hbytes]
    exact hrepeated [⟨0, 2, 2, 0⟩] [⟨6, 0, 6, 9⟩] ⟨6, 2, 8, 1⟩ rfl (by decide)
  · rw [← hbytes]
    refine (hsmaller _ 49 (List.forall₂_same.2 fun d _ => ?_) (by decide)).2 (.inr (by decide))
    exact ⟨Nat.le_refl _, Nat.le_refl _, Nat.le_refl _, Nat.le_refl _⟩

/-- A valid cap of 2⁵⁸ iterations: the size is a machine word, but the records alone would take more
bytes than an array has, and there is no workspace of the size asked for. -/
theorem Workspace.no_workspace_of_asked_size : ∃ (sizes : List StageSizes)
    (config : SolverConfig ℚ), sizes = [⟨0, 1, 0, 0⟩, ⟨1, 0, 0, 0⟩] ∧
    config = { SolverConfig.standard with maxIter := 288230376151711744 } ∧
    2 ≤ sizes.length ∧ config.check = .ok () ∧ totalBytes sizes config.maxIter < wordModulus ∧
    Workspace.byteSize sizes config.maxIter = 11529215046068470008 ∧
    Workspace.of? sizes config = .error .capacity := by
  have hvalid : ({ SolverConfig.standard with maxIter := 288230376151711744 } :
      SolverConfig ℚ).check = .ok () := by
    rw [SolverConfig.check_eq_ok_iff]
    decide +kernel
  refine ⟨_, _, rfl, rfl, by decide, hvalid, by decide, by decide, ?_⟩
  exact (Workspace.of?_eq (by decide) hvalid).trans (if_pos (by decide))

end StagedQP
