import StagedQP.Proofs.ExtendedNumbers
import StagedQP.Proofs.ReachedWorkspace

/-!
# Success and values that are not finite

A solve ends with success if the gap is within tolerance, and the gap is made of norms. A norm is a
fold of `max`, which passes over undefined entries, so a success says of every residual entry that
it is within tolerance *or undefined* and nothing more: with an undefined offset in its dynamics a
horizon can be solved successfully by an undefined trajectory.

What is left of the guarantee rests on the stationarity residual. Each of its entries at a stage
adds up a product with every entry of the stage vector, and a product with a value that is not
finite is not finite, whatever it is multiplied by. Hence one entry of that residual that is defined
vouches for the whole stage vector, and a success whose residuals are all defined is finite
throughout.

## Main results

* `Workspace.finite_of_within` — what a bound on the norms says of the residuals.
* `StageState.finite_of_evaluated_stat` — one finite stationarity entry, one finite stage vector.
* `finite_of_success` — what success says about finiteness.
* `Horizon.success_of_undefined_offset` — and what it does not.
-/

namespace StagedQP

open Scalar (Undefined)

variable {α : Type} [Scalar α]

/-! ## Finite vectors -/

theorem Vec.allFinite_iff {v : Vec α} :
    v.allFinite = true ↔ ∀ i < v.size, Scalar.isFinite (v.get i) = true := by
  have hget : ∀ i (hi : i < v.entries.size), v.get i = v.entries[i] := by
    intro i hi
    simp [get, Array.getD, hi]
  rw [allFinite, Array.all_eq_true]
  constructor
  · intro hall i hi
    rw [hget i hi]
    exact hall i hi
  · intro hall i hi
    rw [← hget i hi]
    exact hall i hi

/-- A part of a finite vector is finite. -/
theorem Vec.allFinite_slice {v : Vec α} (hv : v.allFinite = true) {start n : Nat}
    (hn : start + n ≤ v.size) : (v.slice start n).allFinite = true := by
  rw [allFinite_iff] at hv ⊢
  intro i hi
  rw [size_slice] at hi
  rw [get_slice, if_pos hi]
  exact hv _ (by omega)

/-- The residuals of a stage that are measured. -/
def StageResidual.measured (r : StageResidual α) : List (Vec α) :=
  [r.stat, r.dyn, r.ineq.lo, r.ineq.up]

variable [UndefinedLaws α]

/-! ## What the norms see -/

namespace ResidualNorms

/-- All three norms are defined. -/
structure Defined (n : ResidualNorms α) : Prop where
  stat : ¬ Undefined n.stat
  dyn : ¬ Undefined n.dyn
  ineq : ¬ Undefined n.ineq

/-- All three norms are at most `c`. -/
structure Within (c : α) (n : ResidualNorms α) : Prop where
  stat : Scalar.le n.stat c = true
  dyn : Scalar.le n.dyn c = true
  ineq : Scalar.le n.ineq c = true

end ResidualNorms

namespace Workspace

/-- One stage taken into the norms. -/
def measure (acc : ResidualNorms α) (s : StageState α) : ResidualNorms α where
  stat := Scalar.max acc.stat s.residual.stat.infNorm
  dyn := Scalar.max acc.dyn s.residual.dyn.infNorm
  ineq := Scalar.max (Scalar.max acc.ineq s.residual.ineq.lo.infNorm)
    s.residual.ineq.up.infNorm

variable {acc : ResidualNorms α} {c : α}

theorem defined_measure (hacc : acc.Defined) (s : StageState α) : (measure acc s).Defined where
  stat := UndefinedLaws.max _ _ hacc.stat
  dyn := UndefinedLaws.max _ _ hacc.dyn
  ineq := UndefinedLaws.max _ _ (UndefinedLaws.max _ _ hacc.ineq)

/-- What bounds the norms after a stage bounds those before it and those of the stage. -/
theorem within_of_measure (hacc : acc.Defined) {s : StageState α}
    (h : (measure acc s).Within c) :
    acc.Within c ∧ ∀ v ∈ s.residual.measured, Scalar.le v.infNorm c = true := by
  have hineq : Scalar.le (Scalar.max acc.ineq s.residual.ineq.lo.infNorm) c = true :=
    UndefinedLaws.le_of_max_left _ _ _ (UndefinedLaws.max _ _ hacc.ineq) h.ineq
  have hright : ∀ (a : α) (v : Vec α), Scalar.le (Scalar.max a v.infNorm) c = true →
      Scalar.le v.infNorm c = true := fun _ v =>
    UndefinedLaws.le_of_max_right _ _ _ v.defined_infNorm
  constructor
  · exact ⟨UndefinedLaws.le_of_max_left _ _ _ hacc.stat h.stat,
      UndefinedLaws.le_of_max_left _ _ _ hacc.dyn h.dyn,
      UndefinedLaws.le_of_max_left _ _ _ hacc.ineq hineq⟩
  · intro v hv
    simp only [StageResidual.measured, List.mem_cons, List.not_mem_nil, or_false] at hv
    rcases hv with rfl | rfl | rfl | rfl
    · exact hright _ _ h.stat
    · exact hright _ _ h.dyn
    · exact hright _ _ hineq
    · exact hright _ _ h.ineq

theorem within_of_foldl (l : List (StageState α)) : ∀ acc : ResidualNorms α, acc.Defined →
    (l.foldl measure acc).Within c → acc.Within c ∧
      ∀ s ∈ l, ∀ v ∈ s.residual.measured, Scalar.le v.infNorm c = true := by
  induction l with
  | nil => exact fun acc _ h => ⟨h, fun s hs => absurd hs List.not_mem_nil⟩
  | cons s l ih =>
      intro acc hacc h
      obtain ⟨hhead, htail⟩ := ih (measure acc s) (defined_measure hacc s) h
      obtain ⟨hbefore, hown⟩ := within_of_measure hacc hhead
      exact ⟨hbefore, List.forall_mem_cons.2 ⟨hown, htail⟩⟩

/-- A finite bound on the norms bounds every residual entry that is defined, and makes it finite. -/
theorem finite_of_within {w : Workspace α} (h : w.residualNorms.Within c)
    (hc : Scalar.isFinite c = true) :
    ∀ s ∈ w.stages, ∀ v ∈ s.residual.measured, ∀ i < v.size, ¬ Undefined (v.get i) →
      Scalar.isFinite (v.get i) = true ∧ Scalar.le (Scalar.abs (v.get i)) c = true := by
  have hzero : (⟨0, 0, 0⟩ : ResidualNorms α).Defined :=
    ⟨UndefinedLaws.zero, UndefinedLaws.zero, UndefinedLaws.zero⟩
  intro s hs v hv i hi hdefined
  have hnorm := (within_of_foldl w.stages _ hzero h).2 s hs v hv
  have hle := Vec.abs_le_of_infNorm_le hnorm hi hdefined
  exact ⟨UndefinedLaws.finite_of_abs_le _ _ hle hc, hle⟩

end Workspace

/-! ## What a stationarity entry vouches for -/

namespace StageState

/-- A stationarity entry that is finite once the stage is coupled was finite before. -/
theorem finite_of_coupleBefore {s : StageState α} {pi : Vec α} {i : Nat}
    (hi : i < s.residual.stat.size)
    (h : Scalar.isFinite ((s.coupleBefore pi).residual.stat.get i) = true) :
    Scalar.isFinite (s.residual.stat.get i) = true := by
  have hget : (s.coupleBefore pi).residual.stat.get i =
      if i < s.nu then s.residual.stat.get i
      else s.residual.stat.get i - pi.get (i - s.nu) := Vec.get_ofFn_of_lt _ hi
  rw [hget] at h
  split at h
  · exact h
  · exact (UndefinedLaws.finite_sub _ _ h).1

/-- A finite stationarity entry needs a finite stage vector. -/
theorem finite_of_ownResiduals {s : StageState α} {n i : Nat} (hs : s.Shaped n)
    (hi : i < s.nu + s.nx)
    (h : Scalar.isFinite (s.ownResiduals.residual.stat.get i) = true) :
    s.point.v.allFinite = true := by
  have hgrad : i < s.data.grad.size := hs.grad.symm ▸ hi
  have hsize : i < (Mat.addTrMulVec (Mat.addMulVec s.data.grad s.data.hess s.point.v) s.data.dyn
      s.point.pi).size := by
    rwa [Mat.size_addTrMulVec, Mat.size_addMulVec]
  have hsize' : i < (Mat.addMulVec s.data.grad s.data.hess s.point.v).size := by
    rwa [Mat.size_addMulVec]
  have hstat : Scalar.isFinite ((Mat.subTrMulVec (Mat.addTrMulVec
      (Mat.addMulVec s.data.grad s.data.hess s.point.v) s.data.dyn s.point.pi) s.data.jac
        (s.point.lam.lo.sub s.point.lam.up)).get i) = true := h
  rw [Mat.subTrMulVec, Vec.get_ofFn_of_lt _ hsize] at hstat
  have hpulled := (UndefinedLaws.finite_sub _ _ hstat).1
  rw [Mat.addTrMulVec, Vec.get_ofFn_of_lt _ hsize'] at hpulled
  have hcost := (UndefinedLaws.finite_add _ _ hpulled).1
  rw [Vec.allFinite_iff, hs.v, ← hs.hess_cols]
  exact Mat.finite_of_addMulVec hgrad hcost

theorem finite_of_evaluated_stat {s : StageState α} {n i : Nat} (hs : s.Shaped n)
    (before after : Option (StageState α)) (hi : i < s.nu + s.nx)
    (h : Scalar.isFinite ((s.evaluated before after).residual.stat.get i) = true) :
    s.point.v.allFinite = true := by
  rw [evaluated_stat] at h
  cases before with
  | none => exact finite_of_ownResiduals hs hi h
  | some b =>
      have hsize : s.ownResiduals.residual.stat.size = s.data.grad.size := by
        show (Mat.subTrMulVec _ _ _).size = _
        rw [Mat.size_subTrMulVec, Mat.size_addTrMulVec, Mat.size_addMulVec]
      refine finite_of_ownResiduals hs hi (finite_of_coupleBefore ?_ h)
      rwa [hsize, hs.grad]

end StageState

/-- After residuals have been evaluated, one finite stationarity entry of a stage vouches for its
stage vector, whatever else the workspace holds. -/
theorem Workspace.finite_of_residuals {w w' : Workspace α} (hw : Chained w.stages)
    (hcore : w'.stages.map StageState.core = w.residuals.stages.map StageState.core)
    {s : StageState α} (hs : s ∈ w'.stages) {i : Nat} (hi : i < s.residual.stat.size)
    (h : Scalar.isFinite (s.residual.stat.get i) = true) : s.point.v.allFinite = true := by
  obtain ⟨k, hk⟩ := List.getElem?_of_mem hs
  obtain ⟨s₁, hs₁, heq⟩ := exists_getElem?_of_map_eq hcore hk
  have hpoint : s.point = s₁.point := congrArg StageCore.point heq
  have hstat : s.residual.stat = s₁.residual.stat := congrArg StageCore.stat heq
  have hshape := Workspace.chained_residuals hw k s₁ hs₁
  rw [hstat] at hi h
  rw [hpoint]
  rw [hshape.stat] at hi
  rw [residuals_getElem?] at hs₁
  obtain ⟨s₀, hs₀, rfl⟩ := Option.map_eq_some_iff.1 hs₁
  have hbase := StageState.base_evaluated (stageBefore none w.stages k) w.stages[k + 1]? s₀
  have hnv : (s₀.evaluated (stageBefore none w.stages k) w.stages[k + 1]?).nu +
      (s₀.evaluated (stageBefore none w.stages k) w.stages[k + 1]?).nx = s₀.nu + s₀.nx :=
    congrArg (fun b => b.1.2 + b.1.1) hbase
  have hpoint₀ : (s₀.evaluated (stageBefore none w.stages k) w.stages[k + 1]?).point = s₀.point :=
    congrArg (fun b => b.2.2) hbase
  rw [hpoint₀]
  exact StageState.finite_of_evaluated_stat (hw k s₀ hs₀) _ _ (hnv ▸ hi) h

omit [UndefinedLaws α] in
/-- States and controls of a finite stage vector are finite. -/
theorem StageState.finite_parts {s : StageState α} {n : Nat} (hs : s.Shaped n)
    (hv : s.point.v.allFinite = true) :
    s.states.allFinite = true ∧ s.controls.allFinite = true := by
  have hsize := hs.v
  constructor
  · exact Vec.allFinite_slice hv (by omega)
  · exact Vec.allFinite_slice hv (by omega)

omit [UndefinedLaws α] in
/-- A trajectory is finite if the stage vectors it is read off are. -/
theorem Workspace.finite_toTrajectory {w : Workspace α} (hw : Chained w.stages)
    (h : ∀ s ∈ w.stages, s.point.v.allFinite = true) :
    ∀ v ∈ w.toTrajectory.x ++ w.toTrajectory.u, v.allFinite = true := by
  have hparts : ∀ s ∈ w.stages, s.states.allFinite = true ∧ s.controls.allFinite = true := by
    intro s hs
    obtain ⟨k, hk⟩ := List.getElem?_of_mem hs
    exact StageState.finite_parts (hw k s hk) (h s hs)
  intro v hv
  rcases List.mem_append.1 hv with hx | hu
  · obtain ⟨s, hs, rfl⟩ := List.mem_map.1 hx
    exact (hparts s hs).1
  · obtain ⟨s, hs, rfl⟩ := List.mem_map.1 hu
    exact (hparts s (List.mem_of_mem_dropLast hs)).2

/-! ## What success says -/

omit [UndefinedLaws α] in
/-- A configuration that passes its check has a finite tolerance. -/
theorem SolverConfig.finite_tol {config : SolverConfig α} (h : config.check = .ok ()) :
    Scalar.isFinite config.tol = true := by
  have htol := (config.check_eq_ok_iff.1 h).1
  rw [tolOk, Bool.and_eq_true] at htol
  exact htol.2

/-- **What success says about finiteness.** Every residual entry of the point that comes back with
success is within tolerance, and then finite, or undefined. Where one stationarity entry of a stage
is defined, the states and controls of the stage are finite. So if no residual entry is undefined,
all residuals and the whole trajectory are finite. -/
theorem finite_of_success {h : Horizon α} {config : SolverConfig α} {t : Trajectory α}
    {w : Workspace α} {res : SolveResult α} (hw : w.Reached)
    (hres : h.solveIn config t w = .ok res) (hsuccess : res.status = .success) :
    (∀ s ∈ res.workspace.stages, ∀ v ∈ s.residual.measured, ∀ i < v.size,
      Undefined (v.get i) ∨ (Scalar.isFinite (v.get i) = true ∧
        Scalar.le (Scalar.abs (v.get i)) config.tol = true)) ∧
    (∀ s ∈ res.workspace.stages,
      (∃ i < s.residual.stat.size, ¬ Undefined (s.residual.stat.get i)) →
        s.states.allFinite = true ∧ s.controls.allFinite = true) ∧
    ((∀ s ∈ res.workspace.stages, ∀ v ∈ s.residual.measured, ∀ i < v.size,
        ¬ Undefined (v.get i)) →
      (∀ s ∈ res.workspace.stages, ∀ v ∈ s.residual.measured, v.allFinite = true) ∧
      ∀ v ∈ res.trajectory.x ++ res.trajectory.u, v.allFinite = true) := by
  have hs := Horizon.solvable_of_solveIn hres
  obtain ⟨res', hres', r, hr, hfrom⟩ := hs.exists_solveIn
  obtain rfl := Except.ok.inj (hres.symm.trans hres')
  have hshaped := (hs.visited (hw.allocated hs) hr).1
  have hchained := hfrom.chained hshaped
  have hwithin : res.workspace.residualNorms.Within config.tol := by
    have hgap := hfrom.within hsuccess
    rw [Gap.within, Bool.and_eq_true, Bool.and_eq_true, Bool.and_eq_true] at hgap
    rw [Workspace.residualNorms_of_core hfrom.core]
    exact ⟨hgap.1.1.2, hgap.1.2, hgap.2⟩
  have hentry := Workspace.finite_of_within hwithin (SolverConfig.finite_tol hs.valid)
  have hvector : ∀ s ∈ res.workspace.stages,
      (∃ i < s.residual.stat.size, ¬ Undefined (s.residual.stat.get i)) →
        s.point.v.allFinite = true := by
    rintro s hmem ⟨i, hi, hdefined⟩
    have hfinite := (hentry s hmem _ (List.mem_cons_self ..) i hi hdefined).1
    exact Workspace.finite_of_residuals hshaped.chained hfrom.core hmem hi hfinite
  refine ⟨fun s hs v hv i hi => or_iff_not_imp_left.2 (hentry s hs v hv i hi),
    fun s hmem hdefined => ?_, fun hall => ⟨fun s hs v hv => ?_, ?_⟩⟩
  · obtain ⟨k, hk⟩ := List.getElem?_of_mem hmem
    exact StageState.finite_parts (hchained k s hk) (hvector s hmem hdefined)
  · exact Vec.allFinite_iff.2 fun i hi => (hentry s hs v hv i hi (hall s hs v hv i hi)).1
  · have hbase := (map_base_of_core hfrom.core).trans (Workspace.residuals_base r.workspace)
    rw [hfrom.trajectory, ← Workspace.toTrajectory_of_base hbase]
    refine Workspace.finite_toTrajectory hchained fun s hmem => ?_
    by_cases hpos : 0 < s.residual.stat.size
    · exact hvector s hmem ⟨0, hpos, hall s hmem _ (List.mem_cons_self ..) 0 hpos⟩
    · -- a stage without a stationarity entry has an empty stage vector
      obtain ⟨k, hk⟩ := List.getElem?_of_mem hmem
      have hshape := hchained k s hk
      rw [Vec.allFinite_iff, hshape.v, ← hshape.stat]
      exact fun i hi => absurd hi (by omega)

/-- One control that becomes the only state, after an offset `b` is added to it. No rows. -/
def Horizon.offset (b : Extended ℚ) : Horizon (Extended ℚ) where
  templates :=
    [⟨0, { Stage.zeros 0 1 1 with
        B := Mat.ofFn 1 1 fun _ _ => 1
        b := Vec.ofList [b]
        R := Mat.ofFn 1 1 fun _ _ => .finite 3
        r := Vec.ofList [1] }⟩,
      ⟨1, { Stage.zeros 1 0 0 with Q := Mat.ofFn 1 1 fun _ _ => 1 }⟩]
  accepted := rfl

/-- For instance without an offset: the residuals are defined, so the trajectory is finite. -/
theorem finite_of_success_offset : ∃ (w : Workspace (Extended ℚ)) (res : SolveResult (Extended ℚ)),
    w.Reached ∧ (Horizon.offset 0).solveIn .standard (Trajectory.zeros (Horizon.offset 0).sizes) w =
      .ok res ∧ res.status = .success ∧
    ∀ v ∈ res.trajectory.x ++ res.trajectory.u, v.allFinite = true := by
  have hrun : ((Workspace.of? (Horizon.offset 0).sizes .standard).toOption.bind fun w =>
      ((Horizon.offset 0).solveIn .standard (Trajectory.zeros (Horizon.offset 0).sizes)
        w).toOption.map fun res => (res.status, decide (∀ s ∈ res.workspace.stages,
          ∀ v ∈ s.residual.measured, ∀ i < v.size, ¬ Undefined (v.get i)))) =
        some (.success, true) := by decide +kernel
  obtain ⟨w, res, hnew, hres, hpair⟩ := exists_of_evaluated_bind hrun
  have hsuccess : res.status = .success := congrArg Prod.fst hpair
  have hdefined := of_decide_eq_true (congrArg Prod.snd hpair)
  obtain ⟨_, _, hfinite⟩ := finite_of_success (.new hnew) hres hsuccess
  exact ⟨w, res, .new hnew, hres, hsuccess, (hfinite hdefined).2⟩

/-- With an undefined offset the solve makes one step, which spreads the undefined value over the
whole point. No norm shows it, so the solve succeeds, with controls that are not finite. -/
theorem Horizon.success_of_undefined_offset : ∃ res, (offset .undefined).solve .standard = .ok res ∧
    res.status = .success ∧ res.report.iters = 1 ∧ ∃ v ∈ res.trajectory.u, v.allFinite = false := by
  have hrun : ((offset .undefined).solve .standard).toOption.map (fun res =>
      (res.status, res.report.iters, res.trajectory.u.map Vec.allFinite)) =
        some (.success, 1, [false]) := by decide +kernel
  obtain ⟨res, hres, htriple⟩ := exists_of_evaluated hrun
  have hcontrols : res.trajectory.u.map Vec.allFinite = [false] :=
    congrArg (fun p => p.2.2) htriple
  have hmem : false ∈ res.trajectory.u.map Vec.allFinite := by
    rw [hcontrols]
    exact List.mem_singleton.2 rfl
  exact ⟨res, hres, congrArg Prod.fst htriple, congrArg (fun p => p.2.1) htriple,
    List.mem_map.1 hmem⟩

end StagedQP
