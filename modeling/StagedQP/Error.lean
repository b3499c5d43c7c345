/-!
# Errors

Only the construction of data can fail: sampling a plant, assembling or checking stages, checking a
configuration, matching buffers with a horizon. A solve that does not converge is not an error but a
status. Each error names its cause; the wording is in `StagedQP.Error.Message`.

An error is returned and can be handled. Where an array would take more bytes than an array can have
there is no error to handle, because nothing is returned (`SetupFault.capacity`).
-/

namespace StagedQP

/-- The order in which a flat buffer lists the entries of a matrix. -/
inductive StorageOrder where
  /-- Row after row. -/
  | rowMajor
  /-- Column after column. -/
  | colMajor
  deriving DecidableEq

/-- What does not fit. -/
inductive Mismatch where
  /-- An array has another shape than its stage declares. -/
  | shape (name : String) (rows cols wantRows wantCols : Nat)
  /-- A vector has another length than its stage declares. -/
  | length (name : String) (size want : Nat)
  /-- A flat buffer does not hold the number of entries of the matrix. -/
  | buffer (order : StorageOrder) (size rows cols : Nat)
  /-- A box row addresses an entry past the end of the stage vector. -/
  | indexOutside (position index length : Nat)
  /-- Two box rows address one entry. -/
  | indexRepeated (position index : Nat)
  /-- A horizon has at least one step. -/
  | tooFewStages (count : Nat)
  /-- The first stage has a state of its own. -/
  | initialState (nx : Nat)
  /-- The dynamics of a stage do not lead to the states of the stage after it. -/
  | dynamics (rows next nx : Nat)
  /-- The last stage has a control. -/
  | terminalControl (nu : Nat)
  /-- The last stage has dynamics. -/
  | terminalDynamics (rows : Nat)
  /-- A problem with no step. -/
  | emptyHorizon
  /-- More state bounds than states. -/
  | stateBounds (nbx nx : Nat)
  /-- The workspace is for other stages, or for fewer iterations. -/
  | workspace
  /-- The trajectory does not have the vectors of the horizon. -/
  | trajectory
  deriving DecidableEq

/-- Why a continuous plant or its sampling period is unusable. -/
inductive SystemFault (α : Type) where
  /-- The state matrix is empty or not square. -/
  | notSquare (rows cols : Nat)
  /-- The input matrix has another number of rows than the state matrix. -/
  | inputRows (rows want : Nat)
  /-- The forcing term has another length than the state. -/
  | offsetLength (size want : Nat)
  /-- A chain of masses needs two states for each mass. -/
  | chainStates (nx : Nat)
  /-- A chain of masses has from one to all of its masses actuated. -/
  | chainInputs (masses nu : Nat)
  /-- The sampling period is not positive and finite. -/
  | period (ts : α)

/-- Why a plant could not be sampled. -/
inductive Singularity where
  /-- The state matrix could not be inverted. -/
  | zeroPivot
  /-- The sampled plant has an infinite or undefined entry. -/
  | notFinite
  deriving DecidableEq

/-- The parameter of a configuration that is out of range. -/
inductive ConfigFault (α : Type) where
  /-- The tolerance is not positive and finite. -/
  | tolerance (value : α)
  /-- No iteration is allowed. -/
  | noIterations
  /-- The least step length is not strictly between zero and one. -/
  | leastStep (value : α)
  /-- The initial barrier parameter is not finite. -/
  | barrier (value : α)
  /-- The least centering is not in the half-open unit interval. -/
  | centering (value : α)

/-- A failure to set up a solve. -/
inductive SetupError (α : Type) where
  /-- Sampling met a singular plant. -/
  | singular (cause : Singularity)
  /-- Data at `stage` has the wrong size. -/
  | mismatch (stage : Nat) (cause : Mismatch)
  /-- The bounds of an inequality row are reversed or not finite. -/
  | bounds (stage row : Nat) (lower upper : α)
  /-- The continuous plant or its sampling period is unusable. -/
  | system (cause : SystemFault α)
  /-- The configuration is out of range. -/
  | config (cause : ConfigFault α)

/-- Why setting up a solve gives no result. -/
inductive SetupFault (α : Type) where
  /-- An error is returned. -/
  | refused (cause : SetupError α)
  /-- An array would take more than `arrayLimit` bytes, and nothing is returned. -/
  | capacity

end StagedQP
