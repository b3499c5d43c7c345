import StagedQP.Plant.Continuous
import StagedQP.Dense.Elimination
import StagedQP.Dense.Exponential
import StagedQP.Scalar.Binary64

/-!
# Sampled plants

A plant in discrete time, `x⁺ = A x + B u + b`. Sampling a continuous plant with period `ts` under a
zero-order hold takes `exp (ts A)` for the state matrix and solves `A X = (exp (ts A) - I) B` for
the input matrix, without inverting `A`; a plant with inputs whose state matrix is singular is
refused. A plant without inputs has nothing to solve for, and a singular state matrix is accepted.

The forcing term is passed through unchanged: it is understood as given per sampling interval. It is
not the held image of a continuous forcing.

`sampleWith` takes the exponential and the linear solve as arguments, so that exact statements can
speak of an exact exponential; `sample` runs it on doubles.
-/

namespace StagedQP

/-- The plant `x⁺ = A x + B u + b`. -/
structure SampledPlant (α : Type) where
  /-- Sampling period. -/
  ts : α
  /-- State matrix. -/
  A : Mat α
  /-- Input matrix. -/
  B : Mat α
  /-- Offset. -/
  b : Vec α

namespace SampledPlant

variable {α : Type}

/-- Number of states. -/
def nx (s : SampledPlant α) : Nat := s.A.rows

/-- Number of inputs. -/
def nu (s : SampledPlant α) : Nat := s.B.cols

/-- The state after one period: `b + A x + B u`. -/
def step [Scalar α] (s : SampledPlant α) (x u : Vec α) : Vec α :=
  Mat.addMulVec (Mat.addMulVec s.b s.A x) s.B u

/-- The states from `x` on under the inputs in turn. -/
def rollout [Scalar α] (s : SampledPlant α) (x : Vec α) : List (Vec α) → List (Vec α)
  | [] => [x]
  | u :: us => x :: rollout s (s.step x u) us

/-- The matrices of a plant fit together. -/
def check (s : SampledPlant α) : Except (SetupError α) Unit := do
  s.A.checkShape 0 "A" s.nx s.nx
  s.B.checkShape 0 "B" s.nx s.nu
  s.b.checkLength 0 "b" s.nx

end SampledPlant

namespace ContinuousPlant

variable {α : Type} [Scalar α]

/-- Zero-order hold with period `ts`, by the given exponential and linear solve. -/
def sampleWith (expm : Mat α → Mat α) (solve : Mat α → Mat α → Option (Mat α))
    (s : ContinuousPlant α) (ts : α) : Except (SetupError α) (SampledPlant α) :=
  if !Scalar.isFinite ts || Scalar.le ts 0 then .error (.system (.period ts))
  else
    let a := expm (s.A.scale ts)
    match solve s.A ((a.sub (Mat.identity s.nx s.nx)).mul s.B) with
    | none => .error (.singular .zeroPivot)
    | some b =>
      if b.allFinite && a.allFinite then .ok ⟨ts, a, b, s.b⟩
      else .error (.singular .notFinite)

/-- Zero-order hold in double precision. -/
def sample (s : ContinuousPlant Float) (ts : Float) :
    Except (SetupError Float) (SampledPlant Float) :=
  s.sampleWith (Mat.exp Float.exp) Mat.solve? ts

end ContinuousPlant

/-- The customary initial state of a sampled chain: `5, 10, 15, 20` for four states, all ones for
any other number. -/
def customaryState {α : Type} [Scalar α] (nx : Nat) : Vec α :=
  if nx = 4 then Vec.ofList [Scalar.ofNat 5, Scalar.ofNat 10, Scalar.ofNat 15, Scalar.ofNat 20]
  else Vec.const nx 1

end StagedQP
