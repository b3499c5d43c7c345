import StagedQP.Plant.Sampled

/-!
# Control problems

A linear-quadratic optimal control problem with time-invariant data: one sampled plant, one stage
cost, one set of inequality rows, and a known initial state. Over `N` steps,

```text
minimize    Σ_{k<N} ½ xᵀQx + uᵀSx + ½ uᵀRu + qᵀx + rᵀu  +  terminal cost of x_N
subject to  x_{k+1} = A x_k + B u_k + b                  k < N
            box bounds on u_k (k < N) and on x_k (1 ≤ k ≤ N)
            lg ≤ D u_k + C x_k ≤ ug                      k < N
            lg ≤ C x_N ≤ ug                              terminal rows
```

A number `nb` of box rows is spent on the controls first: the first `min nu nb` controls are
bounded, and then the first `nb - nu` states. Without a terminal cost the last state is weighed by
the stage cost.
-/

namespace StagedQP

/-- The cost `½ xᵀQx + uᵀSx + ½ uᵀRu + qᵀx + rᵀu`. -/
structure StageCost (α : Type) where
  /-- State block of the Hessian. -/
  Q : Mat α
  /-- Cross term. -/
  S : Mat α
  /-- Control block of the Hessian. -/
  R : Mat α
  /-- State gradient. -/
  q : Vec α
  /-- Control gradient. -/
  r : Vec α

/-- The cost `½ xᵀQx + qᵀx`. -/
structure TerminalCost (α : Type) where
  /-- Hessian. -/
  Q : Mat α
  /-- Gradient. -/
  q : Vec α

/-- Bounds on the leading controls and the leading states. -/
structure BoxRows (α : Type) where
  /-- Number of box rows of an interior stage. -/
  nb : Nat
  /-- Lower bounds of the controls. -/
  lbu : Vec α
  /-- Upper bounds of the controls. -/
  ubu : Vec α
  /-- Lower bounds of the states. -/
  lbx : Vec α
  /-- Upper bounds of the states. -/
  ubx : Vec α

/-- The rows `lg ≤ D u + C x ≤ ug`. -/
structure GeneralRows (α : Type) where
  /-- State matrix. -/
  C : Mat α
  /-- Control matrix. -/
  D : Mat α
  /-- Lower bounds. -/
  lg : Vec α
  /-- Upper bounds. -/
  ug : Vec α

/-- The rows `lg ≤ C x ≤ ug` on the last state. -/
structure TerminalRows (α : Type) where
  /-- State matrix. -/
  C : Mat α
  /-- Lower bounds. -/
  lg : Vec α
  /-- Upper bounds. -/
  ug : Vec α

/-- Of `nb` box rows, the number on controls and the number on states. -/
def BoxRows.split (nb nu : Nat) : Nat × Nat := (min nu nb, nb - nu)

variable {α : Type}

/-- No cost. -/
def StageCost.zeros [Zero α] (nx nu : Nat) : StageCost α :=
  ⟨Mat.zeros nx nx, Mat.zeros nu nx, Mat.zeros nu nu, Vec.zeros nx, Vec.zeros nu⟩

/-- No bounds. -/
def BoxRows.none : BoxRows α := ⟨0, Vec.empty, Vec.empty, Vec.empty, Vec.empty⟩

/-- The bounds `|u| ≤ umax` and `|x| ≤ xmax` on `nb` entries, for a plant with `nu` controls. -/
def BoxRows.symmetric [Neg α] (nb nu : Nat) (umax xmax : α) : BoxRows α :=
  let (nbu, nbx) := BoxRows.split nb nu
  ⟨nb, Vec.const nbu (-umax), Vec.const nbu umax, Vec.const nbx (-xmax), Vec.const nbx xmax⟩

/-- `ng` rows of zeros with zero bounds. -/
def GeneralRows.zeros [Zero α] (ng nx nu : Nat) : GeneralRows α :=
  ⟨Mat.zeros ng nx, Mat.zeros ng nu, Vec.zeros ng, Vec.zeros ng⟩

/-- Number of rows. -/
def GeneralRows.count (g : GeneralRows α) : Nat := g.C.rows

/-- No terminal rows. -/
def TerminalRows.none [Zero α] (nx : Nat) : TerminalRows α :=
  ⟨Mat.zeros 0 nx, Vec.empty, Vec.empty⟩

/-- The first `count` states end at zero. -/
def TerminalRows.pinned [Zero α] [One α] (count nx : Nat) : TerminalRows α :=
  ⟨Mat.identity count nx, Vec.zeros count, Vec.zeros count⟩

/-- Number of rows. -/
def TerminalRows.count (t : TerminalRows α) : Nat := t.C.rows

/-- A control problem with time-invariant data. -/
structure ControlProblem (α : Type) where
  /-- The plant. -/
  plant : SampledPlant α
  /-- Number of steps. -/
  steps : Nat
  /-- The known initial state. -/
  x0 : Vec α
  /-- Cost of every step. -/
  cost : StageCost α
  /-- Cost of the last state; that of a step when absent. -/
  terminalCost : Option (TerminalCost α)
  /-- Box bounds. -/
  bounds : BoxRows α
  /-- General rows of every step. -/
  general : GeneralRows α
  /-- General rows on the last state. -/
  terminal : TerminalRows α

namespace ControlProblem

/-- No cost and no inequality rows. -/
def free [Zero α] (plant : SampledPlant α) (steps : Nat) (x0 : Vec α) : ControlProblem α where
  plant := plant
  steps := steps
  x0 := x0
  cost := StageCost.zeros plant.nx plant.nu
  terminalCost := none
  bounds := BoxRows.none
  general := GeneralRows.zeros 0 plant.nx plant.nu
  terminal := TerminalRows.none plant.nx

variable [Scalar α]

/-- The regulation of a sampled chain of masses: from two displaced states to rest, under a small
constant force, with `|u| ≤ ½` and `|x| ≤ 4` on `nb` entries, `ng` empty general rows, and the first
`ngn` states of the last stage pinned to zero. -/
def regulation (plant : SampledPlant α) (steps nb ng ngn : Nat) : ControlProblem α :=
  let nx := plant.nx
  let nu := plant.nu
  { free plant steps (Vec.ofFn nx fun i => if i < 2 then Scalar.decimal 25 1 else 0) with
    cost :=
      { Q := Mat.identity nx nx
        S := Mat.zeros nu nx
        R := Mat.scaledIdentity nu (Scalar.ofNat 2)
        q := Vec.const nx (Scalar.decimal 1 1)
        r := Vec.const nu (Scalar.decimal 2 1) }
    bounds := BoxRows.symmetric nb nu (Scalar.decimal 5 1) (Scalar.ofNat 4)
    general := GeneralRows.zeros ng nx nu
    terminal := TerminalRows.pinned ngn nx }

/-- The regulation problem of a chain with `nx` states and `nu` actuated masses, sampled with period
`ts` by the given exponential and linear solve. -/
def chainWith (expm : Mat α → Mat α) (solve : Mat α → Mat α → Option (Mat α))
    (ts : α) (nx nu steps nb ng ngn : Nat) : Except (SetupError α) (ControlProblem α) := do
  let chain ← ContinuousPlant.chain? nx nu
  let forced ← chain.withOffset? (Vec.const nx (Scalar.decimal 1 1))
  let plant ← forced.sampleWith expm solve ts
  return regulation plant steps nb ng ngn

/-- The regulation problem of a chain, in double precision. -/
def chain? (ts : Float) (nx nu steps nb ng ngn : Nat) :
    Except (SetupError Float) (ControlProblem Float) :=
  chainWith (Mat.exp Float.exp) Mat.solve? ts nx nu steps nb ng ngn

end ControlProblem

end StagedQP
