/-!
# Scalars

Everything numerical in this library — matrices, the stage data, the solver — is written once, over
a type `α` with `[Scalar α]`. The class lists the operations an interior-point solver needs and
*no laws*: a statement that uses none holds for any arithmetic, rounded or not, and a statement
about exact arithmetic takes `α` to be an ordered field with square roots.

Two conventions make the class suitable for arithmetic with an undefined value ("not a number") as
well as for a field:

* comparisons are `Bool`-valued, and a comparison with an undefined value is `false` in both
  directions, so `lt a b = false` does not give `le b a = true`;
* `max` and `min` return the *other* operand when one of the two is undefined.

The arithmetic is used in the order in which it is written; nothing in the library reassociates.
-/

namespace StagedQP

/-- The operations of one kind of number. No law is assumed. -/
class Scalar (α : Type) extends Zero α, One α, Add α, Sub α, Mul α, Div α, Neg α where
  /-- `a < b`; false when an operand is undefined. -/
  lt : α → α → Bool
  /-- `a ≤ b`; false when an operand is undefined. -/
  le : α → α → Bool
  /-- The larger operand, or the defined one. -/
  max : α → α → α
  /-- The smaller operand, or the defined one. -/
  min : α → α → α
  /-- Absolute value. -/
  abs : α → α
  /-- Square root. -/
  sqrt : α → α
  /-- Neither infinite nor undefined. -/
  isFinite : α → Bool
  /-- The number nearest to a natural number. -/
  ofNat : Nat → α
  /-- `decimal m e` is the number nearest to `m / 10 ^ e`. -/
  decimal : Nat → Nat → α

namespace Scalar

variable {α : Type} [Scalar α]

/-- Equal to zero, of either sign; an undefined value is not. -/
@[inline] def isZero (a : α) : Bool := le a 0 && le 0 a

/-- One half. -/
@[inline] def half : α := decimal 5 1

/-! ## Sums

Both sums run from the lowest index up. `sumUpTo` has no starting value, so a sum of one term is
that term; the empty sum is `0`. -/

/-- `a + f 0 + f 1 + … + f (n - 1)`. -/
@[specialize] def addUpTo (a : α) (f : Nat → α) : Nat → α
  | 0 => a
  | n + 1 => addUpTo a f n + f n

/-- `f 0 + f 1 + … + f (n - 1)`. -/
@[specialize] def sumUpTo (f : Nat → α) : Nat → α
  | 0 => 0
  | n + 1 => addUpTo (f 0) (fun i => f (i + 1)) n

/-- The fold of `max` over `f 0, …, f (n - 1)`, from `a`. -/
@[specialize] def maxUpTo (a : α) (f : Nat → α) : Nat → α
  | 0 => a
  | n + 1 => max (maxUpTo a f n) (f n)

end Scalar

end StagedQP
