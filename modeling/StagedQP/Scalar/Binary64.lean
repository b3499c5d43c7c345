import StagedQP.Scalar

/-!
# Double precision

The scalar the programs run on. Lean's `Float` operations round to nearest, which is what the class
asks for; only `max` and `min` need care, since the order on `Float` is false on every comparison
with an undefined value.
-/

namespace StagedQP

namespace Binary64

/-- The larger operand, or the defined one. -/
@[inline] def maxNum (a b : Float) : Float :=
  if a.isNaN then b else if b.isNaN then a else if a < b then b else a

/-- The smaller operand, or the defined one. -/
@[inline] def minNum (a b : Float) : Float :=
  if a.isNaN then b else if b.isNaN then a else if b < a then b else a

end Binary64

instance : Scalar Float where
  zero := 0
  one := 1
  lt a b := a < b
  le a b := a ≤ b
  max := Binary64.maxNum
  min := Binary64.minNum
  abs := Float.abs
  sqrt := Float.sqrt
  isFinite := Float.isFinite
  ofNat := Float.ofNat
  decimal m e := Float.ofScientific m true e

end StagedQP
