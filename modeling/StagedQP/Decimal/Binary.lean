/-!
# The exact value of a double

Number text is rounded from the exact value of a double, so the first thing is to have that value:
a sign, a natural number and a power of two. `Magnitude` is a nonnegative rational as a quotient of
natural numbers, which is all the rounding modules need.
-/

namespace StagedQP.Decimal

/-- A double, taken apart. -/
inductive Parts where
  /-- The undefined value. -/
  | undefined
  /-- An infinity. -/
  | infinite (negative : Bool)
  /-- The value `mantissa * 2 ^ exponent`, negated if `negative`. -/
  | finite (negative : Bool) (mantissa : Nat) (exponent : Int)

/-- The power `2 ^ n`. -/
def twoPow (n : Nat) : Nat := Nat.pow 2 n

/-- The power `10 ^ n`. -/
def tenPow (n : Nat) : Nat := Nat.pow 10 n

/-- Number of values of the fraction field of a double. -/
def fractionModulus : Nat := 4503599627370496

/-- The least bit pattern of a negative double. -/
def signBit : Nat := 9223372036854775808

/-- The exponent of the least positive double. -/
def leastExponent : Int := -1074

/-- The sign, mantissa and exponent that the bits of a double stand for. -/
def Parts.ofBits (bits : UInt64) : Parts :=
  let n := bits.toNat
  let negative := signBit ≤ n
  let field := n / fractionModulus % 2048
  let fraction := n % fractionModulus
  if field = 2047 then
    if fraction = 0 then .infinite negative else .undefined
  else if field = 0 then .finite negative fraction leastExponent
  else .finite negative (fraction + fractionModulus) (leastExponent + (field - 1))

/-- The parts of a double. -/
def Parts.ofFloat (x : Float) : Parts := .ofBits x.toBits

/-- A nonnegative rational number, `num / den` with `den` positive. -/
structure Magnitude where
  /-- The numerator. -/
  num : Nat
  /-- The denominator. -/
  den : Nat

/-- The rational `mantissa * 2 ^ exponent`. -/
def Magnitude.ofBinary (mantissa : Nat) (exponent : Int) : Magnitude :=
  if 0 ≤ exponent then ⟨mantissa * twoPow exponent.toNat, 1⟩
  else ⟨mantissa, twoPow (-exponent).toNat⟩

/-- The rational times `10 ^ e`. -/
def Magnitude.shift (x : Magnitude) (e : Int) : Magnitude :=
  if 0 ≤ e then ⟨x.num * tenPow e.toNat, x.den⟩ else ⟨x.num, x.den * tenPow (-e).toNat⟩

/-- The number `n`, at most `fuel`, of factors `10` that bring the rational to at least one. -/
def Magnitude.deficit (x : Magnitude) : (fuel : Nat) → Nat
  | 0 => 0
  | fuel + 1 =>
    if x.den ≤ x.num then 0 else Magnitude.deficit ⟨x.num * 10, x.den⟩ fuel + 1

/-- The decimal exponent `e` of a positive rational, `10 ^ e ≤ x < 10 ^ (e + 1)`. A positive double
is at least `10 ^ (-324)`. -/
def Magnitude.exponent (x : Magnitude) : Int :=
  if x.den ≤ x.num then (Nat.toDigits 10 (x.num / x.den)).length - 1
  else -(x.deficit 400 : Int)

/-- The decimal digits of a natural number, padded with zeros on the left to `width`. -/
def paddedDigits (width n : Nat) : String :=
  let digits := Nat.toDigits 10 n
  String.ofList (List.replicate (width - digits.length) '0' ++ digits)

/-- A minus sign for a negative number. -/
def signText (negative : Bool) : String := if negative then "-" else ""

end StagedQP.Decimal
