import StagedQP.Word

/-!
# Reading numerals

A numeral is a sign, digits with an optional point, and an optional power of ten. Its value is the
double nearest to the decimal it names. `Numeral.read?` also knows the words for infinity and for
the undefined value, in any mixture of capitals.
-/

namespace StagedQP.Decimal

/-- The decimal `mantissa * 10 ^ exponent`, negated if `negative`. -/
structure Numeral where
  /-- The sign. -/
  negative : Bool
  /-- All digits, as one number. -/
  mantissa : Nat
  /-- The power of ten. -/
  exponent : Int
  deriving DecidableEq

namespace Numeral

/-- The number that a list of decimal digits stands for. -/
def digitsValue (digits : List Char) : Nat :=
  digits.foldl (fun n c => 10 * n + (c.toNat - '0'.toNat)) 0

/-- An optional sign, and what follows it. -/
def splitSign : List Char → Bool × List Char
  | '-' :: rest => (true, rest)
  | '+' :: rest => (false, rest)
  | rest => (false, rest)

/-- The exponent part: nothing, or a mark followed by a sign and at least one digit. -/
def exponent? : List Char → Option Int
  | [] => some 0
  | c :: rest =>
    if c = 'e' ∨ c = 'E' then
      let (negative, digits) := splitSign rest
      if digits.isEmpty ∨ ¬ digits.all Char.isDigit then none
      else if negative then some (-(digitsValue digits : Int))
      else some (digitsValue digits)
    else none

/-- A numeral: at least one digit before or after the point. -/
def ofText? (text : List Char) : Option Numeral :=
  let (negative, body) := splitSign text
  let whole := body.takeWhile Char.isDigit
  let afterWhole := body.dropWhile Char.isDigit
  let (fraction, rest) :=
    match afterWhole with
    | '.' :: tail => (tail.takeWhile Char.isDigit, tail.dropWhile Char.isDigit)
    | tail => ([], tail)
  if whole.isEmpty ∧ fraction.isEmpty then none
  else (exponent? rest).map fun e =>
    ⟨negative, digitsValue (whole ++ fraction), e - fraction.length⟩

/-- The double nearest to the numeral. Powers of ten far outside the range of doubles are decided
by their size. -/
def toFloat (x : Numeral) : Float :=
  let size : Int := (Nat.toDigits 10 x.mantissa).length + x.exponent
  let magnitude : Float :=
    if x.mantissa = 0 ∨ size < -400 then 0
    else if 400 < size then 1 / 0
    else if x.exponent < 0 then Float.ofScientific x.mantissa true (-x.exponent).toNat
    else Float.ofScientific x.mantissa false x.exponent.toNat
  if x.negative then -magnitude else magnitude

/-- The double that a text names, if it is a numeral or one of the words for the special values. -/
def read? (text : String) : Option Float :=
  let (negative, body) := splitSign text.toList
  let word := body.map Char.toLower
  if word = "inf".toList ∨ word = "infinity".toList then
    some (if negative then -(1 / 0) else 1 / 0)
  else if word = "nan".toList then some (0 / 0)
  else (ofText? text.toList).map toFloat

/-- The machine word that a text of digits names; a plus sign may precede it. -/
def readWord? (text : String) : Option Nat :=
  let digits := match text.toList with
    | '+' :: rest => rest
    | all => all
  if digits.isEmpty ∨ ¬ digits.all Char.isDigit then none
  else
    let n := digitsValue digits
    if n < wordModulus then some n else none

end Numeral

end StagedQP.Decimal
