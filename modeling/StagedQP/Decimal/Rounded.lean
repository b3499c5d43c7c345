import StagedQP.Decimal.Binary

/-!
# Rounded decimals

Text with a given number of decimal places, in positional form (`fixed`) or with one digit before
the point and a power of ten (`scientific`). The exact value is rounded to the nearest decimal of
that form, a tie to the even last digit.
-/

namespace StagedQP.Decimal

/-- The integer nearest to `num / den`; a tie goes to the even one. -/
def roundHalfEven (num den : Nat) : Nat :=
  let q := num / den
  let r := 2 * (num % den)
  if r < den then q else if den < r then q + 1 else q + q % 2

/-- The value times `10 ^ places`, rounded. -/
def Magnitude.fixedUnits (x : Magnitude) (places : Nat) : Nat :=
  roundHalfEven (x.num * tenPow places) x.den

/-- Digits `units` with the last `places` of them after the point. -/
def pointText (units places : Nat) : String :=
  let whole := toString (units / tenPow places)
  if places = 0 then whole else whole ++ "." ++ paddedDigits places (units % tenPow places)

/-- The `places + 1` leading digits of a positive value as one number, and the exponent of the
first. Rounding up to the next power of ten moves the exponent. -/
def Magnitude.leading (x : Magnitude) (places : Nat) : Nat × Int :=
  let e := x.exponent
  let y := x.shift (places - e)
  let units := roundHalfEven y.num y.den
  if units < tenPow (places + 1) then (units, e) else (units / 10, e + 1)

/-- How a number that is not finite is written. -/
structure Specials where
  /-- The undefined value. -/
  undefined : String
  /-- Positive infinity; negative infinity has a minus sign before it. -/
  infinite : String

/-- The spelling of log lines and messages. -/
def Specials.inMessages : Specials := ⟨"NaN", "inf"⟩

/-- Text with `places` digits after the point. -/
def fixed (specials : Specials) (places : Nat) (x : Float) : String :=
  match Parts.ofFloat x with
  | .undefined => specials.undefined
  | .infinite negative => signText negative ++ specials.infinite
  | .finite negative m q =>
    signText negative ++ pointText ((Magnitude.ofBinary m q).fixedUnits places) places

/-- Text with one digit before the point, `places` after it, and a power of ten written without
padding or plus sign. -/
def scientific (specials : Specials) (places : Nat) (x : Float) : String :=
  match Parts.ofFloat x with
  | .undefined => specials.undefined
  | .infinite negative => signText negative ++ specials.infinite
  | .finite negative m q =>
    let (units, e) := if m = 0 then (0, 0) else (Magnitude.ofBinary m q).leading places
    signText negative ++ pointText units places ++ "e" ++ toString e

/-- Blanks on the left up to `width` characters. -/
def padLeft (width : Nat) (s : String) : String :=
  String.ofList (List.replicate (width - s.length) ' ') ++ s

end StagedQP.Decimal
