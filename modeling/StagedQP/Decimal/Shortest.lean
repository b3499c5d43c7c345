import StagedQP.Decimal.Rounded

/-!
# Shortest decimals

`Decimal.shortest` writes a double with the fewest significant digits that read back to it, in
positional form whatever its size. A decimal reads back when it lies in the interval of the reals
that round to the double, whose ends belong to it for an even mantissa. On the grid of `n` digits
the candidates are the two neighbours of the value; the first grid on which one of them reads back
is taken, and of two the nearer, the upper one on a tie.
-/

namespace StagedQP.Decimal

/-- The reals that round to a double, in quarters of the unit of its last place. -/
structure RoundingInterval where
  /-- The lower end. -/
  lower : Nat
  /-- The value itself. -/
  centre : Nat
  /-- The upper end. -/
  upper : Nat
  /-- The ends belong to the interval. -/
  closed : Bool
  /-- The quarter unit is `2 ^ exponent`. -/
  exponent : Int

/-- The interval around `m * 2 ^ q`. Below a power of two the doubles are twice as dense, unless it
is the least of them. -/
def RoundingInterval.ofBinary (m : Nat) (q : Int) : RoundingInterval where
  lower := 4 * m - if m = fractionModulus ∧ leastExponent < q then 1 else 2
  centre := 4 * m
  upper := 4 * m + 2
  closed := m % 2 = 0
  exponent := q - 2

/-- The decimal `c * 10 ^ k` and the point `a` of the interval's scale over one denominator. -/
def RoundingInterval.compared (r : RoundingInterval) (c : Nat) (k : Int) (a : Nat) : Nat × Nat :=
  (c * tenPow k.toNat * twoPow (-r.exponent).toNat,
    a * twoPow r.exponent.toNat * tenPow (-k).toNat)

/-- The decimal `c * 10 ^ k` lies in the interval. -/
def RoundingInterval.contains (r : RoundingInterval) (c : Nat) (k : Int) : Bool :=
  let (x, lo) := r.compared c k r.lower
  let (y, hi) := r.compared c k r.upper
  if r.closed then lo ≤ x && y ≤ hi else lo < x && y < hi

/-- The neighbours of the value on the grid of multiples of `10 ^ k` that read back: the nearer
one, or the upper on a tie. -/
def RoundingInterval.nearest? (r : RoundingInterval) (k : Int) : Option Nat :=
  let (unit, value) := r.compared 1 k r.centre
  let below := value / unit
  let above := below + 1
  match r.contains below k, r.contains above k with
  | true, true => some (if 2 * (value % unit) < unit then below else above)
  | true, false => some below
  | false, true => some above
  | false, false => none

/-- The decimal `c * 10 ^ k` of fewest digits that reads back, searched from `n` digits on; `e` is
the exponent of the first digit. Seventeen digits always suffice. -/
def RoundingInterval.shortestFrom (r : RoundingInterval) (e : Int) (n : Nat) :
    (fuel : Nat) → Nat × Int
  | 0 => (0, 0)
  | fuel + 1 =>
    let k := e - n + 1
    match r.nearest? k with
    | some c => (c, k)
    | none => shortestFrom r e (n + 1) fuel

/-- The digits of `c * 10 ^ k`, all before and after the point, with no zeros at the end of the
fraction. -/
def positional (c : Nat) (k : Int) : String :=
  if 0 ≤ k then toString (c * tenPow k.toNat)
  else
    let places := (-k).toNat
    let whole := toString (c / tenPow places)
    let fraction := (paddedDigits places (c % tenPow places)).toList
    let kept := (fraction.reverse.dropWhile (· == '0')).reverse
    if kept.isEmpty then whole else whole ++ "." ++ String.ofList kept

/-- The shortest positional text that reads back. -/
def shortest (x : Float) : String :=
  match Parts.ofFloat x with
  | .undefined => Specials.inMessages.undefined
  | .infinite negative => signText negative ++ Specials.inMessages.infinite
  | .finite negative m q =>
    if m = 0 then signText negative ++ "0"
    else
      let (c, k) := (RoundingInterval.ofBinary m q).shortestFrom
        (Magnitude.ofBinary m q).exponent 1 20
      signText negative ++ positional c k

end StagedQP.Decimal
