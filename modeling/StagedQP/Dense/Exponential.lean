import StagedQP.Dense.Product

/-!
# The exponential of a matrix

`Mat.exp` halves the matrix until its fourth and sixth powers (or the matrix itself) have norm at
most one, sums the exponential series to degree `20`, and squares the sum once per halving. Since
every power of degree `12` and more is bounded through the fourth and the sixth, the part of the
series left out is below `1 / 20!` of the norm of the identity, beyond double precision; measuring
the powers rather than the matrix avoids needless squarings for matrices far from symmetric.

A matrix of one entry has the exponential of that entry. Infinite and undefined entries spread
through the products and end in an answer that is not finite.
-/

namespace StagedQP

namespace Mat

variable {α : Type} [Scalar α]

open Scalar (le half)

/-- The largest sum of absolute entries over the columns. -/
def columnNorm (m : Mat α) : α :=
  Scalar.maxUpTo 0 (fun j => Scalar.sumUpTo (fun i => Scalar.abs (m.get i j)) m.rows) m.cols

/-- Number of halvings, at most `bound`, after which a matrix with norm `n1` whose fourth and sixth
powers have norms `n4` and `n6` is small. -/
def halvings (n1 n4 n6 : α) : (bound : Nat) → Nat
  | 0 => 0
  | bound + 1 =>
    if le n1 1 || (le n4 1 && le n6 1) then 0
    else
      halvings (n1 * half) (n4 / Scalar.ofNat 16) (n6 / Scalar.ofNat 64) bound + 1

/-- The series `I + m/k (I + m/(k+1) (I + …))` with `terms` factors. -/
def seriesFrom (m : Mat α) (k : Nat) : (terms : Nat) → Mat α
  | 0 => identity m.rows m.rows
  | terms + 1 =>
    (identity m.rows m.rows).add
      ((m.mul (seriesFrom m (k + 1) terms)).map (· / Scalar.ofNat k))

/-- `m` halved `s` times. -/
def halve (m : Mat α) : (s : Nat) → Mat α
  | 0 => m
  | s + 1 => halve (m.scale half) s

/-- `m` squared `s` times. -/
def squareTimes (m : Mat α) : (s : Nat) → Mat α
  | 0 => m
  | s + 1 => squareTimes (m.mul m) s

/-- The exponential of a square matrix; `scalarExp` is the exponential of a number. -/
def exp (scalarExp : α → α) (m : Mat α) : Mat α :=
  if m.rows = 1 then m.map scalarExp
  else
    let m2 := m.mul m
    let m4 := m2.mul m2
    let m6 := m4.mul m2
    let s := halvings m.columnNorm m4.columnNorm m6.columnNorm 1100
    squareTimes (seriesFrom (halve m s) 1 20) s

end Mat

end StagedQP
