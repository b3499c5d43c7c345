import StagedQP.Proofs.ExactArithmetic

/-!
# Infinities and the undefined value

Rounded arithmetic has values that are not numbers: a positive and a negative infinity, and an
undefined value for what has no result, such as `0 · ∞` or `∞ - ∞`. `Scalar` leaves room for them
and says nothing about them. Here is what the solver's tests rely on, as laws
(`UndefinedLaws`), and an arithmetic that has them, `Extended K`: an ordered field with the three
values added.

```text
sums, differences, products   finite only if both operands are
max                           the other operand where one is undefined
comparisons                   false where an operand is undefined
```

The first line makes values that are not finite spread through every sum of products, also through
a product with zero. The second lets an undefined value disappear from a norm.

There is one zero, so a number other than zero divided by it is infinite with the sign of the
number.

## Main results

* `Extended.undefinedLaws` — the extended numbers have the laws.
* `Vec.abs_le_of_infNorm_le` — a bound on a norm bounds the entries that are defined.
* `Mat.finite_of_addMulVec` — one finite entry of a product, a finite vector.
-/

namespace StagedQP

/-! ## The laws -/

/-- An undefined value is not even at most itself. -/
def Scalar.Undefined {α : Type} [Scalar α] (a : α) : Prop := Scalar.le a a = false

instance {α : Type} [Scalar α] (a : α) : Decidable (Scalar.Undefined a) :=
  inferInstanceAs (Decidable (Scalar.le a a = false))

open Scalar (Undefined)

/-- How undefined and infinite values behave in sums, products and tests. -/
class UndefinedLaws (α : Type) [Scalar α] : Prop where
  /-- Zero is defined. -/
  zero : ¬ Undefined (0 : α)
  /-- The larger of two values is defined if the first is. -/
  max : ∀ a b : α, ¬ Undefined a → ¬ Undefined (Scalar.max a b)
  /-- What bounds the larger of two values bounds the first, if that is defined. -/
  le_of_max_left : ∀ a b c : α, ¬ Undefined a → Scalar.le (Scalar.max a b) c = true →
    Scalar.le a c = true
  /-- And the second. -/
  le_of_max_right : ∀ a b c : α, ¬ Undefined b → Scalar.le (Scalar.max a b) c = true →
    Scalar.le b c = true
  /-- An absolute value is defined if the value is. -/
  abs : ∀ a : α, ¬ Undefined a → ¬ Undefined (Scalar.abs a)
  /-- Only finite values have a finite bound on both sides. -/
  finite_of_abs_le : ∀ a c : α, Scalar.le (Scalar.abs a) c = true → Scalar.isFinite c = true →
    Scalar.isFinite a = true
  /-- A finite sum has finite operands. -/
  finite_add : ∀ a b : α, Scalar.isFinite (a + b) = true →
    Scalar.isFinite a = true ∧ Scalar.isFinite b = true
  /-- A finite difference has finite operands. -/
  finite_sub : ∀ a b : α, Scalar.isFinite (a - b) = true →
    Scalar.isFinite a = true ∧ Scalar.isFinite b = true
  /-- A finite product has finite operands. -/
  finite_mul : ∀ a b : α, Scalar.isFinite (a * b) = true →
    Scalar.isFinite a = true ∧ Scalar.isFinite b = true

/-! ## Extended numbers -/

/-- Numbers, two infinities and an undefined value. -/
inductive Extended (K : Type) where
  /-- A number. -/
  | finite (a : K)
  /-- An infinity. -/
  | infinite (negative : Bool)
  /-- No number. -/
  | undefined
  deriving DecidableEq

namespace Extended

section Arithmetic

variable {K : Type} [Field K] [LinearOrder K] [SquareRoot K]

/-- The number is negative. -/
def below (a : K) : Bool := decide (a < 0)

/-- The value with its sign changed. -/
def neg : Extended K → Extended K
  | finite a => finite (-a)
  | infinite s => infinite !s
  | undefined => undefined

/-- The sum; infinities of different signs have none. -/
def add : Extended K → Extended K → Extended K
  | finite a, finite b => finite (a + b)
  | finite _, infinite s => infinite s
  | infinite s, finite _ => infinite s
  | infinite s, infinite s' => if s = s' then infinite s else undefined
  | _, _ => undefined

/-- The product; zero and an infinity have none. -/
def mul : Extended K → Extended K → Extended K
  | finite a, finite b => finite (a * b)
  | finite a, infinite s => if a = 0 then undefined else infinite (below a != s)
  | infinite s, finite b => if b = 0 then undefined else infinite (s != below b)
  | infinite s, infinite s' => infinite (s != s')
  | _, _ => undefined

/-- The quotient; two zeros have none, nor have two infinities. -/
def div : Extended K → Extended K → Extended K
  | finite a, finite b =>
    if b = 0 then (if a = 0 then undefined else infinite (below a)) else finite (a / b)
  | finite _, infinite _ => finite 0
  | infinite s, finite b => infinite (s != below b)
  | _, _ => undefined

/-- The order; nothing compares with the undefined value. -/
def le : Extended K → Extended K → Bool
  | undefined, _ => false
  | _, undefined => false
  | infinite s, infinite s' => s || !s'
  | infinite s, finite _ => s
  | finite _, infinite s => !s
  | finite a, finite b => decide (a ≤ b)

/-- The strict order. -/
def lt : Extended K → Extended K → Bool
  | undefined, _ => false
  | _, undefined => false
  | a, b => !le b a

/-- The larger operand, or the defined one. -/
def max : Extended K → Extended K → Extended K
  | undefined, b => b
  | a, undefined => a
  | a, b => if le a b then b else a

/-- The smaller operand, or the defined one. -/
def min : Extended K → Extended K → Extended K
  | undefined, b => b
  | a, undefined => a
  | a, b => if le a b then a else b

/-- The absolute value. -/
def abs : Extended K → Extended K
  | finite a => finite |a|
  | infinite _ => infinite false
  | undefined => undefined

/-- The square root; a negative value has none. -/
def sqrt : Extended K → Extended K
  | finite a => if a < 0 then undefined else finite (SquareRoot.sqrt a)
  | infinite s => if s then undefined else infinite false
  | undefined => undefined

/-- It is a number. -/
def isFinite : Extended K → Bool
  | finite _ => true
  | _ => false

instance : Scalar (Extended K) where
  zero := finite 0
  one := finite 1
  add := add
  sub a b := add a (neg b)
  mul := mul
  div := div
  neg := neg
  lt := lt
  le := le
  max := max
  min := min
  abs := abs
  sqrt := sqrt
  isFinite := isFinite
  ofNat n := finite n
  decimal m e := finite (Scalar.decimal m e)

end Arithmetic

/-! ### The order -/

section Order

variable {K : Type} [LinearOrder K] {a b c : Extended K}

theorem le_self (ha : a ≠ undefined) : le a a = true := by
  cases a with
  | finite a => simp [le]
  | infinite s => simp [le]
  | undefined => exact absurd rfl ha

theorem le_trans (hab : le a b = true) (hbc : le b c = true) : le a c = true := by
  cases a <;> cases b <;> cases c <;> simp_all [le]
  case finite.finite.finite => exact hab.trans hbc
  case infinite.infinite.infinite s s' s'' => cases s' <;> simp_all

/-- Two defined values compare one way or the other. -/
theorem le_total (ha : a ≠ undefined) (hb : b ≠ undefined) (h : ¬ le a b = true) :
    le b a = true := by
  cases a <;> cases b <;> simp_all [le]
  case finite.finite => exact h.le

theorem max_undefined (a : Extended K) : max a undefined = a := by
  cases a <;> rfl

/-- The larger of two defined values. -/
theorem max_of_defined (ha : a ≠ undefined) (hb : b ≠ undefined) :
    max a b = if le a b then b else a := by
  cases a <;> cases b <;> simp_all [max]

theorem max_ne_undefined (b : Extended K) (ha : a ≠ undefined) : max a b ≠ undefined := by
  by_cases hb : b = undefined
  · rwa [hb, max_undefined]
  · rw [max_of_defined ha hb]
    split
    · exact hb
    · exact ha

theorem le_of_max_left (ha : a ≠ undefined) (h : le (max a b) c = true) : le a c = true := by
  by_cases hb : b = undefined
  · rwa [hb, max_undefined] at h
  · rw [max_of_defined ha hb] at h
    split at h
    · exact le_trans ‹_› h
    · exact h

theorem le_of_max_right (hb : b ≠ undefined) (h : le (max a b) c = true) : le b c = true := by
  by_cases ha : a = undefined
  · rw [ha] at h
    exact h
  · rw [max_of_defined ha hb] at h
    split at h
    · exact h
    · exact le_trans (le_total ha hb ‹_›) h

end Order

/-! ### Finite results -/

section Finite

variable {K : Type} [Field K] [LinearOrder K] {a b c : Extended K}

/-- Neither infinity is within finite bounds. -/
theorem finite_of_abs_le (h : le (abs a) c = true) (hc : isFinite c = true) :
    isFinite a = true := by
  cases a <;> cases c <;> simp_all [le, abs, isFinite]

omit [LinearOrder K] in
theorem finite_of_add (h : isFinite (add a b) = true) :
    isFinite a = true ∧ isFinite b = true := by
  cases a <;> cases b <;> simp only [add] at h <;> try split at h
  all_goals first | exact ⟨rfl, rfl⟩ | cases h

omit [LinearOrder K] in
theorem finite_of_neg (h : isFinite (neg a) = true) : isFinite a = true := by
  cases a <;> simp_all [neg, isFinite]

theorem finite_of_mul (h : isFinite (mul a b) = true) :
    isFinite a = true ∧ isFinite b = true := by
  cases a <;> cases b <;> simp only [mul] at h <;> try split at h
  all_goals first | exact ⟨rfl, rfl⟩ | cases h

end Finite

/-! ### The laws -/

section Laws

variable {K : Type} [Field K] [LinearOrder K] [SquareRoot K]

theorem undefined_iff (a : Extended K) : Undefined a ↔ a = undefined := by
  constructor
  · intro hun
    by_contra ha
    exact absurd (le_self ha) (ne_true_of_eq_false hun)
  · rintro rfl
    rfl

instance undefinedLaws : UndefinedLaws (Extended K) where
  zero := by
    rw [undefined_iff]
    exact fun h => nomatch h
  max a b ha := by
    rw [undefined_iff] at ha ⊢
    exact max_ne_undefined b ha
  le_of_max_left a b c ha h := by
    rw [undefined_iff] at ha
    exact le_of_max_left ha h
  le_of_max_right a b c hb h := by
    rw [undefined_iff] at hb
    exact le_of_max_right hb h
  abs a ha := by
    rw [undefined_iff] at ha ⊢
    cases a with
    | undefined => exact absurd rfl ha
    | finite a => exact fun h => nomatch h
    | infinite s => exact fun h => nomatch h
  finite_of_abs_le a c := finite_of_abs_le
  finite_add a b := finite_of_add
  finite_sub a b h := ⟨(finite_of_add h).1, finite_of_neg (finite_of_add h).2⟩
  finite_mul a b := finite_of_mul

end Laws

end Extended

/-! ## Accumulations -/

section Accumulations

variable {α : Type} [Scalar α] [UndefinedLaws α]

open Scalar (addUpTo sumUpTo maxUpTo)

/-- A finite sum has a finite start and finite terms. -/
theorem finite_of_addUpTo {a : α} {f : Nat → α} {n : Nat}
    (h : Scalar.isFinite (addUpTo a f n) = true) :
    Scalar.isFinite a = true ∧ ∀ i < n, Scalar.isFinite (f i) = true := by
  induction n with
  | zero => exact ⟨h, fun i hi => absurd hi (Nat.not_lt_zero i)⟩
  | succ n ih =>
      obtain ⟨hinit, hlast⟩ := UndefinedLaws.finite_add _ _ h
      obtain ⟨hstart, hterms⟩ := ih hinit
      refine ⟨hstart, fun i hi => ?_⟩
      by_cases hin : i = n
      · exact hin ▸ hlast
      · exact hterms i (by omega)

/-- A fold of `max` is defined if its start is. -/
theorem defined_maxUpTo {a : α} (ha : ¬ Undefined a) (f : Nat → α) (n : Nat) :
    ¬ Undefined (maxUpTo a f n) := by
  induction n with
  | zero => exact ha
  | succ n ih => exact UndefinedLaws.max _ _ ih

/-- What bounds a fold of `max` bounds its terms, those that are defined. -/
theorem le_of_maxUpTo_le {a c : α} (ha : ¬ Undefined a) {f : Nat → α} {n : Nat}
    (h : Scalar.le (maxUpTo a f n) c = true) :
    ∀ i < n, ¬ Undefined (f i) → Scalar.le (f i) c = true := by
  induction n with
  | zero => exact fun i hi => absurd hi (Nat.not_lt_zero i)
  | succ n ih =>
      intro i hi hdefined
      by_cases hin : i = n
      · rw [hin] at hdefined ⊢
        exact UndefinedLaws.le_of_max_right _ _ _ hdefined h
      · have hinit := UndefinedLaws.le_of_max_left _ _ _ (defined_maxUpTo ha f n) h
        exact ih hinit i (by omega) hdefined

theorem Vec.defined_infNorm (v : Vec α) : ¬ Undefined v.infNorm :=
  defined_maxUpTo UndefinedLaws.zero _ _

/-- A bound on the norm of a vector bounds its entries, those that are defined. -/
theorem Vec.abs_le_of_infNorm_le {v : Vec α} {c : α} (h : Scalar.le v.infNorm c = true) {i : Nat}
    (hi : i < v.size) (hdefined : ¬ Undefined (v.get i)) :
    Scalar.le (Scalar.abs (v.get i)) c = true :=
  le_of_maxUpTo_le UndefinedLaws.zero h i hi (UndefinedLaws.abs _ hdefined)

/-- A finite product with a matrix is of finite entries, also where the matrix has a zero. -/
theorem Mat.finite_of_addMulVec {y v : Vec α} {m : Mat α} {i : Nat} (hi : i < y.size)
    (h : Scalar.isFinite ((addMulVec y m v).get i) = true) :
    ∀ j < m.cols, Scalar.isFinite (v.get j) = true := by
  rw [addMulVec, Vec.get_ofFn_of_lt _ hi] at h
  intro j hj
  exact (UndefinedLaws.finite_mul _ _ ((finite_of_addUpTo h).2 j hj)).2

end Accumulations

end StagedQP
