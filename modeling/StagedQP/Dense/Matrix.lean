import StagedQP.Dense.Vector

/-!
# Matrices

A matrix carries its shape and its entries column after column in one array: entry `(i, j)` of a
matrix with `rows` rows is at position `i + j * rows`. Reading is total, and an entry outside the
shape is `0`. As for vectors, every operation is given by its shape and its entries through
`Mat.ofFn`, with `Mat.get_ofFn` as the fact to reason from.

Empty shapes are legal and meaningful: a stage without states has state blocks of zero columns, but
still with their rows.
-/

namespace StagedQP

/-- A dense matrix, stored column after column. -/
structure Mat (α : Type) where
  /-- Number of rows. -/
  rows : Nat
  /-- Number of columns. -/
  cols : Nat
  /-- The entries, column after column. -/
  data : Array α

namespace Mat

variable {α : Type}

/-- The `rows × cols` matrix with entry `f i j` at `(i, j)`. -/
@[specialize] def ofFn (rows cols : Nat) (f : Nat → Nat → α) : Mat α :=
  ⟨rows, cols, Array.ofFn fun p : Fin (rows * cols) => f (p.1 % rows) (p.1 / rows)⟩

@[simp] theorem rows_ofFn (rows cols : Nat) (f : Nat → Nat → α) :
    (ofFn rows cols f).rows = rows := rfl

@[simp] theorem cols_ofFn (rows cols : Nat) (f : Nat → Nat → α) :
    (ofFn rows cols f).cols = cols := rfl

/-- The number of stored entries is the number that the shape calls for. -/
def WellFormed (m : Mat α) : Prop := m.data.size = m.rows * m.cols

theorem wellFormed_ofFn (rows cols : Nat) (f : Nat → Nat → α) :
    (ofFn rows cols f).WellFormed := by
  simp [WellFormed, ofFn]

/-- Position of entry `(i, j)` among the entries of a matrix with `rows` rows. -/
theorem position_lt {rows cols i j : Nat} (hi : i < rows) (hj : j < cols) :
    i + j * rows < rows * cols :=
  calc i + j * rows < rows + j * rows := Nat.add_lt_add_right hi _
    _ = (j + 1) * rows := by rw [Nat.succ_mul, Nat.add_comm]
    _ ≤ cols * rows := Nat.mul_le_mul_right _ hj
    _ = rows * cols := Nat.mul_comm ..

section Read

variable [Zero α]

/-- Entry `(i, j)`, and `0` outside the shape. -/
@[inline] def get (m : Mat α) (i j : Nat) : α :=
  if i < m.rows then m.data.getD (i + j * m.rows) 0 else 0

theorem get_ofFn (rows cols : Nat) (f : Nat → Nat → α) (i j : Nat) :
    (ofFn rows cols f).get i j = if i < rows ∧ j < cols then f i j else 0 := by
  by_cases hi : i < rows
  · by_cases hj : j < cols
    · have hp : i + j * rows < rows * cols := position_lt hi hj
      have hd : (i + j * rows) / rows = j := by
        rw [Nat.add_mul_div_right _ _ (Nat.zero_lt_of_lt hi), Nat.div_eq_of_lt hi, Nat.zero_add]
      simp [get, ofFn, hi, hj, hp, hd, Nat.mod_eq_of_lt hi]
    · have hp : ¬ i + j * rows < rows * cols := by
        have : cols * rows ≤ j * rows := Nat.mul_le_mul_right _ (Nat.not_lt.1 hj)
        rw [Nat.mul_comm rows]
        omega
      simp [get, ofFn, hi, hj, hp]
  · simp [get, ofFn, hi]

theorem get_ofFn_of_lt {rows cols : Nat} (f : Nat → Nat → α) {i j : Nat} (hi : i < rows)
    (hj : j < cols) : (ofFn rows cols f).get i j = f i j := by
  rw [get_ofFn, if_pos ⟨hi, hj⟩]

/-- Well-formed matrices of one shape with equal entries are equal. -/
theorem ext_get {m m' : Mat α} (hm : m.WellFormed) (hm' : m'.WellFormed)
    (hr : m.rows = m'.rows) (hc : m.cols = m'.cols)
    (h : ∀ i < m.rows, ∀ j < m.cols, m.get i j = m'.get i j) : m = m' := by
  cases m with
  | mk r c d =>
    cases m' with
    | mk r' c' d' =>
      obtain rfl : r = r' := hr
      obtain rfl : c = c' := hc
      have hd : d.size = r * c := hm
      have hd' : d'.size = r * c := hm'
      congr 1
      refine Array.ext (hd.trans hd'.symm) fun p hp hp' => ?_
      have hrc : p < r * c := hd ▸ hp
      have hr0 : 0 < r := Nat.pos_of_ne_zero fun h0 => by simp [h0] at hrc
      have hi : p % r < r := Nat.mod_lt _ hr0
      have hj : p / r < c := (Nat.div_lt_iff_lt_mul hr0).2 (Nat.mul_comm r c ▸ hrc)
      have hpos : p % r + p / r * r = p := by
        rw [Nat.mul_comm]
        exact Nat.mod_add_div p r
      have := h (p % r) hi (p / r) hj
      simpa [get, hi, hpos, hp, hp'] using this

/-- The matrix of zeros. -/
def zeros (rows cols : Nat) : Mat α := ofFn rows cols fun _ _ => 0

@[simp] theorem rows_zeros (rows cols : Nat) : (zeros rows cols : Mat α).rows = rows := rfl

@[simp] theorem cols_zeros (rows cols : Nat) : (zeros rows cols : Mat α).cols = cols := rfl

@[simp] theorem get_zeros (rows cols i j : Nat) : (zeros rows cols : Mat α).get i j = 0 := by
  simp [zeros, get_ofFn]

/-- Every entry equal to `a`. -/
def const (rows cols : Nat) (a : α) : Mat α := ofFn rows cols fun _ _ => a

/-- `a` where the row index equals the column index, `0` elsewhere. -/
def diagonal (rows cols : Nat) (a : α) : Mat α :=
  ofFn rows cols fun i j => if i = j then a else 0

/-- The square matrix with `a` on the diagonal. -/
def scaledIdentity (n : Nat) (a : α) : Mat α := diagonal n n a

/-- Ones on the diagonal of a matrix that need not be square. -/
def identity [One α] (rows cols : Nat) : Mat α := diagonal rows cols 1

/-- The `rows × cols` block whose upper left corner is `(i, j)`. -/
def block (m : Mat α) (i j rows cols : Nat) : Mat α :=
  ofFn rows cols fun a b => m.get (i + a) (j + b)

@[simp] theorem rows_block (m : Mat α) (i j rows cols : Nat) :
    (m.block i j rows cols).rows = rows := rfl

@[simp] theorem cols_block (m : Mat α) (i j rows cols : Nat) :
    (m.block i j rows cols).cols = cols := rfl

theorem get_block (m : Mat α) (i j rows cols a b : Nat) :
    (m.block i j rows cols).get a b =
      if a < rows ∧ b < cols then m.get (i + a) (j + b) else 0 := get_ofFn ..

/-- The entries row after row. -/
def toRows (m : Mat α) : List α :=
  (List.range m.rows).flatMap fun i => (List.range m.cols).map fun j => m.get i j

end Read

section Arithmetic

variable [Scalar α]

/-- Entrywise image. -/
@[specialize] def map (f : α → α) (m : Mat α) : Mat α :=
  ofFn m.rows m.cols fun i j => f (m.get i j)

/-- Entrywise combination of two matrices of one shape. -/
@[specialize] def zipWith (f : α → α → α) (m m' : Mat α) : Mat α :=
  ofFn m.rows m.cols fun i j => f (m.get i j) (m'.get i j)

/-- Every entry times `a`. -/
def scale (m : Mat α) (a : α) : Mat α := map (· * a) m

/-- The sum `m + m'`. -/
def add (m m' : Mat α) : Mat α := zipWith (· + ·) m m'

/-- The difference `m - m'`. -/
def sub (m m' : Mat α) : Mat α := zipWith (· - ·) m m'

/-- The negation `-m`. -/
def neg (m : Mat α) : Mat α := map (- ·) m

/-- Row `i` times entry `i` of `w`. -/
def scaleRows (w : Vec α) (m : Mat α) : Mat α :=
  ofFn m.rows m.cols fun i j => m.get i j * w.get i

/-- Each pair of opposite entries replaced by its average; the diagonal stays as it is. -/
def symmetrize (m : Mat α) : Mat α :=
  ofFn m.rows m.cols fun i j =>
    if i < j then Scalar.half * (m.get i j + m.get j i)
    else if j < i then Scalar.half * (m.get j i + m.get i j)
    else m.get i j

/-- Largest absolute entry, `0` for an empty matrix; undefined entries are passed over. -/
def maxAbs (m : Mat α) : α := Vec.infNorm ⟨m.data⟩

/-- No entry is infinite or undefined. -/
def allFinite (m : Mat α) : Bool := m.data.all Scalar.isFinite

end Arithmetic

end Mat

end StagedQP
