import StagedQP.Scalar

/-!
# Vectors

A vector is its list of entries, held in an array. Reading is total: an entry past the end is `0`,
so two vectors are equal when their sizes and all their entries agree (`Vec.ext_get`). Every
operation is given by its size and its entries, through `Vec.ofFn`; `Vec.size_ofFn` and
`Vec.get_ofFn` are the two facts from which everything else about an operation follows.

Operations on two vectors take the size of the first. The library calls them on vectors of one
size only.
-/

namespace StagedQP

/-- A vector of numbers. -/
structure Vec (α : Type) where
  /-- The entries, first to last. -/
  entries : Array α
  deriving BEq

namespace Vec

variable {α : Type}

/-- Number of entries. -/
@[inline] def size (v : Vec α) : Nat := v.entries.size

/-- The vector of size `n` with entry `f i` at `i`. -/
@[specialize] def ofFn (n : Nat) (f : Nat → α) : Vec α := ⟨Array.ofFn fun i : Fin n => f i⟩

/-- The vector with these entries. -/
def ofList (l : List α) : Vec α := ⟨l.toArray⟩

/-- The entries, first to last. -/
def toList (v : Vec α) : List α := v.entries.toList

/-- The empty vector. -/
def empty : Vec α := ⟨#[]⟩

/-- `n` entries equal to `a`. -/
def const (n : Nat) (a : α) : Vec α := ofFn n fun _ => a

@[simp] theorem size_ofFn (n : Nat) (f : Nat → α) : (ofFn n f).size = n := by
  simp [ofFn, size]

@[simp] theorem size_const (n : Nat) (a : α) : (const n a).size = n := size_ofFn ..

@[simp] theorem size_empty : (empty : Vec α).size = 0 := rfl

/-- The entries of `v`, then those of `w`. -/
def append (v w : Vec α) : Vec α := ⟨v.entries ++ w.entries⟩

@[simp] theorem size_append (v w : Vec α) : (v.append w).size = v.size + w.size := by
  simp [append, size]

section Read

variable [Zero α]

/-- Entry `i`, and `0` past the end. -/
@[inline] def get (v : Vec α) (i : Nat) : α := v.entries.getD i 0

theorem get_ofFn (n : Nat) (f : Nat → α) (i : Nat) :
    (ofFn n f).get i = if i < n then f i else 0 := by
  by_cases h : i < n <;> simp [get, ofFn, Array.getD, h]

theorem get_ofFn_of_lt {n : Nat} (f : Nat → α) {i : Nat} (h : i < n) :
    (ofFn n f).get i = f i := by
  rw [get_ofFn, if_pos h]

theorem get_of_size_le {v : Vec α} {i : Nat} (h : v.size ≤ i) : v.get i = 0 := by
  have : ¬ i < v.entries.size := Nat.not_lt.2 h
  simp [get, Array.getD, this]

/-- Vectors of one size with equal entries are equal. -/
theorem ext_get {v w : Vec α} (hs : v.size = w.size) (h : ∀ i < v.size, v.get i = w.get i) :
    v = w := by
  cases v with
  | mk a =>
    cases w with
    | mk b =>
      congr 1
      refine Array.ext hs fun i ha hb => ?_
      have := h i ha
      simpa [get, Array.getD, ha, hb] using this

theorem ofFn_get (v : Vec α) : ofFn v.size v.get = v :=
  ext_get (size_ofFn ..) fun i hi => get_ofFn_of_lt _ (by simpa using hi)

/-- The vector of size `n` whose entries are all `0`. -/
def zeros (n : Nat) : Vec α := const n 0

@[simp] theorem size_zeros (n : Nat) : (zeros n : Vec α).size = n := size_ofFn ..

@[simp] theorem get_zeros (n i : Nat) : (zeros n : Vec α).get i = 0 := by
  simp [zeros, const, get_ofFn]

/-! ## Parts -/

/-- The `n` entries from `start` on. -/
def slice (v : Vec α) (start n : Nat) : Vec α := ofFn n fun i => v.get (start + i)

@[simp] theorem size_slice (v : Vec α) (start n : Nat) : (v.slice start n).size = n :=
  size_ofFn ..

theorem get_slice (v : Vec α) (start n i : Nat) :
    (v.slice start n).get i = if i < n then v.get (start + i) else 0 := get_ofFn ..

theorem get_append (v w : Vec α) (i : Nat) :
    (v.append w).get i = if i < v.size then v.get i else w.get (i - v.size) := by
  by_cases h : i < v.entries.size
  · simp [append, get, size, h, Array.getElem?_append_left]
  · simp [append, get, size, h, Array.getElem?_append_right (Nat.not_lt.1 h)]

/-- The entries past position `n` replaced by those of `w`. -/
def withTail (v : Vec α) (n : Nat) (w : Vec α) : Vec α := (v.slice 0 n).append w

end Read

/-! ## Arithmetic -/

section Arithmetic

variable [Scalar α]

/-- Entrywise image. -/
@[specialize] def map (f : α → α) (v : Vec α) : Vec α := ofFn v.size fun i => f (v.get i)

/-- Entrywise combination. -/
@[specialize] def zipWith (f : α → α → α) (v w : Vec α) : Vec α :=
  ofFn v.size fun i => f (v.get i) (w.get i)

/-- The sum `v + w`. -/
def add (v w : Vec α) : Vec α := zipWith (· + ·) v w

/-- The difference `v - w`. -/
def sub (v w : Vec α) : Vec α := zipWith (· - ·) v w

/-- The negation `-v`. -/
def neg (v : Vec α) : Vec α := map (- ·) v

/-- The point `v + a w`, reached from `v` by a step of length `a` along `w`. -/
def advance (v : Vec α) (a : α) (w : Vec α) : Vec α := zipWith (fun x d => a * d + x) v w

/-- The inner product of `v` and `w`. -/
def dot (v w : Vec α) : α := Scalar.sumUpTo (fun i => v.get i * w.get i) v.size

/-- Largest absolute entry, `0` for the empty vector; undefined entries are passed over. -/
def infNorm (v : Vec α) : α := Scalar.maxUpTo 0 (fun i => Scalar.abs (v.get i)) v.size

/-- No entry is infinite or undefined. -/
def allFinite (v : Vec α) : Bool := v.entries.all Scalar.isFinite

@[simp] theorem size_map (f : α → α) (v : Vec α) : (map f v).size = v.size := size_ofFn ..

@[simp] theorem size_zipWith (f : α → α → α) (v w : Vec α) : (zipWith f v w).size = v.size :=
  size_ofFn ..

@[simp] theorem size_add (v w : Vec α) : (v.add w).size = v.size := size_ofFn ..

@[simp] theorem size_sub (v w : Vec α) : (v.sub w).size = v.size := size_ofFn ..

@[simp] theorem size_neg (v : Vec α) : v.neg.size = v.size := size_ofFn ..

@[simp] theorem size_advance (v : Vec α) (a : α) (w : Vec α) : (v.advance a w).size = v.size :=
  size_ofFn ..

theorem get_map (f : α → α) (v : Vec α) {i : Nat} (h : i < v.size) :
    (map f v).get i = f (v.get i) := get_ofFn_of_lt _ h

theorem get_zipWith (f : α → α → α) (v w : Vec α) {i : Nat} (h : i < v.size) :
    (zipWith f v w).get i = f (v.get i) (w.get i) := get_ofFn_of_lt _ h

end Arithmetic

end Vec

end StagedQP
