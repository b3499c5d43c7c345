import StagedQP.Dense.Product
import StagedQP.Dense.Cholesky

/-!
# Operations that check sizes

The dense operations of this library are total: an entry past the end reads as zero, and a result
has the size of the first operand. An implementation that computes into buffers allocated once has
sizes to respect at every step. The operations of this module take the buffer they write and stop
with a `SizeFault` before they read or write past the end of anything: an operand of a copy, a sum
or a product must have the size that the buffer and the other operands call for, a view must lie
inside what it is a view of, and so must an entry that is read or written.

Where all sizes agree such an operation does what the total operation does. There is one lemma for
each; nothing else is needed of them.

## Main results

* `Checked.fill_eq` — a loop over the entries of a buffer.
* `Checked.writeRows_append`, `Checked.writeRows_tail` — a buffer written through views.
-/

namespace StagedQP

/-- Why an operation on buffers stops. -/
inductive SizeFault where
  /-- Operands of different sizes. -/
  | mismatch
  /-- An index, or the end of a view, past the end of a buffer. -/
  | outside
  deriving DecidableEq

namespace Checked

/-- What goes on with a value goes on. -/
@[simp] theorem ok_bind {ε β γ : Type} (b : β) (f : β → Except ε γ) :
    (Except.ok b >>= f) = f b := rfl

@[simp] theorem ok_map {ε β γ : Type} (b : β) (f : β → γ) :
    f <$> (Except.ok b : Except ε β) = .ok (f b) := rfl

section Guards

variable {β : Type}

/-- `b`, if the operands fit each other. -/
def fitting (fits : Prop) [Decidable fits] (b : β) : Except SizeFault β :=
  if fits then .ok b else .error .mismatch

/-- `b`, if nothing lies outside. -/
def inside (within : Prop) [Decidable within] (b : β) : Except SizeFault β :=
  if within then .ok b else .error .outside

theorem fitting_eq {fits : Prop} [Decidable fits] (h : fits) (b : β) : fitting fits b = .ok b :=
  if_pos h

theorem inside_eq {within : Prop} [Decidable within] (h : within) (b : β) :
    inside within b = .ok b := if_pos h

end Guards

variable {α : Type} [Scalar α]

/-! ## Entries -/

/-- Entry `i`. -/
def read (v : Vec α) (i : Nat) : Except SizeFault α := inside (i < v.size) (v.get i)

/-- Entry `(i, j)`. -/
def readAt (m : Mat α) (i j : Nat) : Except SizeFault α :=
  inside (i < m.rows ∧ j < m.cols) (m.get i j)

/-- Entry `i` overwritten. -/
def write (v : Vec α) (i : Nat) (a : α) : Except SizeFault (Vec α) :=
  inside (i < v.size) (Vec.ofFn v.size fun k => if k = i then a else v.get k)

/-- Entry `(i, j)` overwritten. -/
def writeAt (m : Mat α) (i j : Nat) (a : α) : Except SizeFault (Mat α) :=
  inside (i < m.rows ∧ j < m.cols)
    (Mat.ofFn m.rows m.cols fun k l => if k = i ∧ l = j then a else m.get k l)

/-- The first `n` entries overwritten one after another. -/
def fill (dest : Vec α) (entry : Nat → Except SizeFault α) : Nat → Except SizeFault (Vec α)
  | 0 => .ok dest
  | n + 1 => do
    let v ← fill dest entry n
    let a ← entry n
    write v n a

@[simp] theorem read_eq {v : Vec α} {i : Nat} (h : i < v.size) : read v i = .ok (v.get i) :=
  inside_eq h _

@[simp] theorem readAt_eq {m : Mat α} {i j : Nat} (hi : i < m.rows) (hj : j < m.cols) :
    readAt m i j = .ok (m.get i j) := inside_eq ⟨hi, hj⟩ _

@[simp] theorem writeAt_eq {m : Mat α} {i j : Nat} (hi : i < m.rows) (hj : j < m.cols) (a : α) :
    writeAt m i j a = .ok (Mat.ofFn m.rows m.cols fun k l =>
      if k = i ∧ l = j then a else m.get k l) := inside_eq ⟨hi, hj⟩ _

/-- A loop that has passed the first `k` entries. -/
theorem fill_upTo {dest v : Vec α} {entry : Nat → Except SizeFault α} {n : Nat}
    (hdest : dest.size = n) (h : ∀ i < n, entry i = .ok (v.get i)) (k : Nat) (hk : k ≤ n) :
    fill dest entry k = .ok (Vec.ofFn n fun i => if i < k then v.get i else dest.get i) := by
  induction k with
  | zero =>
      simp only [fill, Nat.not_lt_zero, if_false]
      rw [← hdest, Vec.ofFn_get]
  | succ k ih =>
      rw [fill, ih (by omega), ok_bind, h k hk, ok_bind, write, Vec.size_ofFn,
        inside_eq (show k < n from hk)]
      refine congrArg Except.ok (Vec.ext_get (by simp) fun i hi => ?_)
      rw [Vec.size_ofFn] at hi
      rw [Vec.get_ofFn_of_lt _ hi, Vec.get_ofFn_of_lt _ hi, Vec.get_ofFn_of_lt _ hi]
      by_cases hik : i = k
      · rw [if_pos hik, if_pos (by omega), hik]
      · rw [if_neg hik]
        by_cases hlt : i < k
        · rw [if_pos hlt, if_pos (by omega)]
        · rw [if_neg hlt, if_neg (by omega)]

/-- A loop over all entries of a buffer leaves the vector of what it writes. -/
theorem fill_eq {dest v : Vec α} {entry : Nat → Except SizeFault α} {n : Nat}
    (hdest : dest.size = n) (hv : v.size = n) (h : ∀ i < n, entry i = .ok (v.get i)) :
    fill dest entry n = .ok v := by
  rw [fill_upTo hdest h n (Nat.le_refl n)]
  refine congrArg Except.ok (Vec.ext_get (by simp [hv]) fun i hi => ?_)
  rw [Vec.size_ofFn] at hi
  rw [Vec.get_ofFn_of_lt _ hi, if_pos hi]

/-! ## Copies and views -/

/-- A vector copied into a buffer. -/
def copy (dest v : Vec α) : Except SizeFault (Vec α) := fitting (dest.size = v.size) v

/-- A matrix copied into a buffer. -/
def copyMat (dest m : Mat α) : Except SizeFault (Mat α) :=
  fitting (dest.rows = m.rows ∧ dest.cols = m.cols) m

/-- The `n` entries from `start` on. -/
def rows (v : Vec α) (start n : Nat) : Except SizeFault (Vec α) :=
  inside (start + n ≤ v.size) (v.slice start n)

/-- The `r × c` block whose upper left corner is `(i, j)`. -/
def view (m : Mat α) (i j r c : Nat) : Except SizeFault (Mat α) :=
  inside (i + r ≤ m.rows ∧ j + c ≤ m.cols) (m.block i j r c)

/-- A vector copied into the `n` entries from `start` on. -/
def writeRows (dest : Vec α) (start n : Nat) (v : Vec α) : Except SizeFault (Vec α) := do
  let part ← rows dest start n
  let v ← copy part v
  return Vec.ofFn dest.size fun i =>
    if start ≤ i ∧ i < start + n then v.get (i - start) else dest.get i

/-- A matrix copied into the `r × c` block whose upper left corner is `(i, j)`. -/
def writeBlock (dest : Mat α) (i j r c : Nat) (m : Mat α) : Except SizeFault (Mat α) := do
  let part ← view dest i j r c
  let m ← copyMat part m
  return Mat.ofFn dest.rows dest.cols fun k l =>
    if (i ≤ k ∧ k < i + r) ∧ (j ≤ l ∧ l < j + c) then m.get (k - i) (l - j) else dest.get k l

omit [Scalar α] in
@[simp] theorem copy_eq {dest v : Vec α} (h : dest.size = v.size) : copy dest v = .ok v :=
  fitting_eq h _

omit [Scalar α] in
@[simp] theorem copyMat_eq {dest m : Mat α} (hr : dest.rows = m.rows) (hc : dest.cols = m.cols) :
    copyMat dest m = .ok m := fitting_eq ⟨hr, hc⟩ _

@[simp] theorem rows_eq {v : Vec α} {start n : Nat} (h : start + n ≤ v.size) :
    rows v start n = .ok (v.slice start n) := inside_eq h _

@[simp] theorem view_eq {m : Mat α} {i j r c : Nat} (hr : i + r ≤ m.rows) (hc : j + c ≤ m.cols) :
    view m i j r c = .ok (m.block i j r c) := inside_eq ⟨hr, hc⟩ _

-- A view may not end past the last column.
example : view (Mat.zeros 2 2 : Mat α) 1 1 1 2 = .error .outside := rfl

theorem writeRows_eq {dest v : Vec α} {start n : Nat} (h : start + n ≤ dest.size)
    (hv : v.size = n) : writeRows dest start n v = .ok (Vec.ofFn dest.size fun i =>
      if start ≤ i ∧ i < start + n then v.get (i - start) else dest.get i) := by
  rw [writeRows, rows_eq h, ok_bind, copy_eq (by rw [Vec.size_slice, hv])]
  rfl

theorem writeBlock_eq {dest m : Mat α} {i j r c : Nat} (hr : i + r ≤ dest.rows)
    (hc : j + c ≤ dest.cols) (hm : m.rows = r ∧ m.cols = c) :
    writeBlock dest i j r c m = .ok (Mat.ofFn dest.rows dest.cols fun k l =>
      if (i ≤ k ∧ k < i + r) ∧ (j ≤ l ∧ l < j + c) then m.get (k - i) (l - j)
      else dest.get k l) := by
  rw [writeBlock, view_eq hr hc, ok_bind,
    copyMat_eq ((Mat.rows_block ..).trans hm.1.symm) ((Mat.cols_block ..).trans hm.2.symm)]
  rfl

theorem slice_append_left {v : Vec α} {k : Nat} (hv : v.size = k) (w : Vec α) :
    (v.append w).slice 0 k = v := by
  refine Vec.ext_get ((Vec.size_slice ..).trans hv.symm) fun i hi => ?_
  rw [Vec.size_slice] at hi
  rw [Vec.get_slice, if_pos hi, Nat.zero_add, Vec.get_append, if_pos (by omega)]

theorem slice_append_right {v w : Vec α} {k n : Nat} (hv : v.size = k) (hw : w.size = n) :
    (v.append w).slice k n = w := by
  refine Vec.ext_get ((Vec.size_slice ..).trans hw.symm) fun i hi => ?_
  rw [Vec.size_slice] at hi
  rw [Vec.get_slice, if_pos hi, Vec.get_append, if_neg (by omega), hv, Nat.add_sub_cancel_left]

/-- The first part of a vector made of two. -/
theorem rows_append_left {v : Vec α} {k : Nat} (w : Vec α) (hv : v.size = k) :
    rows (v.append w) 0 k = .ok v := by
  rw [rows_eq (by rw [Vec.size_append]; omega), slice_append_left hv]

/-- A vector is put together from its two parts. -/
theorem withTail_slice {v : Vec α} {k n : Nat} (hv : v.size = k + n) :
    v.withTail k (v.slice k n) = v := by
  refine Vec.ext_get (by simp [Vec.withTail, hv]) fun i hi => ?_
  rw [Vec.withTail, Vec.size_append, Vec.size_slice, Vec.size_slice] at hi
  rw [Vec.withTail, Vec.get_append, Vec.size_slice, Vec.get_slice, Vec.get_slice]
  by_cases hik : i < k
  · rw [if_pos hik, if_pos hik, Nat.zero_add]
  · rw [if_neg hik, if_pos (by omega), Nat.add_sub_cancel' (by omega)]

theorem withTail_withTail (v w w' : Vec α) (k : Nat) :
    (v.withTail k w).withTail k w' = v.withTail k w' := by
  rw [Vec.withTail, Vec.withTail, slice_append_left (Vec.size_slice ..)]
  rfl

/-- The last entries of a buffer overwritten. -/
theorem writeRows_tail {dest v : Vec α} {k n : Nat} (hdest : dest.size = k + n)
    (hv : v.size = n) : writeRows dest k n v = .ok (dest.withTail k v) := by
  rw [writeRows_eq (by omega) hv]
  refine congrArg Except.ok (Vec.ext_get ?_ fun i hi => ?_)
  · rw [Vec.size_ofFn, Vec.withTail, Vec.size_append, Vec.size_slice, hv, hdest]
  · rw [Vec.size_ofFn] at hi
    rw [Vec.get_ofFn_of_lt _ hi, Vec.withTail, Vec.get_append, Vec.size_slice, Vec.get_slice]
    by_cases hik : i < k
    · rw [if_neg (by omega), if_pos hik, if_pos hik, Nat.zero_add]
    · rw [if_pos (by omega), if_neg hik]

/-- The first entries of a buffer overwritten. -/
theorem writeRows_head {dest v : Vec α} {k n : Nat} (hdest : dest.size = k + n)
    (hv : v.size = k) : writeRows dest 0 k v = .ok (v.append (dest.slice k n)) := by
  rw [writeRows_eq (by omega) hv]
  refine congrArg Except.ok (Vec.ext_get ?_ fun i hi => ?_)
  · rw [Vec.size_ofFn, Vec.size_append, Vec.size_slice, hv, hdest]
  · rw [Vec.size_ofFn] at hi
    rw [Vec.get_ofFn_of_lt _ hi, Vec.get_append, Vec.get_slice, hv, Nat.sub_zero]
    by_cases hik : i < k
    · rw [if_pos (by omega), if_pos hik]
    · rw [if_neg (by omega), if_neg hik, if_pos (by omega), Nat.add_sub_cancel' (by omega)]

/-- A buffer overwritten in two parts. -/
theorem writeRows_append {dest v w : Vec α} {k n : Nat} (hdest : dest.size = k + n)
    (hv : v.size = k) (hw : w.size = n) :
    (do
      let head ← writeRows dest 0 k v
      writeRows head k n w) = .ok (v.append w) := by
  rw [writeRows_head hdest hv, ok_bind,
    writeRows_tail (by rw [Vec.size_append, Vec.size_slice, hv]) hw, Vec.withTail,
    slice_append_left hv]

/-! ## Sums and products -/

/-- The difference `dest - v`. -/
def sub (dest v : Vec α) : Except SizeFault (Vec α) := fitting (dest.size = v.size) (dest.sub v)

/-- The point `dest + a v`. -/
def advance (dest : Vec α) (a : α) (v : Vec α) : Except SizeFault (Vec α) :=
  fitting (dest.size = v.size) (dest.advance a v)

/-- The inner product. -/
def dot (v w : Vec α) : Except SizeFault α := fitting (v.size = w.size) (v.dot w)

/-- The product `m v`, into a buffer. -/
def mulVec (dest : Vec α) (m : Mat α) (v : Vec α) : Except SizeFault (Vec α) :=
  fitting (m.cols = v.size ∧ dest.size = m.rows) (m.mulVec v)

/-- The value `dest + m v`. -/
def addMulVec (dest : Vec α) (m : Mat α) (v : Vec α) : Except SizeFault (Vec α) :=
  fitting (m.cols = v.size ∧ dest.size = m.rows) (Mat.addMulVec dest m v)

/-- The value `dest + mᵀ v`. -/
def addTrMulVec (dest : Vec α) (m : Mat α) (v : Vec α) : Except SizeFault (Vec α) :=
  fitting (m.rows = v.size ∧ dest.size = m.cols) (Mat.addTrMulVec dest m v)

/-- The value `dest - mᵀ v`. -/
def subTrMulVec (dest : Vec α) (m : Mat α) (v : Vec α) : Except SizeFault (Vec α) :=
  fitting (m.rows = v.size ∧ dest.size = m.cols) (Mat.subTrMulVec dest m v)

/-- The product `mᵀ m'`, into a buffer. -/
def trMul (dest m m' : Mat α) : Except SizeFault (Mat α) :=
  fitting (m.rows = m'.rows ∧ dest.rows = m.cols ∧ dest.cols = m'.cols) (m.trMul m')

/-- The value `dest + m m'`. -/
def addMul (dest m m' : Mat α) : Except SizeFault (Mat α) :=
  fitting (m.cols = m'.rows ∧ dest.rows = m.rows ∧ dest.cols = m'.cols) (Mat.addMul dest m m')

/-- The value `dest + mᵀ m'`. -/
def addTrMul (dest m m' : Mat α) : Except SizeFault (Mat α) :=
  fitting (m.rows = m'.rows ∧ dest.rows = m.cols ∧ dest.cols = m'.cols) (Mat.addTrMul dest m m')

/-- Row `i` times entry `i` of `w`, for every entry of `w`. -/
def scaleRows (w : Vec α) (m : Mat α) : Except SizeFault (Mat α) :=
  inside (w.size ≤ m.rows)
    (Mat.ofFn m.rows m.cols fun i j => if i < w.size then m.get i j * w.get i else m.get i j)

/-- Opposite entries of a square matrix averaged. -/
def symmetrize (m : Mat α) : Except SizeFault (Mat α) := fitting (m.rows = m.cols) m.symmetrize

/-! ## Factors -/

/-- The factor of a square matrix. -/
def factor (m : Mat α) : Except SizeFault (Option (Cholesky α)) :=
  fitting (m.rows = m.cols) (Cholesky.factor m)

/-- The solution of `L Lᵀ X = B`. -/
def solve (c : Cholesky α) (b : Mat α) : Except SizeFault (Mat α) :=
  fitting (b.rows = c.size) (c.solve b)

/-- The solution of `L Lᵀ x = b`. -/
def solveVec (c : Cholesky α) (b : Vec α) : Except SizeFault (Vec α) :=
  fitting (b.size = c.size) (c.solveVec b)

section Shapes

variable (w : Vec α) (m m' : Mat α)

@[simp] theorem rows_trMul : (m.trMul m').rows = m.cols := rfl

@[simp] theorem cols_trMul : (m.trMul m').cols = m'.cols := rfl

@[simp] theorem rows_scaleRows : (Mat.scaleRows w m).rows = m.rows := rfl

@[simp] theorem cols_scaleRows : (Mat.scaleRows w m).cols = m.cols := rfl

end Shapes

section Agree

variable {dest v w : Vec α} {m m' y : Mat α} {c : Cholesky α}

@[simp] theorem sub_eq (h : dest.size = v.size) : sub dest v = .ok (dest.sub v) := fitting_eq h _

@[simp] theorem advance_eq (h : dest.size = v.size) (a : α) :
    advance dest a v = .ok (dest.advance a v) := fitting_eq h _

@[simp] theorem dot_eq (h : v.size = w.size) : dot v w = .ok (v.dot w) := fitting_eq h _

@[simp] theorem mulVec_eq (hv : m.cols = v.size) (hd : dest.size = m.rows) :
    mulVec dest m v = .ok (m.mulVec v) := fitting_eq ⟨hv, hd⟩ _

@[simp] theorem addMulVec_eq (hv : m.cols = v.size) (hd : dest.size = m.rows) :
    addMulVec dest m v = .ok (Mat.addMulVec dest m v) := fitting_eq ⟨hv, hd⟩ _

@[simp] theorem addTrMulVec_eq (hv : m.rows = v.size) (hd : dest.size = m.cols) :
    addTrMulVec dest m v = .ok (Mat.addTrMulVec dest m v) := fitting_eq ⟨hv, hd⟩ _

@[simp] theorem subTrMulVec_eq (hv : m.rows = v.size) (hd : dest.size = m.cols) :
    subTrMulVec dest m v = .ok (Mat.subTrMulVec dest m v) := fitting_eq ⟨hv, hd⟩ _

@[simp] theorem trMul_eq (hm : m.rows = m'.rows) (hr : y.rows = m.cols) (hc : y.cols = m'.cols) :
    trMul y m m' = .ok (m.trMul m') := fitting_eq ⟨hm, hr, hc⟩ _

@[simp] theorem addMul_eq (hm : m.cols = m'.rows) (hr : y.rows = m.rows) (hc : y.cols = m'.cols) :
    addMul y m m' = .ok (Mat.addMul y m m') := fitting_eq ⟨hm, hr, hc⟩ _

@[simp] theorem addTrMul_eq (hm : m.rows = m'.rows) (hr : y.rows = m.cols)
    (hc : y.cols = m'.cols) : addTrMul y m m' = .ok (Mat.addTrMul y m m') :=
  fitting_eq ⟨hm, hr, hc⟩ _

@[simp] theorem symmetrize_eq (h : m.rows = m.cols) : symmetrize m = .ok m.symmetrize :=
  fitting_eq h _

@[simp] theorem factor_eq (h : m.rows = m.cols) : factor m = .ok (Cholesky.factor m) :=
  fitting_eq h _

@[simp] theorem solve_eq (h : m.rows = c.size) : solve c m = .ok (c.solve m) := fitting_eq h _

@[simp] theorem solveVec_eq (h : v.size = c.size) : solveVec c v = .ok (c.solveVec v) :=
  fitting_eq h _

/-- Scaling all rows is scaling as many rows as there are weights. -/
@[simp] theorem scaleRows_eq (h : w.size = m.rows) : scaleRows w m = .ok (Mat.scaleRows w m) := by
  rw [scaleRows, inside_eq (Nat.le_of_eq h)]
  refine congrArg Except.ok (Mat.ext_get (Mat.wellFormed_ofFn ..) (Mat.wellFormed_ofFn ..) rfl rfl
    fun i hi j hj => ?_)
  have hi' : i < m.rows := hi
  have hj' : j < m.cols := hj
  rw [Mat.scaleRows, Mat.get_ofFn_of_lt _ hi' hj', Mat.get_ofFn_of_lt _ hi' hj',
    if_pos (by omega)]

end Agree

end Checked

end StagedQP
