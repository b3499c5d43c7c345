import StagedQP.Dense.Matrix

/-!
# Vectors defined entry after entry

Triangular systems are solved by computing one unknown after another, each from those already
known. `Vec.unfold step n` is the vector of size `n` whose entry `i` is `step` applied to the vector
of the entries before it. `Vec.get_unfold` is the equation that characterises it: entry `i` does not
depend on how many entries follow.
-/

namespace StagedQP

namespace Vec

variable {α : Type}

/-- One more entry at the end. -/
@[inline] def push (v : Vec α) (a : α) : Vec α := ⟨v.entries.push a⟩

@[simp] theorem size_push (v : Vec α) (a : α) : (v.push a).size = v.size + 1 := by
  simp [push, size]

/-- The vector of size `n` whose entry `i` is `step v i`, where `v` holds the entries before. -/
@[specialize] def unfold (step : Vec α → Nat → α) : Nat → Vec α
  | 0 => empty
  | n + 1 => let v := unfold step n; v.push (step v n)

@[simp] theorem size_unfold (step : Vec α → Nat → α) (n : Nat) : (unfold step n).size = n := by
  induction n with
  | zero => rfl
  | succ n ih => simp [unfold, ih]

variable [Zero α]

theorem get_push_of_lt (v : Vec α) (a : α) {i : Nat} (h : i < v.size) :
    (v.push a).get i = v.get i := by
  have h' : i < v.entries.size := h
  simp [push, get, Array.getElem?_push, Nat.ne_of_lt h']

theorem get_push_size (v : Vec α) (a : α) : (v.push a).get v.size = a := by
  simp [push, get, size]

theorem get_unfold (step : Vec α → Nat → α) {n i : Nat} (h : i < n) :
    (unfold step n).get i = step (unfold step i) i := by
  induction n with
  | zero => exact absurd h i.not_lt_zero
  | succ n ih =>
    rcases Nat.lt_succ_iff_lt_or_eq.1 h with hi | rfl
    · rw [← ih hi]
      exact get_push_of_lt _ _ (by simpa using hi)
    · have := get_push_size (unfold step i) (step (unfold step i) i)
      rwa [size_unfold] at this

end Vec

namespace Mat

variable {α : Type} [Scalar α]

/-- The solution `y` of `L y = b` for a lower triangular `L` of `n` rows: entry `i` is `b i` less
the products with the entries before it, divided by the diagonal. -/
def solveLower (l : Mat α) (b : Vec α) (n : Nat) : Vec α :=
  Vec.unfold
    (fun y i => Scalar.addUpTo (b.get i) (fun k => -(l.get i k * y.get k)) i / l.get i i) n

/-- The solution `x` of `Lᵀ x = y`, last unknown first. -/
def solveLowerTr (l : Mat α) (y : Vec α) (n : Nat) : Vec α :=
  let reversed := Vec.unfold
    (fun z t =>
      let i := n - 1 - t
      (y.get i - Scalar.sumUpTo (fun k => l.get (i + 1 + k) i * z.get (t - 1 - k)) t)
        / l.get i i) n
  Vec.ofFn n fun i => reversed.get (n - 1 - i)

/-- The solution `x` of `U x = y` for an upper triangular `U` of `n` rows, last unknown first: the
products are taken off from the last column to the diagonal. -/
def solveUpper (u : Mat α) (y : Vec α) (n : Nat) : Vec α :=
  let reversed := Vec.unfold
    (fun z t =>
      let i := n - 1 - t
      Scalar.addUpTo (y.get i) (fun k => -(z.get k * u.get i (n - 1 - k))) t / u.get i i) n
  Vec.ofFn n fun i => reversed.get (n - 1 - i)

@[simp] theorem size_solveLower (l : Mat α) (b : Vec α) (n : Nat) :
    (l.solveLower b n).size = n := Vec.size_unfold ..

@[simp] theorem size_solveLowerTr (l : Mat α) (y : Vec α) (n : Nat) :
    (l.solveLowerTr y n).size = n := Vec.size_ofFn ..

@[simp] theorem size_solveUpper (u : Mat α) (y : Vec α) (n : Nat) :
    (u.solveUpper y n).size = n := Vec.size_ofFn ..

/-- Column `j` as a vector. -/
def col (m : Mat α) (j : Nat) : Vec α := Vec.ofFn m.rows fun i => m.get i j

/-- The matrix whose column `j` is `f` of column `j`, with `rows` rows. -/
def mapCols (rows : Nat) (f : Vec α → Vec α) (m : Mat α) : Mat α :=
  let cols : Vec (Vec α) := Vec.ofFn m.cols fun j => f (m.col j)
  ofFn rows m.cols fun i j => (cols.entries.getD j Vec.empty).get i

theorem get_mapCols (rows : Nat) (f : Vec α → Vec α) (m : Mat α) {i j : Nat} (hi : i < rows)
    (hj : j < m.cols) : (m.mapCols rows f).get i j = (f (m.col j)).get i := by
  rw [mapCols, get_ofFn_of_lt _ hi hj]
  simp [Vec.ofFn, Array.getD, hj]

end Mat

end StagedQP
