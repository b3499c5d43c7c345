import StagedQP.Dense.Import
import StagedQP.Proofs.MatrixView

/-!
# The import of a buffer

A buffer of `rows * cols` entries is a matrix in two ways, and the caller says which. With the
positions counted from zero,

```text
row after row         entry (i, j) at  i * cols + j
column after column   entry (i, j) at  j * rows + i
```

so a buffer read row after row is the transpose of the same buffer read column after column with the
two sizes exchanged.

The import compares the length of the buffer with the product of the two sizes as machine words,
and that is the number of entries only if the product is a machine word. A length that differs from
the number of entries and passes all the same, `CountWraps`, is too short. What becomes of such a
buffer depends on the order: row after row every entry is read, and the buffer ends before the
matrix is full; column after column nothing is read, and the result is a matrix without some of the
entries of its shape.

## Main results

* `StorageOrder.exists_missing` — a short buffer leaves out a place, whatever the order.
* `Mat.ofBuffer?_of_size_eq`, `Mat.ofBuffer?_of_size_ne` — a right and a wrong length.
* `import_transposed` — the two orders against each other.
* `import_counts_entries` — the imports that count entries are those whose length does not wrap.
-/

namespace StagedQP

/-! ## Places in a buffer -/

/-- Position of entry `(i, j)` in a buffer that lists the entries of a matrix in the given order. -/
def StorageOrder.position (rows cols i j : Nat) : StorageOrder → Nat
  | rowMajor => i * cols + j
  | colMajor => j * rows + i

namespace StorageOrder

variable {rows cols : Nat}

theorem position_lt (order : StorageOrder) {i j : Nat} (hi : i < rows) (hj : j < cols) :
    order.position rows cols i j < rows * cols := by
  cases order with
  | rowMajor =>
      calc i * cols + j = j + i * cols := Nat.add_comm ..
        _ < cols * rows := Mat.position_lt hj hi
        _ = rows * cols := Nat.mul_comm ..
  | colMajor =>
      calc j * rows + i = i + j * rows := Nat.add_comm ..
        _ < rows * cols := Mat.position_lt hi hj

/-- The last place is the last of all positions, in either order. -/
theorem position_last (order : StorageOrder) (rows cols : Nat) :
    order.position (rows + 1) (cols + 1) rows cols + 1 = (rows + 1) * (cols + 1) := by
  cases order with
  | rowMajor => rw [position, Nat.succ_mul rows, Nat.add_assoc]
  | colMajor => rw [position, Nat.mul_comm (rows + 1), Nat.succ_mul cols, Nat.add_assoc]

/-- A buffer with too few entries has none for some place. -/
theorem exists_missing (order : StorageOrder) {size : Nat} (h : size < rows * cols) :
    ∃ i < rows, ∃ j < cols, size ≤ order.position rows cols i j := by
  cases rows with
  | zero => simp at h
  | succ r =>
    cases cols with
    | zero => simp at h
    | succ c =>
      have hlast := order.position_last r c
      exact ⟨r, r.lt_succ_self, c, c.lt_succ_self, by omega⟩

end StorageOrder

/-! ## Counting in machine words -/

/-- The length of a buffer passes for the number of entries of a matrix although it is another
number, because the two agree as machine words. -/
def CountWraps (rows cols size : Nat) : Prop :=
  size = rows * cols % wordModulus ∧ size ≠ rows * cols

instance (rows cols size : Nat) : Decidable (CountWraps rows cols size) :=
  inferInstanceAs (Decidable (_ ∧ _))

section Count

variable {rows cols size : Nat}

theorem CountWraps.size_lt (h : CountWraps rows cols size) : size < rows * cols :=
  Nat.lt_of_le_of_ne (h.1 ▸ Nat.mod_le ..) h.2

/-- As long as the number of entries is a machine word, no length is mistaken for it. -/
theorem not_countWraps_of_lt (h : rows * cols < wordModulus) : ¬ CountWraps rows cols size :=
  fun hwraps => hwraps.2 (hwraps.1.trans (Nat.mod_eq_of_lt h))

end Count

/-! ## What comes of an import -/

namespace Mat

variable {α : Type} [Zero α] {rows cols : Nat} {data : Array α} {m m' : Mat α}

/-- The reading ends early exactly if the entry of some place is not in the buffer. -/
theorem readRows?_eq_none_iff : readRows? rows cols data = none ↔
    ∃ i < rows, ∃ j < cols, data.size ≤ StorageOrder.rowMajor.position rows cols i j := by
  constructor
  · intro hnone
    refine StorageOrder.rowMajor.exists_missing (Nat.lt_of_not_le fun hle => ?_)
    rw [readRows?, if_pos hle] at hnone
    exact absurd hnone (Option.some_ne_none _)
  · rintro ⟨i, hi, j, hj, hmissing⟩
    exact if_neg (Nat.not_le_of_lt (hmissing.trans_lt (StorageOrder.rowMajor.position_lt hi hj)))

/-- The buffer lists the entries of the matrix, which are as many as its shape calls for. -/
structure ListedBy (order : StorageOrder) (rows cols : Nat) (data : Array α) (m : Mat α) :
    Prop where
  shape : m.HasShape rows cols
  entry : ∀ i < rows, ∀ j < cols, data[order.position rows cols i j]? = some (m.get i j)

/-- Listed row after row, a matrix is the transpose of the one listed column after column. -/
theorem ListedBy.transpose_eq (h : m.ListedBy .rowMajor rows cols data)
    (h' : m'.ListedBy .colMajor cols rows data) :
    m.toMatrix rows cols = (m'.toMatrix cols rows).transpose := by
  ext i j
  have hm : data[i.1 * cols + j.1]? = some (m.get i j) := h.entry i i.2 j j.2
  have hm' : data[i.1 * cols + j.1]? = some (m'.get j i) := h'.entry j j.2 i i.2
  exact Option.some.inj (hm.symm.trans hm')

/-- Row after row, all entries are read. -/
theorem listedBy_readRows (hsize : data.size = rows * cols) :
    ∃ m, readRows? rows cols data = some m ∧ m.ListedBy .rowMajor rows cols data := by
  refine ⟨_, if_pos hsize.ge, hasShape_ofFn .., fun i hi j hj => ?_⟩
  have hlt : i * cols + j < data.size := hsize ▸ StorageOrder.rowMajor.position_lt hi hj
  rw [get_ofFn_of_lt _ hi hj, StorageOrder.position, Array.getElem?_eq_getElem hlt]
  simp [hlt]

/-- Column after column, the buffer is what the matrix stores. -/
theorem listedBy_self (hsize : data.size = rows * cols) :
    (⟨rows, cols, data⟩ : Mat α).ListedBy .colMajor rows cols data := by
  refine ⟨⟨rfl, rfl, hsize⟩, fun i hi j hj => ?_⟩
  have hlt : j * rows + i < data.size := hsize ▸ StorageOrder.colMajor.position_lt hi hj
  have hlt' : i + j * rows < data.size := Nat.add_comm (j * rows) i ▸ hlt
  rw [StorageOrder.position, Array.getElem?_eq_getElem hlt, get, if_pos hi]
  simp [Nat.add_comm (j * rows), hlt']

variable (order : StorageOrder) (stage : Nat)

/-- A buffer of another length than the number of entries is refused, if the two differ as machine
words as well. -/
theorem ofBuffer?_of_size_ne (hsize : data.size ≠ rows * cols)
    (hwraps : ¬ CountWraps rows cols data.size) :
    ofBuffer? order stage rows cols data =
      .error (.refused (.mismatch stage (.buffer order data.size rows cols))) :=
  if_neg fun hguard => hwraps ⟨hguard, hsize⟩

/-- A buffer of the right length becomes the matrix whose entries it lists. -/
theorem ofBuffer?_of_size_eq (hsize : data.size = rows * cols) (hdata : data.size < wordModulus) :
    ∃ m, ofBuffer? order stage rows cols data = .ok m ∧ m.ListedBy order rows cols data := by
  have hguard : data.size = rows * cols % wordModulus := by
    rw [Nat.mod_eq_of_lt (hsize ▸ hdata), hsize]
  cases order with
  | rowMajor =>
      obtain ⟨m, hread, hlisted⟩ := listedBy_readRows hsize
      refine ⟨m, ?_, hlisted⟩
      rw [ofBuffer?, if_pos hguard, hread, Option.elim_some]
  | colMajor => exact ⟨_, if_pos hguard, listedBy_self hsize⟩

/-- A length that wraps lets the reading run past the end of the buffer. -/
theorem ofBuffer?_rowMajor_of_wraps (h : CountWraps rows cols data.size) :
    ofBuffer? .rowMajor stage rows cols data = .error .exhausted := by
  have hnone : readRows? rows cols data = none :=
    readRows?_eq_none_iff.2 (StorageOrder.rowMajor.exists_missing h.size_lt)
  rw [ofBuffer?, if_pos h.1, hnone, Option.elim_none]

/-- A length that wraps makes a matrix of a buffer that is too short for it. -/
theorem ofBuffer?_colMajor_of_wraps (h : CountWraps rows cols data.size) :
    ofBuffer? .colMajor stage rows cols data = .ok ⟨rows, cols, data⟩ := if_pos h.1

end Mat

/-! ## Imports that count entries -/

variable {α : Type} [Zero α]

/-- What a caller expects of the import of a buffer: a matrix exactly if there is one entry for each
of its places, a mismatch at the named stage otherwise, and the entries in the places that the order
gives them. -/
structure ImportsEntries (order : StorageOrder) (stage rows cols : Nat) (data : Array α)
    (result : Except (ImportFault α) (Mat α)) : Prop where
  accepted : (∃ m, result = .ok m) ↔ data.size = rows * cols
  refused : data.size ≠ rows * cols →
    result = .error (.refused (.mismatch stage (.buffer order data.size rows cols)))
  listed : ∀ m, result = .ok m → m.ListedBy order rows cols data

section Imports

variable (order : StorageOrder) (stage : Nat) {rows cols : Nat} {data : Array α}

/-- A length that wraps is not refused. -/
theorem not_importsEntries_of_wraps (h : CountWraps rows cols data.size) :
    ¬ ImportsEntries order stage rows cols data (Mat.ofBuffer? order stage rows cols data) := by
  intro himports
  have hrefused := himports.refused h.2
  cases order with
  | rowMajor =>
      rw [Mat.ofBuffer?_rowMajor_of_wraps stage h] at hrefused
      cases hrefused
  | colMajor =>
      rw [Mat.ofBuffer?_colMajor_of_wraps stage h] at hrefused
      cases hrefused

/-- A length that does not wrap is compared with the number of entries. -/
theorem importsEntries_of_not_wraps (hdata : data.size < wordModulus)
    (h : ¬ CountWraps rows cols data.size) :
    ImportsEntries order stage rows cols data (Mat.ofBuffer? order stage rows cols data) := by
  by_cases hsize : data.size = rows * cols
  · obtain ⟨m, hok, hlisted⟩ := Mat.ofBuffer?_of_size_eq order stage hsize hdata
    have honly : ∀ m', Mat.ofBuffer? order stage rows cols data = .ok m' →
        m'.ListedBy order rows cols data := by
      intro m' hok'
      obtain rfl : m = m' := Except.ok.inj (hok.symm.trans hok')
      exact hlisted
    exact ⟨⟨fun _ => hsize, fun _ => ⟨m, hok⟩⟩, fun hne => absurd hsize hne, honly⟩
  · rw [Mat.ofBuffer?_of_size_ne order stage hsize h]
    exact ⟨⟨nofun, fun heq => absurd heq hsize⟩, fun _ => rfl, nofun⟩

/-- Whatever can be read row after row can be read column after column with the sizes exchanged, and
is the transpose of that. -/
theorem import_transposed (hdata : data.size < wordModulus) {m : Mat α}
    (hm : Mat.ofBuffer? .rowMajor stage rows cols data = .ok m) :
    ∃ m', Mat.ofBuffer? .colMajor stage cols rows data = .ok m' ∧ m.HasShape rows cols ∧
      m'.HasShape cols rows ∧ m.toMatrix rows cols = (m'.toMatrix cols rows).transpose := by
  have hwraps : ¬ CountWraps rows cols data.size := fun h => by
    rw [Mat.ofBuffer?_rowMajor_of_wraps stage h] at hm
    cases hm
  have hrows := importsEntries_of_not_wraps .rowMajor stage hdata hwraps
  have hlisted := hrows.listed m hm
  -- the number of entries is the same for both shapes
  have hsize : data.size = cols * rows := (hrows.accepted.1 ⟨m, hm⟩).trans (Nat.mul_comm ..)
  obtain ⟨m', hm', hlisted'⟩ := Mat.ofBuffer?_of_size_eq .colMajor stage hsize hdata
  exact ⟨m', hm', hlisted.shape, hlisted'.shape, hlisted.transpose_eq hlisted'⟩

end Imports

/-- **An import counts the entries unless the count wraps.** Take any two sizes, either order and
any buffer; the length of a buffer is a machine word. The import does what a caller expects, that is
gives a matrix exactly if there is one entry for each place of the shape, a mismatch at the stage
otherwise, and puts the entries where the order says, if and only if the length does not wrap. What
is read row after row is the transpose of what is read column after column with the sizes exchanged.
If the length wraps, some place has no entry in the buffer: row after row the reading comes to the
end of the buffer, and column after column a matrix of the full shape is made of it. -/
theorem import_counts_entries (stage rows cols : Nat) {data : Array α}
    (hdata : data.size < wordModulus) :
    (∀ order, ImportsEntries order stage rows cols data
        (Mat.ofBuffer? order stage rows cols data) ↔ ¬ CountWraps rows cols data.size) ∧
    (∀ m, Mat.ofBuffer? .rowMajor stage rows cols data = .ok m →
      ∃ m', Mat.ofBuffer? .colMajor stage cols rows data = .ok m' ∧ m.HasShape rows cols ∧
        m'.HasShape cols rows ∧ m.toMatrix rows cols = (m'.toMatrix cols rows).transpose) ∧
    (CountWraps rows cols data.size →
      (∀ order : StorageOrder, ∃ i < rows, ∃ j < cols,
        data[order.position rows cols i j]? = none) ∧
      Mat.ofBuffer? .rowMajor stage rows cols data = .error .exhausted ∧
      Mat.ofBuffer? .colMajor stage rows cols data = .ok ⟨rows, cols, data⟩) := by
  refine ⟨fun order => ?counts, fun m hm => import_transposed stage hdata hm,
    fun hwraps => ⟨fun order => ?missing, ?short⟩⟩
  case counts =>
    constructor
    · intro himports hwraps
      exact not_importsEntries_of_wraps order stage hwraps himports
    · exact importsEntries_of_not_wraps order stage hdata
  case missing =>
    obtain ⟨i, hi, j, hj, hmissing⟩ := order.exists_missing hwraps.size_lt
    exact ⟨i, hi, j, hj, Array.getElem?_eq_none hmissing⟩
  case short =>
    exact ⟨Mat.ofBuffer?_rowMajor_of_wraps stage hwraps,
      Mat.ofBuffer?_colMajor_of_wraps stage hwraps⟩

/-- For instance six entries are a matrix of two rows and three columns, and its transpose; three
are no square. -/
theorem import_counts_entries_twoByThree : ∃ m m' : Mat ℚ,
    (#[1, 2, 3, 4, 5, 6] : Array ℚ).size < wordModulus ∧ ¬ CountWraps 2 3 6 ∧
    Mat.ofBuffer? .rowMajor 0 2 3 #[1, 2, 3, 4, 5, 6] = .ok m ∧ m.get 0 2 = 3 ∧ m.get 1 0 = 4 ∧
    Mat.ofBuffer? .colMajor 0 3 2 #[1, 2, 3, 4, 5, 6] = .ok m' ∧
    m.toMatrix 2 3 = (m'.toMatrix 3 2).transpose ∧
    Mat.ofBuffer? .rowMajor 3 2 2 (#[1, 2, 3] : Array ℚ) =
      .error (.refused (.mismatch 3 (.buffer .rowMajor 3 2 2))) := by
  have hdata : (#[1, 2, 3, 4, 5, 6] : Array ℚ).size < wordModulus := by decide
  have hwraps : ¬ CountWraps 2 3 (#[1, 2, 3, 4, 5, 6] : Array ℚ).size :=
    not_countWraps_of_lt (by decide)
  obtain ⟨hcounts, htransposed, _⟩ := import_counts_entries 0 2 3 hdata
  have hrows := (hcounts .rowMajor).2 hwraps
  obtain ⟨m, hm⟩ := hrows.accepted.2 rfl
  obtain ⟨m', hm', _, _, ht⟩ := htransposed m hm
  have hentry := (hrows.listed m hm).entry
  have hshort : (#[1, 2, 3] : Array ℚ).size < wordModulus := by decide
  have hrefused := ((import_counts_entries 3 2 2 hshort).1 .rowMajor).2
    (not_countWraps_of_lt (by decide))
  exact ⟨m, m', hdata, hwraps, hm, (Option.some.inj (hentry 0 (by decide) 2 (by decide))).symm,
    (Option.some.inj (hentry 1 (by decide) 0 (by decide))).symm, hm', ht,
    hrefused.refused (by decide)⟩

/-- Two entries are not those of a matrix of two columns with `2 ^ 63 + 1` rows, but the product of
these sizes is two as a machine word. Column after column the two entries become a matrix that
passes for one of this shape, and row after row the reading comes to their end. -/
theorem two_entries_imported :
    9223372036854775809 < wordModulus ∧ (#[1, 2] : Array ℚ).size ≠ 9223372036854775809 * 2 ∧
    Mat.ofBuffer? .colMajor 0 9223372036854775809 2 (#[1, 2] : Array ℚ) =
      .ok ⟨9223372036854775809, 2, #[1, 2]⟩ ∧
    Mat.checkShape 0 "M" (⟨9223372036854775809, 2, #[1, 2]⟩ : Mat ℚ) 9223372036854775809 2 =
      .ok () ∧
    Mat.ofBuffer? .rowMajor 0 9223372036854775809 2 (#[1, 2] : Array ℚ) = .error .exhausted ∧
    ∀ order, ¬ ImportsEntries order 0 9223372036854775809 2 (#[1, 2] : Array ℚ)
      (Mat.ofBuffer? order 0 9223372036854775809 2 #[1, 2]) := by
  have hwraps : CountWraps 9223372036854775809 2 (#[1, 2] : Array ℚ).size := by decide
  exact ⟨by decide, hwraps.2, Mat.ofBuffer?_colMajor_of_wraps 0 hwraps, if_pos ⟨rfl, rfl⟩,
    Mat.ofBuffer?_rowMajor_of_wraps 0 hwraps,
    fun order => not_importsEntries_of_wraps order 0 hwraps⟩

end StagedQP
