import Pefa.Reference.RawBuffers

/-!
# Slices

Arrow cuts a slice out of an array without copying: the slice has the buffer of the array and an
offset. Nothing in the program adds the offset, so a query on a slice sees the first elements of
the buffer in place of those of the slice. A copy of the slice has the same rows and no offset;
the query returns the same on both when the front of the buffer means the same as the slice
(`slice_independent_iff`).
-/

namespace Pefa

/-! ## Copies -/

namespace ArrayData

variable {α : Type}

/-- The elements of the array, in a buffer of their own. -/
def copied (a : ArrayData α) : ArrayData α :=
  .ofList a.elems (by rw [length_elems]; exact a.length_lt)

@[simp] theorem length_copied (a : ArrayData α) : a.copied.length = a.length := length_elems a

theorem front_copied (a : ArrayData α) : a.copied.front = a.elems := by
  rw [front_of_offset_zero (a := a.copied) rfl]
  exact elems_ofList _ _

theorem nullFree_copied (a : ArrayData α) : a.copied.NullFree := fun _ _ => rfl

end ArrayData

namespace ChunkedArray

variable {α : Type}

theorem lens_copied (c : ChunkedArray α) :
    (c.chunks.map (·.copied)).map (·.length) = c.chunks.map (·.length) := by
  rw [List.map_map]
  exact List.map_congr_left fun a _ => a.length_copied

/-- The chunks, each in a buffer of its own. -/
def copied (c : ChunkedArray α) : ChunkedArray α where
  chunks := c.chunks.map (·.copied)
  length_lt := by rw [lens_copied]; exact c.length_lt

theorem length_copied (c : ChunkedArray α) : c.copied.length = c.length :=
  congrArg List.sum c.lens_copied

theorem front_copied (c : ChunkedArray α) : c.copied.front = c.elems := by
  show (c.chunks.map _).flatMap _ = c.chunks.flatMap _
  rw [List.flatMap_map]
  exact List.flatMap_congr fun a _ => a.front_copied

theorem cells_copied {c : ChunkedArray α} (h : c.NullFree) : c.copied.cells = c.cells := by
  have hnull : c.copied.NullFree := by
    intro a ha
    obtain ⟨a', -, rfl⟩ := List.mem_map.mp ha
    exact a'.nullFree_copied
  have hzero : c.copied.ZeroOffset := by
    intro a ha
    obtain ⟨a', -, rfl⟩ := List.mem_map.mp ha
    rfl
  rw [hnull.cells_eq, h.cells_eq, ← hzero.front_eq, c.front_copied]

end ChunkedArray

namespace Table

/-- The table with every chunk copied to a buffer of its own. -/
def copied (t : Table) : Table := ⟨t.columns.map fun c => { c with data := c.data.copied }⟩

variable {t : Table}

theorem numRows_copied (t : Table) : t.copied.numRows = t.numRows := by
  rw [numRows, numRows, copied]
  cases t.columns with
  | nil => rfl
  | cons c cs => exact c.data.length_copied

/-- The rows of the copy. -/
theorem rowsBy_copied {cells cells' : (c : Column) → List (Option c.type.CType)}
    (h : ∀ c ∈ t.columns, cells' { c with data := c.data.copied } = cells c) :
    t.copied.rowsBy cells' = t.rowsBy cells := by
  refine rowsBy_of_forall₂ t.numRows_copied (List.forall₂_map_right_iff.mpr ?_)
  exact List.forall₂_same.mpr fun c hc => cellAt_with_data (h c hc)

theorem frontRows_copied (t : Table) :
    t.copied.frontRows = t.rowsBy fun c => c.data.elems.map some :=
  rowsBy_copied fun c _ => by rw [c.data.front_copied]

theorem logicalRows_copied (h : ∀ c ∈ t.columns, c.data.NullFree) :
    t.copied.logicalRows = t.logicalRows :=
  rowsBy_copied fun c hc => ChunkedArray.cells_copied (h c hc)

theorem singleChunk_copied (h : SingleChunk t) : SingleChunk t.copied where
  valid c' hc' := by
    obtain ⟨c, hc, rfl⟩ := List.mem_map.mp hc'
    rw [numRows_copied, ← h.valid c hc]
    exact c.data.length_copied
  single c' hc' := by
    obtain ⟨c, hc, rfl⟩ := List.mem_map.mp hc'
    obtain ⟨chunk, hchunk⟩ := h.single c hc
    exact ⟨chunk.copied, congrArg (List.map _) hchunk⟩
  integral c' hc' := by
    obtain ⟨c, hc, rfl⟩ := List.mem_map.mp hc'
    exact h.integral c hc

/-- The rows at the front are the elements exactly if every column's front is. -/
theorem frontRows_eq_elems_iff (h : t.Valid) :
    (t.frontRows = t.rowsBy fun c => c.data.elems.map some) ↔
      ∀ c ∈ t.columns, c.data.front = c.data.elems := by
  constructor
  · intro heq c hc
    have hcells := cells_of_rowsBy heq hc (by simpa using h c hc) (by simpa using h c hc)
    exact List.map_injective_iff.mpr (Option.some_injective _) hcells
  · exact fun hfront => rowsBy_congr fun c hc => by rw [hfront c hc]

end Table

/-- **When results do not depend on where a slice starts**, on null-free tables of one chunk each.
A query returns the same on a table and its copy if it has no filter, or if an `int` can count the
rows and the query means the same at the front of the buffers as on the elements. All queries do
exactly if no column can be named, or the front of every buffer is the slice. -/
theorem slice_independent_iff {t : Table} (h : SingleChunk t)
    (hnull : ∀ c ∈ t.columns, c.data.NullFree) :
    (∀ steps ≠ [], RowSemantics.integers.Admits t.fields steps →
      (SameResult t t.copied steps ↔ (steps.any Step.isFilter = true → t.numRows < 2 ^ 31 ∧
        t.frontRows.interpret Cell.compare steps = t.logicalRows.interpret Cell.compare steps))) ∧
    ((∀ steps ≠ [], RowSemantics.integers.Admits t.fields steps → SameResult t t.copied steps) ↔
      (HasNamed t → t.numRows < 2 ^ 31 ∧ ∀ c ∈ t.columns, c.data.front = c.data.elems)) := by
  have hlogical : t.copied.frontRows = t.logicalRows := by
    rw [t.frontRows_copied]
    exact Table.rowsBy_congr fun c hc => (hnull c hc).cells_eq.symm
  constructor
  · intro steps hsteps hadm
    rw [← hlogical]
    exact sameResult_iff integers_compiled h (Table.singleChunk_copied h) t.numRows_copied
      (Table.logicalRows_copied hnull) hsteps hadm
  · rw [← Table.frontRows_eq_elems_iff h.valid, ← t.frontRows_copied]
    exact sameResult_all_iff integers_compiled integers_keepsAll h (Table.singleChunk_copied h)
      t.numRows_copied (Table.logicalRows_copied hnull)

/-- The last two of three numbers. -/
def lastTwo : Table := ⟨[⟨"a", .int32, ⟨[⟨[1#32, 2#32, 3#32], 1, 2, none, by decide, by decide⟩],
  by decide⟩⟩]⟩

theorem singleChunk_lastTwo : SingleChunk lastTwo := by
  refine ⟨by decide, fun c hc => ?_, by decide⟩
  obtain rfl := List.mem_singleton.mp hc
  exact ⟨_, rfl⟩

theorem slice_independent_iff_lastTwo :
    (∀ steps ≠ [], RowSemantics.integers.Admits lastTwo.fields steps →
      (SameResult lastTwo lastTwo.copied steps ↔ (steps.any Step.isFilter = true →
        lastTwo.numRows < 2 ^ 31 ∧ lastTwo.frontRows.interpret Cell.compare steps =
          lastTwo.logicalRows.interpret Cell.compare steps))) ∧
    ((∀ steps ≠ [], RowSemantics.integers.Admits lastTwo.fields steps →
        SameResult lastTwo lastTwo.copied steps) ↔
      (HasNamed lastTwo → lastTwo.numRows < 2 ^ 31 ∧
        ∀ c ∈ lastTwo.columns, c.data.front = c.data.elems)) :=
  slice_independent_iff singleChunk_lastTwo (by decide)

/-- The slice has no 1 in it, and the query that looks for a 1 finds one. -/
theorem not_slice_independent_lastTwo :
    ¬ SameResult lastTwo lastTwo.copied [.filter ((col "a").eq (lit 1))] := by
  intro h
  obtain ⟨-, hsame⟩ := (sameResult_iff integers_compiled singleChunk_lastTwo
    (Table.singleChunk_copied singleChunk_lastTwo) (by decide)
    (Table.logicalRows_copied (by decide)) (by decide) (by decide)).mp h rfl
  have hfound : (lastTwo.frontRows.interpret Cell.compare [.filter ((col "a").eq (lit 1))]).map
      (·.rows.length) = some 1 := by decide
  have hnone : (lastTwo.copied.frontRows.interpret Cell.compare
      [.filter ((col "a").eq (lit 1))]).map (·.rows.length) = some 0 := by decide
  rw [show RowSemantics.integers.compare = Cell.compare from rfl] at hsame
  rw [hsame, hnone] at hfound
  cases hfound

end Pefa
