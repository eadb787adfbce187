import Pefa.Lib.Blocks
import Pefa.Utils

/-!
# Arrow data

The part of Arrow's data model the program works on. An array is a value buffer with an offset
and a length: its element `i` is `values[offset + i]`. A chunked array is a list of arrays whose
lengths add up to an `int64_t`, and a table is a list of named columns.

Two readings of an array matter. `elems` is Arrow's own: the elements from `offset` on. `front` is
what a program sees that takes the buffer's pointer and forgets the offset: the first `length`
elements of the buffer.
-/

namespace Pefa

/-! ## Types -/

inductive Width where
  | w8 | w16 | w32 | w64
  deriving DecidableEq, Repr

namespace Width

/-- The size in bytes. -/
def bytes : Width → Nat
  | .w8 => 1
  | .w16 => 2
  | .w32 => 4
  | .w64 => 8

abbrev bits (w : Width) : Nat := 8 * w.bytes

end Width

inductive FloatWidth where
  | half | single | double
  deriving DecidableEq, Repr

/-- A floating-point value up to the sign of zero: a number, an infinity or a NaN. -/
inductive FloatValue where
  | nan
  | negInf
  | num (q : Rat)
  | posInf
  deriving DecidableEq

/-- The type ids that no part of the program supports. -/
inductive OtherTypeId where
  | binary | fixedSizeBinary | date32 | date64 | timestamp | time32 | time64 | interval | decimal
  | list | struct | union | dictionary | map | extension | fixedSizeList | duration
  | largeString | largeBinary | largeList
  deriving DecidableEq, Repr

/-- `arrow::DataType`. Of the types nothing supports, the program asks for the text of
`ToString()` and, if they are `FixedWidthType`s, for the width. -/
inductive DataType where
  | integral (signed : Bool) (width : Width)
  | floating (width : FloatWidth)
  | string
  | bool
  | na
  | other (id : OtherTypeId) (text : String) (bitWidth : Option Nat)
  deriving DecidableEq, Repr

namespace DataType

@[match_pattern] abbrev int8 : DataType := .integral true .w8
@[match_pattern] abbrev int16 : DataType := .integral true .w16
@[match_pattern] abbrev int32 : DataType := .integral true .w32
@[match_pattern] abbrev int64 : DataType := .integral true .w64
@[match_pattern] abbrev uint8 : DataType := .integral false .w8
@[match_pattern] abbrev uint16 : DataType := .integral false .w16
@[match_pattern] abbrev uint32 : DataType := .integral false .w32
@[match_pattern] abbrev uint64 : DataType := .integral false .w64
@[match_pattern] abbrev halfFloat : DataType := .floating .half
@[match_pattern] abbrev float : DataType := .floating .single
@[match_pattern] abbrev double : DataType := .floating .double

/-- `DataType::ToString` -/
def toString : DataType → String
  | .int8 => "int8"
  | .int16 => "int16"
  | .int32 => "int32"
  | .int64 => "int64"
  | .uint8 => "uint8"
  | .uint16 => "uint16"
  | .uint32 => "uint32"
  | .uint64 => "uint64"
  | .halfFloat => "halffloat"
  | .float => "float"
  | .double => "double"
  | .string => "string"
  | .bool => "bool"
  | .na => "null"
  | .other _ text _ => text

/-- `FixedWidthType::bit_width`, for the types that are `FixedWidthType`s. -/
def bitWidth : DataType → Option Nat
  | .integral _ w => some w.bits
  | .floating .half => some 16
  | .floating .single => some 32
  | .floating .double => some 64
  | .string => none
  | .bool => some 1
  | .na => none
  | .other _ _ bitWidth => bitWidth

/-- The width of an element in bytes. -/
def byteWidth (type : DataType) : Nat := type.bitWidth.getD 0 / 8

/-- The values of a type: fixed-width integers as bit patterns, whatever their sign. Types that
nothing supports have no values the program could look at. -/
def CType : DataType → Type
  | .integral _ w => BitVec w.bits
  | .floating _ => FloatValue
  | .string => String
  | .bool => Bool
  | .na => Unit
  | .other _ _ _ => Unit

instance instDecidableEqCType : (t : DataType) → DecidableEq t.CType
  | .integral _ w => inferInstanceAs (DecidableEq (BitVec w.bits))
  | .floating _ => inferInstanceAs (DecidableEq FloatValue)
  | .string => inferInstanceAs (DecidableEq String)
  | .bool => inferInstanceAs (DecidableEq Bool)
  | .na => inferInstanceAs (DecidableEq Unit)
  | .other _ _ _ => inferInstanceAs (DecidableEq Unit)

/-- `PEFA_INTEGRAL_CASE` -/
def isIntegral : DataType → Bool
  | .integral _ _ => true
  | _ => false

end DataType

/-- `BitUtil::BytesForBits` -/
def bytesForBits (bits : Nat) : Nat := (bits + 7) / 8

theorem bytesForBits_le {bits bytes : Nat} : bytesForBits bits ≤ bytes ↔ bits ≤ 8 * bytes := by
  unfold bytesForBits
  omega

/-! ## Arrays -/

/-- `arrow::ArrayData` of a fixed-width array: `buffers[1]` as `values`, `buffers[0]` as
`validity`, with one entry for each value. The buffer of the values is assumed to be there, mutable
and in CPU memory, as `materialize_column` takes its `mutable_data()`. -/
structure ArrayData (α : Type) where
  values : List α
  offset : Nat
  length : Nat
  validity : Option (List Bool)
  inBounds : offset + length ≤ values.length
  length_lt : length < 2 ^ 63

namespace ArrayData

variable {α : Type}

/-- The elements of the array. -/
def elems (a : ArrayData α) : List α := (a.values.drop a.offset).take a.length

/-- The first `length` values of the buffer. -/
def front (a : ArrayData α) : List α := a.values.take a.length

/-- `Array::IsValid`; an array without a validity buffer has no nulls. -/
def isValid (a : ArrayData α) (i : Nat) : Bool :=
  match a.validity with
  | none => true
  | some v => v.getD (a.offset + i) true

/-- The elements, with the nulls among them. -/
def cells (a : ArrayData α) : List (Option α) :=
  a.elems.mapIdx fun i x => if a.isValid i then some x else none

def NullFree (a : ArrayData α) : Prop := ∀ i < a.length, a.isValid i = true

instance (a : ArrayData α) : Decidable a.NullFree :=
  inferInstanceAs (Decidable (∀ i < a.length, a.isValid i = true))

/-- An array over a buffer of its own, without nulls. -/
def ofList (l : List α) (h : l.length < 2 ^ 63) : ArrayData α where
  values := l
  offset := 0
  length := l.length
  validity := none
  inBounds := by simp
  length_lt := h

/-- An array of `n` equal elements. -/
def replicate (n : Nat) (x : α) (h : n < 2 ^ 63) : ArrayData α where
  values := List.replicate n x
  offset := 0
  length := n
  validity := none
  inBounds := by simp
  length_lt := h

@[simp] theorem length_elems (a : ArrayData α) : a.elems.length = a.length := by
  have := a.inBounds
  simp [elems]
  omega

@[simp] theorem length_front (a : ArrayData α) : a.front.length = a.length := by
  have := a.inBounds
  simp [front]
  omega

@[simp] theorem length_cells (a : ArrayData α) : a.cells.length = a.length := by simp [cells]

theorem front_of_offset_zero {a : ArrayData α} (h : a.offset = 0) : a.front = a.elems := by
  simp [front, elems, h]

theorem getElem?_front {a : ArrayData α} {i : Nat} (h : i < a.length) :
    a.front[i]? = a.values[i]? := by
  simp [front, h]

/-- The buffer is long enough for every index below the array's length. -/
theorem getElem?_values {a : ArrayData α} {i : Nat} (h : i < a.length) :
    ∃ x, a.values[i]? = some x := by
  have := a.inBounds
  exact ⟨_, List.getElem?_eq_getElem (show i < a.values.length by omega)⟩

theorem NullFree.cells_eq {a : ArrayData α} (h : a.NullFree) : a.cells = a.elems.map some := by
  apply List.ext_getElem (by simp)
  intro i h1 h2
  have hi : i < a.length := by simpa using h1
  simp [cells, h i hi]

@[simp] theorem elems_ofList (l : List α) (h : l.length < 2 ^ 63) : (ofList l h).elems = l := by
  simp [elems, ofList]

end ArrayData

/-! ## Chunked arrays -/

/-- `arrow::ChunkedArray`; the length is an `int64_t`. Arrow has the number of chunks as an `int`,
so it is assumed that there are fewer than 2^31 of them wherever the program asks for it. -/
structure ChunkedArray (α : Type) where
  chunks : List (ArrayData α)
  length_lt : (chunks.map (·.length)).sum < 2 ^ 63

namespace ChunkedArray

variable {α : Type}

/-- The constructor adds the lengths up in an `int64_t`. -/
def create (chunks : List (ArrayData α)) : Except Error (ChunkedArray α) :=
  if h : (chunks.map (·.length)).sum < 2 ^ 63 then .ok ⟨chunks, h⟩ else .error .signedOverflow

def numChunks (c : ChunkedArray α) : Nat := c.chunks.length

/-- The lengths of the chunks. -/
def lens (c : ChunkedArray α) : List Nat := c.chunks.map (·.length)

def length (c : ChunkedArray α) : Nat := c.lens.sum

def elems (c : ChunkedArray α) : List α := c.chunks.flatMap (·.elems)

def front (c : ChunkedArray α) : List α := c.chunks.flatMap (·.front)

def cells (c : ChunkedArray α) : List (Option α) := c.chunks.flatMap (·.cells)

/-- No nulls. -/
def NullFree (c : ChunkedArray α) : Prop := ∀ a ∈ c.chunks, a.NullFree

/-- No chunk is a slice that starts inside its buffer. -/
def ZeroOffset (c : ChunkedArray α) : Prop := ∀ a ∈ c.chunks, a.offset = 0

instance (c : ChunkedArray α) : Decidable c.NullFree :=
  inferInstanceAs (Decidable (∀ a ∈ c.chunks, a.NullFree))

instance (c : ChunkedArray α) : Decidable c.ZeroOffset :=
  inferInstanceAs (Decidable (∀ a ∈ c.chunks, a.offset = 0))

@[simp] theorem length_elems (c : ChunkedArray α) : c.elems.length = c.length := by
  simp [elems, length, lens, List.length_flatMap]

@[simp] theorem length_front (c : ChunkedArray α) : c.front.length = c.length := by
  simp [front, length, lens, List.length_flatMap]

@[simp] theorem length_cells (c : ChunkedArray α) : c.cells.length = c.length := by
  simp [cells, length, lens, List.length_flatMap]

theorem getElem?_lens {c : ChunkedArray α} {i len : Nat} (h : c.lens[i]? = some len) :
    ∃ a, c.chunks[i]? = some a ∧ a.length = len := by
  simpa [lens] using h

theorem lens_getElem? {c : ChunkedArray α} {i : Nat} {a : ArrayData α}
    (h : c.chunks[i]? = some a) : c.lens[i]? = some a.length := by
  simp [lens, h]

theorem getElem?_elems {c : ChunkedArray α} {i j : Nat} {a : ArrayData α}
    (ha : c.chunks[i]? = some a) (hj : j < a.length) :
    c.elems[Blocks.start c.lens i + j]? = a.elems[j]? := by
  have := Blocks.getElem?_flatMap (·.elems) ha (by simpa using hj)
  simpa [lens, elems] using this

theorem getElem?_front {c : ChunkedArray α} {i j : Nat} {a : ArrayData α}
    (ha : c.chunks[i]? = some a) (hj : j < a.length) :
    c.front[Blocks.start c.lens i + j]? = a.values[j]? := by
  have := Blocks.getElem?_flatMap (·.front) ha (by simpa using hj)
  simpa [lens, front, ArrayData.getElem?_front hj] using this

/-- Every row lies in a chunk. -/
theorem exists_chunk {c : ChunkedArray α} {r : Nat} (hr : r < c.length) :
    ∃ i a j, c.chunks[i]? = some a ∧ j < a.length ∧ r = Blocks.start c.lens i + j := by
  obtain ⟨i, len, hi, hlo, hhi⟩ := Blocks.exists_block hr
  obtain ⟨a, ha, rfl⟩ := getElem?_lens hi
  exact ⟨i, a, r - Blocks.start c.lens i, ha, by omega, by omega⟩

theorem ZeroOffset.front_eq {c : ChunkedArray α} (h : c.ZeroOffset) : c.front = c.elems := by
  unfold front elems
  exact List.flatMap_congr fun a ha => ArrayData.front_of_offset_zero (h a ha)

theorem NullFree.cells_eq {c : ChunkedArray α} (h : c.NullFree) : c.cells = c.elems.map some := by
  unfold cells elems
  rw [List.map_flatMap]
  exact List.flatMap_congr fun a ha => (h a ha).cells_eq

theorem create_ok {chunks : List (ArrayData α)} (h : (chunks.map (·.length)).sum < 2 ^ 63) :
    create chunks = .ok ⟨chunks, h⟩ := dif_pos h

end ChunkedArray

/-! ## Tables -/

/-- `arrow::Field` -/
structure Field where
  name : String
  type : DataType
  deriving DecidableEq, Repr

/-- A column of a table, under its field in the table's schema. -/
structure Column where
  name : String
  type : DataType
  data : ChunkedArray type.CType

namespace Column

@[reducible] def field (c : Column) : Field := ⟨c.name, c.type⟩

end Column

/-- `arrow::Table` -/
structure Table where
  columns : List Column

namespace Table

/-- The schema. -/
def fields (t : Table) : List Field := t.columns.map (·.field)

/-- `Table::Make` takes the number of rows from the first column. -/
def numRows (t : Table) : Nat :=
  match t.columns with
  | [] => 0
  | c :: _ => c.data.length

/-- `Table::GetColumnByName`: null when no column has the name, or more than one. -/
def getColumnByName (t : Table) (name : String) : Option Column :=
  match t.columns.filter (·.name = name) with
  | [c] => some c
  | _ => none

/-- The columns of a table are equally long. -/
def Valid (t : Table) : Prop := ∀ c ∈ t.columns, c.data.length = t.numRows

instance (t : Table) : Decidable t.Valid :=
  inferInstanceAs (Decidable (∀ c ∈ t.columns, c.data.length = t.numRows))

theorem getColumnByName_mem {t : Table} {name : String} {c : Column}
    (h : t.getColumnByName name = some c) : c ∈ t.columns ∧ c.name = name := by
  unfold getColumnByName at h
  split at h
  · next c' hf =>
      cases h
      have hm : c ∈ t.columns.filter (·.name = name) := by simp [hf]
      simpa using hm
  · cases h

/-- A table in which a name stands for a column has a first column. -/
theorem exists_first {t : Table} {name : String} {c : Column}
    (h : t.getColumnByName name = some c) :
    ∃ c' cs, t.columns = c' :: cs ∧ c' ∈ t.columns := by
  obtain ⟨hmem, -⟩ := getColumnByName_mem h
  obtain ⟨c', cs, hcols⟩ := List.exists_cons_of_ne_nil (List.ne_nil_of_mem hmem)
  exact ⟨c', cs, hcols, by rw [hcols]; exact List.mem_cons_self⟩

end Table

end Pefa
