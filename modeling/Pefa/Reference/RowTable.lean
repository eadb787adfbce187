import Pefa.Kernels.LlvmHelpers
import Pefa.QueryCompiler.LogicalPlan

/-!
# Queries on rows

What a query means, without chunks, bitmaps and kernels: a table is a list of rows, a projection
picks cells out of every row, and a filter keeps the rows its expression is true of. A row carries
the names and types of its cells, and every row of a table has the fields of the table.

The meaning of a comparison is a parameter; `Cell.compare` is the comparison of integers.
-/

namespace Pefa

/-! ## Cells and rows -/

/-- One cell of a row; a null has no value. -/
structure Cell where
  name : String
  type : DataType
  value : Option type.CType

namespace Cell

instance : DecidableEq Cell
  | ⟨name, type, value⟩, ⟨name', type', value'⟩ =>
      if hname : name = name' then
        if htype : type = type' then
          decidable_of_iff (htype ▸ value = value') (by subst hname htype; simp)
        else isFalse fun h => htype (Cell.mk.inj h).2.1
      else isFalse fun h => hname (Cell.mk.inj h).1

def field (c : Cell) : Field := ⟨c.name, c.type⟩

/-- The comparison of a cell with a literal, for integers; a null passes no comparison. -/
def compare (c : Cell) (l : LiteralExpr) (op : CompareOp) : Bool :=
  c.value.any fun x => op.compare c.type x l

end Cell

/-- A meaning of comparisons. -/
abbrev Compare := Cell → LiteralExpr → CompareOp → Bool

/-- The element with a name, if there is one and only one. -/
def onlyNamed {α : Type} (key : α → String) (l : List α) (name : String) : Option α :=
  match l.filter (key · = name) with
  | [a] => some a
  | _ => none

theorem onlyNamed_mem {α : Type} {key : α → String} {l : List α} {name : String} {a : α}
    (h : onlyNamed key l name = some a) : a ∈ l := by
  unfold onlyNamed at h
  split at h
  · next a' hf =>
      cases h
      exact List.mem_of_mem_filter (by rw [hf]; exact List.mem_singleton_self a)
  · cases h

theorem onlyNamed_map {α β : Type} (key : β → String) (f : α → β) (l : List α) (name : String) :
    onlyNamed key (l.map f) name = (onlyNamed (key ∘ f) l name).map f := by
  have hfilter : (l.map f).filter (key · = name) = (l.filter ((key ∘ f) · = name)).map f := by
    rw [List.filter_map]
    rfl
  unfold onlyNamed
  rw [hfilter]
  cases l.filter ((key ∘ f) · = name) with
  | nil => rfl
  | cons a l => cases l <;> rfl

theorem getColumnByName_eq (table : Table) (name : String) :
    table.getColumnByName name = onlyNamed (·.name) table.columns name := by
  unfold Table.getColumnByName onlyNamed
  cases table.columns.filter (·.name = name) with
  | nil => rfl
  | cons c cs => cases cs <;> rfl

/-- What a comparison says of a row. -/
def atomOfRow (compare : Compare) (row : List Cell) (lhs : ColumnRef) (l : LiteralExpr)
    (op : CompareOp) : Bool :=
  (onlyNamed (·.name) row lhs.name).any fun c => compare c l op

/-- The truth of an expression on a row. -/
def truthOfRow (compare : Compare) (e : BooleanExpr) (row : List Cell) : Bool :=
  e.truth (atomOfRow compare row)

/-! ## Tables of rows -/

/-- A table as its rows, each with the fields of the table. -/
structure RowTable where
  fields : List Field
  rows : List (List Cell)
  fields_eq : ∀ row ∈ rows, row.map (·.field) = fields

namespace RowTable

theorem ext {t t' : RowTable} (hfields : t.fields = t'.fields) (hrows : t.rows = t'.rows) :
    t = t' := by
  cases t
  cases t'
  cases hfields
  cases hrows
  rfl

/-- Keep the rows that pass. -/
def filter (t : RowTable) (p : List Cell → Bool) : RowTable where
  fields := t.fields
  rows := t.rows.filter p
  fields_eq row hrow := t.fields_eq row (List.mem_of_mem_filter hrow)

/-- The fields that the names stand for. -/
def pickFields (fields : List Field) (names : List String) : Option (List Field) :=
  names.mapM (onlyNamed (·.name) fields)

/-- The cells that the names stand for. -/
def pickCells (row : List Cell) (names : List String) : List Cell :=
  names.filterMap (onlyNamed (·.name) row)

/-- The cells picked out of a row have the fields picked. -/
theorem map_field_pickCells {fields picked : List Field} {row : List Cell} :
    ∀ {names : List String}, row.map (·.field) = fields → pickFields fields names = some picked →
      (pickCells row names).map (·.field) = picked := by
  intro names hrow
  induction names generalizing picked with
  | nil =>
      intro h
      cases h
      rfl
  | cons name names ih =>
      intro h
      rw [pickFields, List.mapM_cons] at h
      obtain ⟨f, hf, h⟩ := Option.bind_eq_some_iff.mp h
      obtain ⟨fs, hfs, h⟩ := Option.bind_eq_some_iff.mp h
      cases h
      rw [← hrow, onlyNamed_map] at hf
      obtain ⟨c, hc, rfl⟩ := Option.map_eq_some_iff.mp hf
      have hcell : onlyNamed (·.name) row name = some c := hc
      rw [pickCells, List.filterMap_cons_some hcell, List.map_cons]
      exact congrArg (Cell.field c :: ·) (ih hfs)

/-- Pick the cells with the names out of every row, if every name stands for one field. -/
def project (t : RowTable) (names : List String) : Option RowTable :=
  match h : pickFields t.fields names with
  | none => none
  | some picked => some
      { fields := picked
        rows := t.rows.map (pickCells · names)
        fields_eq := fun cells hcells => by
          obtain ⟨row, hrow, rfl⟩ := List.mem_map.mp hcells
          exact map_field_pickCells (t.fields_eq row hrow) h }

theorem project_eq_some {t t' : RowTable} {names : List String} :
    t.project names = some t' ↔ pickFields t.fields names = some t'.fields ∧
      t'.rows = t.rows.map (pickCells · names) := by
  unfold project
  split
  · next h => simp [h]
  · next picked h =>
      constructor
      · intro heq
        cases heq
        exact ⟨h, rfl⟩
      · rintro ⟨hfields, hrows⟩
        exact congrArg some (ext (Option.some.inj (h.symm.trans hfields)) hrows.symm)

/-- A table can be projected to names that stand for its fields. -/
theorem exists_project {t : RowTable} {names : List String} {picked : List Field}
    (h : pickFields t.fields names = some picked) :
    ∃ t', t.project names = some t' ∧ t'.fields = picked := by
  cases ht : t.project names with
  | some t' =>
      exact ⟨t', rfl, Option.some.inj ((project_eq_some.mp ht).1.symm.trans h)⟩
  | none =>
      unfold project at ht
      split at ht
      · next hnone =>
          rw [h] at hnone
          cases hnone
      · cases ht

/-! ## The meaning of a query -/

/-- The meaning of one call. -/
def step (compare : Compare) (t : RowTable) : Step → Option RowTable
  | .project names => t.project names
  | .filter e => some (t.filter (truthOfRow compare e))

/-- **The meaning of a query**: its calls, one after another. -/
def interpret (compare : Compare) (t : RowTable) (steps : List Step) : Option RowTable :=
  steps.foldlM (step compare) t

end RowTable

end Pefa
