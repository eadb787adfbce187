import Pefa.Lib.Bitmap
import Pefa.Arrow

/-!
# Execution contexts

What is handed from one step of a plan to the next: the table so far and, after a filter, the
bitmap of the rows that passed. Every step builds a new context, and a new context has no bitmap.
-/

namespace Pefa

/-- `NullChunkMetadata` or `TypedChunkMetadata<T>`; nothing reads or writes its bounds. -/
inductive ChunkMetadata where
  | null
  | typed (type : DataType)
  deriving DecidableEq, Repr

/-- `create_empty_chunk_metadata` -/
def createEmptyChunkMetadata : DataType → Except Error ChunkMetadata
  | .integral s w => .ok (.typed (.integral s w))
  | .float => .ok (.typed .float)
  | .double => .ok (.typed .double)
  | .string => .ok (.typed .string)
  | .bool => .ok (.typed .bool)
  | .na => .ok .null
  | type => .error (.notImplemented (type.toString ++ " type does not supported yet"))

structure TableMetadata where
  columns : List (List ChunkMetadata)
  filterBitmap : Option Bitmap

structure ExecutionContext where
  table : Table
  metadata : TableMetadata

namespace ExecutionContext

/-- `ExecutionContext::ExecutionContext`: metadata for every chunk, and no bitmap. -/
def create (table : Table) : Except Error ExecutionContext := do
  let columns ← table.columns.mapM fun c => c.data.chunks.mapM fun _ =>
    createEmptyChunkMetadata c.type
  .ok ⟨table, ⟨columns, none⟩⟩

/-- The bitmap of a context. -/
def filterBitmap (ctx : ExecutionContext) : Option Bitmap := ctx.metadata.filterBitmap

/-- A context can be built for every table of supported types. -/
theorem create_ok (table : Table)
    (h : ∀ c ∈ table.columns, ∃ m, createEmptyChunkMetadata c.type = .ok m) :
    ∃ ctx, create table = .ok ctx ∧ ctx.table = table ∧ ctx.filterBitmap = none := by
  have hcolumn : ∀ c ∈ table.columns, ∃ ms, (c.data.chunks.mapM fun _ =>
      createEmptyChunkMetadata c.type) = .ok ms ∧ True := by
    intro c hc
    obtain ⟨m, hm⟩ := h c hc
    obtain ⟨ms, hms, -⟩ : ∃ ms, (c.data.chunks.mapM fun _ => createEmptyChunkMetadata c.type) =
        .ok ms ∧ List.Forall₂ (fun _ _ => True) c.data.chunks ms :=
      mapM_ok fun _ _ => ⟨m, hm, trivial⟩
    exact ⟨ms, hms, trivial⟩
  obtain ⟨columns, hcolumns, -⟩ := mapM_ok hcolumn
  refine ⟨⟨table, ⟨columns, none⟩⟩, ?_, rfl, rfl⟩
  simp only [create, hcolumns, bind_ok]

/-- A context that is built is one for its table, without a bitmap. -/
theorem create_eq_ok {table : Table} {ctx : ExecutionContext} (h : create table = .ok ctx) :
    ctx.table = table ∧ ctx.filterBitmap = none := by
  obtain ⟨columns, -, h⟩ := bind_eq_ok.mp h
  cases h
  exact ⟨rfl, rfl⟩

end ExecutionContext

/-- `execution::project`: the columns in the order of the names. -/
def project (ctx : ExecutionContext) (columnNames : List String) :
    Except Error ExecutionContext := do
  let columns ← columnNames.mapM fun name => deref (ctx.table.getColumnByName name)
  ExecutionContext.create ⟨columns⟩

end Pefa
