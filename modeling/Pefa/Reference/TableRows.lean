import Pefa.Execution.ExecutionContext
import Pefa.Reference.RowTable

/-!
# The rows of a table

A table read row by row. `logicalRows` are the rows as Arrow has them, with its offsets and its
nulls. `frontRows` are the rows as a program sees them that reads value buffers from their front
and looks at no validity buffer. On tables without offsets and nulls they are the same
(`frontRows_eq`).

The last section is about `project`: it picks the columns whose fields are picked, so on rows it
is the projection of rows.
-/

namespace Pefa

namespace Table

/-- The cell of a column in row `r`, when the column has the cells `cells`. -/
def cellAt (cells : (c : Column) → List (Option c.type.CType)) (r : Nat) (c : Column) : Cell :=
  ⟨c.name, c.type, (cells c)[r]?.join⟩

/-- The rows of a table whose columns have the cells `cells`. -/
def rowsBy (cells : (c : Column) → List (Option c.type.CType)) (t : Table) : RowTable where
  fields := t.fields
  rows := (List.range t.numRows).map fun r => t.columns.map (cellAt cells r)
  fields_eq row hrow := by
    obtain ⟨r, -, rfl⟩ := List.mem_map.mp hrow
    rw [List.map_map]
    rfl

/-- The rows of a table. -/
def logicalRows (t : Table) : RowTable := t.rowsBy fun c => c.data.cells

/-- The rows at the front of the value buffers. -/
def frontRows (t : Table) : RowTable := t.rowsBy fun c => c.data.front.map some

theorem rowsBy_congr {t : Table} {cells cells' : (c : Column) → List (Option c.type.CType)}
    (h : ∀ c ∈ t.columns, cells c = cells' c) : t.rowsBy cells = t.rowsBy cells' := by
  refine RowTable.ext rfl (List.map_congr_left fun r _ => List.map_congr_left fun c hc => ?_)
  rw [cellAt, cellAt, h c hc]

/-- No column has an offset or a null. -/
def Clean (t : Table) : Prop := ∀ c ∈ t.columns, c.data.ZeroOffset ∧ c.data.NullFree

instance (t : Table) : Decidable t.Clean :=
  inferInstanceAs (Decidable (∀ c ∈ t.columns, c.data.ZeroOffset ∧ c.data.NullFree))

/-- Without offsets and nulls the rows are at the front of the buffers. -/
theorem frontRows_eq {t : Table} (h : t.Clean) : t.frontRows = t.logicalRows := by
  refine rowsBy_congr fun c hc => ?_
  rw [(h c hc).2.cells_eq, (h c hc).1.front_eq]

theorem onlyNamed_cellAt (cells : (c : Column) → List (Option c.type.CType)) (r : Nat)
    (columns : List Column) (name : String) :
    onlyNamed (·.name) (columns.map (cellAt cells r)) name =
      (onlyNamed (·.name) columns name).map (cellAt cells r) :=
  onlyNamed_map _ _ _ _

theorem onlyNamed_field (columns : List Column) (name : String) :
    onlyNamed (·.name) (columns.map (·.field)) name =
      (onlyNamed (·.name) columns name).map (·.field) :=
  onlyNamed_map _ _ _ _

end Table

/-! ## Tables with other data -/

/-- Columns with the same cells make the same rows. -/
theorem Table.rowsBy_of_forall₂ {t t' : Table}
    {cells cells' : (c : Column) → List (Option c.type.CType)} (hnum : t'.numRows = t.numRows)
    (h : List.Forall₂ (fun c c' => ∀ r, cellAt cells' r c' = cellAt cells r c)
      t.columns t'.columns) : t'.rowsBy cells' = t.rowsBy cells := by
  have hmap : ∀ {β : Type} (f g : Column → β),
      (∀ c c', (∀ r, cellAt cells' r c' = cellAt cells r c) → g c' = f c) →
        t'.columns.map g = t.columns.map f := by
    intro β f g hfg
    generalize t.columns = cols, t'.columns = cols' at h
    induction h with
    | nil => rfl
    | cons hc _ ih => rw [List.map_cons, List.map_cons, hfg _ _ hc, ih]
  refine RowTable.ext (hmap _ _ fun c c' hc => congrArg Cell.field (hc 0)) ?_
  show (List.range t'.numRows).map _ = (List.range t.numRows).map _
  rw [hnum]
  exact List.map_congr_left fun r _ => hmap _ _ fun c c' hc => hc r

/-- A column with other data, and the same cells. -/
theorem Table.cellAt_with_data {c : Column} {data : ChunkedArray c.type.CType}
    {cells cells' : (c : Column) → List (Option c.type.CType)}
    (h : cells' { c with data := data } = cells c) (r : Nat) :
    cellAt cells' r { c with data := data } = cellAt cells r c :=
  congrArg (fun l => Cell.mk c.name c.type l[r]?.join) h

/-- Equal rows have equal cells. -/
theorem Table.cells_of_rowsBy {t : Table}
    {cells cells' : (c : Column) → List (Option c.type.CType)}
    (h : t.rowsBy cells = t.rowsBy cells') {c : Column} (hc : c ∈ t.columns)
    (hlen : (cells c).length = t.numRows)
    (hlen' : (cells' c).length = t.numRows) : cells c = cells' c := by
  have hrows : (List.range t.numRows).map (fun r => t.columns.map (cellAt cells r)) =
      (List.range t.numRows).map (fun r => t.columns.map (cellAt cells' r)) :=
    congrArg RowTable.rows h
  refine List.ext_getElem (by rw [hlen, hlen']) fun r hr hr' => ?_
  have hrow := List.map_inj_left.mp hrows r (List.mem_range.mpr (by omega))
  have hcell := List.map_inj_left.mp hrow c hc
  have hvalue : (cells c)[r]?.join = (cells' c)[r]?.join := by
    rw [cellAt, cellAt, Cell.mk.injEq] at hcell
    exact eq_of_heq hcell.2.2
  rwa [List.getElem?_eq_getElem hr, List.getElem?_eq_getElem hr'] at hvalue

/-! ## Picking columns -/

/-- `cols` are the columns that `names` stand for. -/
def Picks (columns : List Column) (names : List String) (cols : List Column) : Prop :=
  List.Forall₂ (fun name c => onlyNamed (·.name) columns name = some c) names cols

theorem pickFields_columns {columns : List Column} {names : List String} {picked : List Field} :
    RowTable.pickFields (columns.map (·.field)) names = some picked →
      ∃ cols, Picks columns names cols ∧ picked = cols.map (·.field) := by
  induction names generalizing picked with
  | nil =>
      intro h
      cases h
      exact ⟨[], List.Forall₂.nil, rfl⟩
  | cons name names ih =>
      intro h
      rw [RowTable.pickFields, List.mapM_cons] at h
      obtain ⟨f, hf, h⟩ := Option.bind_eq_some_iff.mp h
      obtain ⟨fs, hfs, h⟩ := Option.bind_eq_some_iff.mp h
      cases h
      rw [Table.onlyNamed_field] at hf
      obtain ⟨c, hc, rfl⟩ := Option.map_eq_some_iff.mp hf
      obtain ⟨cols, hcols, rfl⟩ := ih hfs
      exact ⟨c :: cols, List.Forall₂.cons hc hcols, rfl⟩

namespace Picks

variable {columns cols : List Column} {names : List String}

theorem mem (h : Picks columns names cols) {c : Column} (hc : c ∈ cols) : c ∈ columns := by
  obtain ⟨name, -, hname⟩ := forall₂_mem_right h hc
  exact (Table.getColumnByName_mem (t := ⟨columns⟩) ((getColumnByName_eq _ _).trans hname)).1

theorem ne_nil (h : Picks columns names cols) (hnames : names ≠ []) : cols ≠ [] := by
  cases h with
  | nil => exact absurd rfl hnames
  | cons _ _ => exact List.cons_ne_nil _ _

/-- The cells picked out of a row are the row of the columns picked. -/
theorem cells (h : Picks columns names cols)
    (cells : (c : Column) → List (Option c.type.CType)) (r : Nat) :
    RowTable.pickCells (columns.map (Table.cellAt cells r)) names =
      cols.map (Table.cellAt cells r) := by
  induction h with
  | nil => rfl
  | cons hc _ ih =>
      have hcell := (Table.onlyNamed_cellAt cells r columns _).trans (congrArg _ hc)
      rw [RowTable.pickCells, List.filterMap_cons_some hcell, List.map_cons]
      exact congrArg _ ih

/-- The columns that `project` collects. -/
theorem mapM (h : Picks columns names cols) :
    (names.mapM fun name => deref (Table.getColumnByName ⟨columns⟩ name)) = .ok cols := by
  induction h with
  | nil => rfl
  | cons hc _ ih =>
      rw [List.mapM_cons, ih, getColumnByName_eq, hc]
      rfl

theorem unique {cols' : List Column} (h : Picks columns names cols)
    (h' : Picks columns names cols') : cols = cols' := by
  induction h generalizing cols' with
  | nil => exact (List.forall₂_nil_left_iff.mp h').symm
  | cons hc _ ih =>
      obtain ⟨c', cs', hc', htail, rfl⟩ := List.forall₂_cons_left_iff.mp h'
      obtain rfl : _ = c' := Option.some.inj (hc.symm.trans hc')
      rw [ih htail]

end Picks

/-- `project` collects the columns that the names stand for. -/
theorem project_picks {ctx ctx' : ExecutionContext} {names : List String}
    (h : project ctx names = .ok ctx') :
    ∃ cols, Picks ctx.table.columns names cols ∧ ctx'.table = ⟨cols⟩ := by
  obtain ⟨cols, hcols, h⟩ := bind_eq_ok.mp h
  refine ⟨cols, mapM_eq_ok hcols fun name c hderef => ?_, (ExecutionContext.create_eq_ok h).1⟩
  rw [getColumnByName_eq] at hderef
  cases hget : onlyNamed (·.name) ctx.table.columns name with
  | none =>
      rw [hget] at hderef
      cases hderef
  | some c' =>
      rw [hget] at hderef
      cases hderef
      rfl

/-- **`project` on rows**: whatever the columns are read as, if all columns are equally long and at
least one is picked. -/
theorem project_rows {ctx : ExecutionContext} {names : List String} {rt : RowTable}
    (cells : (c : Column) → List (Option c.type.CType)) (hvalid : ctx.table.Valid)
    (hmeta : ∀ c ∈ ctx.table.columns, ∃ m, createEmptyChunkMetadata c.type = .ok m)
    (hnames : names ≠ []) (hproject : (ctx.table.rowsBy cells).project names = some rt) :
    ∃ res, project ctx names = .ok res ∧ res.filterBitmap = none ∧
      (∀ c ∈ res.table.columns, c ∈ ctx.table.columns) ∧
      res.table.numRows = ctx.table.numRows ∧ res.table.rowsBy cells = rt := by
  obtain ⟨hfields, hrows⟩ := RowTable.project_eq_some.mp hproject
  obtain ⟨cols, hcols, hpicked⟩ := pickFields_columns hfields
  obtain ⟨res, hres, htable, hnone⟩ := ExecutionContext.create_ok ⟨cols⟩
    fun c hc => hmeta c (hcols.mem hc)
  have hmem : ∀ c ∈ res.table.columns, c ∈ ctx.table.columns := by
    rw [htable]
    exact fun c hc => hcols.mem hc
  have hnum : res.table.numRows = ctx.table.numRows := by
    rw [htable]
    cases hc : cols with
    | nil => exact absurd hc (hcols.ne_nil hnames)
    | cons c cs => exact hvalid c (hcols.mem (by rw [hc]; exact List.mem_cons_self))
  refine ⟨res, ?_, hnone, hmem, hnum, RowTable.ext ?_ ?_⟩
  · rw [project, hcols.mapM, bind_ok, hres]
  · show res.table.fields = rt.fields
    rw [htable, hpicked]
    rfl
  · show (List.range res.table.numRows).map _ = rt.rows
    rw [hrows, hnum, htable]
    show _ = ((List.range ctx.table.numRows).map _).map _
    rw [List.map_map]
    exact List.map_congr_left fun r _ => (hcols.cells cells r).symm

end Pefa
