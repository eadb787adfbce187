import Pefa.Execution.MaterializeCounters
import Pefa.Reference.RowExecution
import Pefa.Reference.TableRows

/-!
# The executor on rows

The operations of the executor do on a table what the operations of `rowOps` do on its rows, as
far as the rows are those at the front of the value buffers: the kernels and `materializeColumn`
read the buffers from there. The condition on the table (`Readable`) is about sizes and about the
places at which columns are cut into chunks, and every operation keeps it, whatever the chunks of
its input were.

So the executor simulates the executor of rows (`executor_simulates`), on every plan; and a query
returns what it means (`execute_front`, `execute_correct`).
-/

namespace Pefa

open Blocks Rechunk

/-! ## Tables the executor reads right -/

/-- Every chunk that starts inside a byte has the rows of that byte, also when its length is taken
modulo 256. -/
def HeadsReached (lens : List Nat) : Prop :=
  ∀ i len, lens[i]? = some len → headRows (start lens i) ≤ len % 256

instance (lens : List Nat) : Decidable (HeadsReached lens) :=
  decidable_of_iff (∀ i : Fin lens.length, headRows (start lens i) ≤ lens.get i % 256) <| by
    constructor
    · intro h i len hi
      obtain ⟨hlt, rfl⟩ := List.getElem?_eq_some_iff.mp hi
      exact h ⟨i, hlt⟩
    · intro h i
      exact h i (lens.get i) (List.getElem?_eq_getElem i.isLt)

theorem HeadsReached.coversHead {lens : List Nat} (h : HeadsReached lens) : CoversHead lens :=
  fun i len hi => le_trans (h i len hi) (Nat.mod_le _ _)

/-- Chunks of a multiple of eight rows, but for the last, start on byte boundaries. -/
theorem headsReached_of_dropLast {lens : List Nat} {c : Nat}
    (h : ∀ len ∈ lens.dropLast, len = 8 * c) : HeadsReached lens := by
  intro i len hi
  have hstart := start_of_dropLast h (List.getElem?_eq_some_iff.mp hi).1
  have hzero : headRows (start lens i) = 0 := by
    rw [hstart, headRows, Nat.mul_assoc, Nat.mul_mod_right]
  rw [hzero]
  exact Nat.zero_le _

/-- A table of integer columns whose rows and chunks an `int` can count and whose chunks are cut
where the kernels can follow. -/
structure Readable (t : Table) : Prop where
  valid : t.Valid
  rows : t.numRows < 2 ^ 31
  integral : ∀ c ∈ t.columns, c.type.isIntegral = true
  counted : ∀ c ∈ t.columns, Counted c.data
  heads : ∀ c ∈ t.columns, HeadsReached c.data.lens

/-- A table whose rows and chunks an `int` can count and whose chunks are cut where the kernels can
follow, whatever the types of its columns. -/
structure Laid (t : Table) : Prop where
  valid : t.Valid
  rows : t.numRows < 2 ^ 31
  counted : ∀ c ∈ t.columns, Counted c.data
  heads : ∀ c ∈ t.columns, HeadsReached c.data.lens

/-- Every column has a chunk. -/
def HasChunks (t : Table) : Prop := ∀ c ∈ t.columns, c.data.chunks ≠ []

instance (t : Table) : Decidable (HasChunks t) :=
  inferInstanceAs (Decidable (∀ c ∈ t.columns, c.data.chunks ≠ []))

theorem isMaterializable_of_isIntegral {type : DataType} (h : type.isIntegral = true) :
    type.isMaterializable = true := by
  cases type with
  | integral s w => rfl
  | _ => cases h

namespace Readable

variable {t t' : Table}

theorem laid (h : Readable t) : Laid t := ⟨h.valid, h.rows, h.counted, h.heads⟩

theorem hasMetadata (h : Readable t) :
    ∀ c ∈ t.columns, ∃ m, createEmptyChunkMetadata c.type = .ok m :=
  fun c hc => createEmptyChunkMetadata_integral (h.integral c hc)

/-- Some of the columns, and as many rows. -/
theorem of_columns (h : Readable t) (hmem : ∀ c ∈ t'.columns, c ∈ t.columns)
    (hrows : t'.numRows = t.numRows) : Readable t' where
  valid c hc := by rw [hrows, h.valid c (hmem c hc)]
  rows := by rw [hrows]; exact h.rows
  integral c hc := h.integral c (hmem c hc)
  counted c hc := h.counted c (hmem c hc)
  heads c hc := h.heads c (hmem c hc)

end Readable

/-! ## The rows at the front -/

namespace Table

/-- One row at the front of the value buffers. -/
def frontRow (t : Table) (r : Nat) : List Cell :=
  t.columns.map (cellAt (fun c => c.data.front.map some) r)

theorem frontRows_rows (t : Table) : t.frontRows.rows = (List.range t.numRows).map t.frontRow := rfl

theorem cellAt_front (c : Column) (r : Nat) :
    cellAt (fun c => c.data.front.map some) r c = ⟨c.name, c.type, c.data.front[r]?⟩ := by
  rw [cellAt, List.getElem?_map]
  cases c.data.front[r]? <;> rfl

end Table

/-- The literal fits the one field that has the name. -/
def FieldFits (fields : List Field) (lhs : ColumnRef) (l : LiteralExpr) (_ : CompareOp) : Prop :=
  ∃ f ∈ onlyNamed (·.name) fields lhs.name, l.Fits f.type

instance (fields : List Field) (lhs : ColumnRef) (l : LiteralExpr) (op : CompareOp) :
    Decidable (FieldFits fields lhs l op) :=
  inferInstanceAs (Decidable (∃ f ∈ onlyNamed (·.name) fields lhs.name, l.Fits f.type))

/-- Queries on integers: projections to at least one column, and trees of comparisons with
literals that fit. -/
def RowSemantics.integers : RowSemantics where
  compare := Cell.compare
  admitsProject names := !names.isEmpty
  admitsFilter fields e := decide (e.ConstFree ∧ e.AllCompare (FieldFits fields))
  admitsFilter_and fields e e' := by
    rw [← Bool.decide_and, decide_eq_decide, BooleanExpr.constFree_and, BooleanExpr.allCompare_and]
    exact and_and_and_comm

/-- The kernel of a comparison on these fields computes what the comparison means. -/
def CompilesOn (compare : Compare) (fields : List Field) (lhs : ColumnRef) (l : LiteralExpr)
    (op : CompareOp) : Prop :=
  ∃ f ∈ onlyNamed (·.name) fields lhs.name,
    (FilterKernel.createCpu f (.compareExpr lhs l op)).compile =
      .ok ⟨.compareExpr lhs l op, some fun x => compare ⟨f.name, f.type, some x⟩ l op⟩

/-- What is admitted can be executed: no empty projections, and trees of comparisons whose kernels
compute what they mean. -/
structure RowSemantics.Compiled (S : RowSemantics) : Prop where
  project : ∀ {names}, S.admitsProject names = true → names ≠ []
  filter : ∀ {fields e}, S.admitsFilter fields e = true →
    e.ConstFree ∧ e.AllCompare (CompilesOn S.compare fields)

theorem onlyNamed_name {fields : List Field} {name : String} {f : Field}
    (h : onlyNamed (·.name) fields name = some f) : f.name = name := by
  unfold onlyNamed at h
  split at h
  · next f' hf =>
      cases h
      have hm : f ∈ fields.filter (·.name = name) := by simp [hf]
      simpa using (List.mem_filter.mp hm).2
  · cases h

theorem FieldFits.compilesOn {fields : List Field} {lhs : ColumnRef} {l : LiteralExpr}
    {op : CompareOp} (h : FieldFits fields lhs l op) : CompilesOn Cell.compare fields lhs l op := by
  obtain ⟨f, hf, hfits⟩ := h
  exact ⟨f, hf, FilterKernel.compile_compare op (onlyNamed_name hf).symm hfits⟩

theorem integers_compiled : RowSemantics.integers.Compiled where
  project h := by simpa [RowSemantics.integers] using h
  filter h := by
    obtain ⟨hfree, hfits⟩ := of_decide_eq_true h
    exact ⟨hfree, hfits.imp fun _ _ _ => FieldFits.compilesOn⟩

/-! ## Filters -/

/-- The column that a comparison is about. -/
theorem CompilesOn.column {compare : Compare} {t : Table} {lhs : ColumnRef} {l : LiteralExpr}
    {op : CompareOp} (h : CompilesOn compare t.fields lhs l op) :
    ∃ c, t.getColumnByName lhs.name = some c ∧
      (FilterKernel.createCpu c.field (.compareExpr lhs l op)).compile =
        .ok ⟨.compareExpr lhs l op, some fun x => compare ⟨c.name, c.type, some x⟩ l op⟩ := by
  obtain ⟨f, hf, hcompile⟩ := h
  rw [Option.mem_def, Table.fields, Table.onlyNamed_field] at hf
  obtain ⟨c, hc, rfl⟩ := Option.map_eq_some_iff.mp hf
  exact ⟨c, by rw [getColumnByName_eq, hc], hcompile⟩

/-- **A comparison on a table that is cut right** looks at the front of the value buffers. -/
theorem compareComputes_front {compare : Compare} {t : Table} (h : Laid t) {lhs : ColumnRef}
    {l : LiteralExpr} {op : CompareOp} (hleaf : CompilesOn compare t.fields lhs l op) :
    CompareComputes t (fun r => atomOfRow compare (t.frontRow r)) t.numRows
      (bytesForBits t.numRows) lhs l op := by
  obtain ⟨c, hcol, hcompile⟩ := hleaf.column
  obtain ⟨⟨type, htype⟩, -⟩ := FilterKernel.compile_eq_ok hcompile
  obtain ⟨size, hsize⟩ := exists_elemSize htype
  have hmem := (Table.getColumnByName_mem hcol).1
  have hlen := h.valid c hmem
  have hrows := h.rows
  obtain ⟨buffer, hbuffer, hbytes, hbits⟩ := compareBuffer_compiled hcol hcompile hsize hlen.symm
    (h.heads c hmem).coversHead
  refine ⟨buffer, hbuffer, hbytes, fun r hr => ?_⟩
  obtain ⟨i, chunk, j, hi, hj, rfl⟩ := ChunkedArray.exists_chunk (c := c.data) (r := r) (by omega)
  have hchunk := ChunkedArray.lens_getElem? hi
  have hend : start c.data.lens i + chunk.length ≤ c.data.length := start_add_le_sum hchunk
  obtain ⟨x, hx⟩ := ArrayData.getElem?_values hj
  -- no row is left out, and no pointer wraps
  rw [hbits i chunk j hi hj, rowTest_eq hsize.pos hsize.le (h.heads c hmem i _ hchunk) (by omega),
    test_of_getElem? _ hx]
  show _ = (onlyNamed (·.name) (t.frontRow _) lhs.name).any fun c => compare c l op
  rw [Table.frontRow, Table.onlyNamed_cellAt, ← getColumnByName_eq, hcol, Option.map_some,
    Option.any_some, Table.cellAt_front, ChunkedArray.getElem?_front hi hj, hx]

/-- **A filter on a readable table** marks the rows whose front passes. -/
theorem generateFilterBitmap_front {compare : Compare} {ctx : ExecutionContext}
    (h : Readable ctx.table)
    (hfirst : ∀ c, ctx.table.columns.head? = some c → c.data.chunks ≠ []) {e : BooleanExpr}
    (hfree : e.ConstFree) (hleaves : e.AllCompare (CompilesOn compare ctx.table.fields)) :
    ∃ res b, generateFilterBitmap ctx e = .ok res ∧ res.table = ctx.table ∧
      res.filterBitmap = some b ∧ b.length = bytesForBits ctx.table.numRows ∧
      ∀ r < ctx.table.numRows, b.bit r = truthOfRow compare e (ctx.table.frontRow r) := by
  have hrows := h.rows
  have hbytes : bytesForBits ctx.table.numRows < 2 ^ 31 := by
    unfold bytesForBits
    omega
  obtain ⟨s, a, hvisit, hvisited⟩ := visit_ok (s := ⟨[], none⟩) (bytesForBits_le.mp (Nat.le_refl _))
    (hleaves.imp fun _ _ _ => compareComputes_front h.laid) (fun _ => hbytes)
    (fun _ ht => by cases ht) (hfree.asRead_eq none)
  obtain ⟨b, hb, hlen, hbits⟩ := hvisited.result
  obtain ⟨lhs, l, op, hleaf⟩ := exists_leaf hleaves hfree.startsWithConst_eq
  obtain ⟨c, hcol, -⟩ := hleaf.column
  obtain ⟨c', cs, hcols, -⟩ := Table.exists_first hcol
  have hchunks : c'.data.numChunks ≠ 0 := fun hzero =>
    hfirst c' (by rw [hcols]; rfl) (List.eq_nil_of_length_eq_zero hzero)
  obtain ⟨res, hres, htable, hbuffer⟩ := generateFilterBitmap_eq hcols hchunks h.hasMetadata hvisit
  exact ⟨res, b, hres, htable, by rw [hbuffer, hb], hlen, hbits⟩

/-! ## Materializations -/

/-- The rows of a column of the output are the marked rows at the front of the input. -/
theorem Rechunked.cellAt {bitmap : Bitmap} {c : Column} {data : ChunkedArray c.type.CType}
    (h : Rechunked bitmap c.data data) {k r : Nat}
    (hr : (selectedRows bitmap c.data.length)[k]? = some r) :
    Table.cellAt (fun c => c.data.front.map some) k { c with data := data } =
      Table.cellAt (fun c => c.data.front.map some) r c := by
  have hvalue : data.front[k]? = c.data.front[r]? := by
    have hk := congrArg (·[k]?) h.map_some_elems
    simp only [List.getElem?_map, hr, Option.map_some] at hk
    obtain ⟨x, hx, hfront⟩ := Option.map_eq_some_iff.mp hk
    rw [h.zeroOffset.front_eq, hx, hfront]
  rw [Table.cellAt_front, Table.cellAt_front, hvalue]

theorem selectedRows_length_le (bitmap : Bitmap) (n : Nat) :
    (selectedRows bitmap n).length ≤ n := by
  have h := List.length_filter_le bitmap.bit (List.range n)
  rwa [List.length_range] at h

/-- All chunks but one are full of rows that went in. -/
theorem Rechunked.numChunks_le {α : Type} {bitmap : Bitmap} {column data : ChunkedArray α}
    (h : Rechunked bitmap column data) : 16384 * (data.numChunks - 1) ≤ column.length := by
  have hfull := (outputLens_lengths bitmap column.length).1
  rw [← h.lens_eq] at hfull
  have hpos : 0 < data.lens.length := by
    rw [ChunkedArray.lens, List.length_map]
    exact List.length_pos_iff.mpr h.chunks_ne_nil
  have hstart := start_of_dropLast hfull (i := data.lens.length - 1) (by omega)
  have hle : start data.lens (data.lens.length - 1) ≤ data.length := start_le_sum _ _
  have hlen := h.length_eq
  have hselected := selectedRows_length_le bitmap column.length
  have hnum : data.numChunks = data.lens.length := by
    simp [ChunkedArray.lens, ChunkedArray.numChunks]
  rw [hnum, ← hstart]
  omega

section MarkedRows

variable {t t' : Table} {b : Bitmap}

theorem length_of_rechunked (hvalid : t.Valid) {c c' : Column} (hc : c ∈ t.columns)
    (h : RechunkedColumn b c c') : c'.data.length = (selectedRows b t.numRows).length := by
  obtain ⟨data, rfl, hdata⟩ := h
  rw [← hvalid c hc]
  exact hdata.length_eq

theorem numRows_of_rechunked (hvalid : t.Valid)
    (h : List.Forall₂ (RechunkedColumn b) t.columns t'.columns) :
    t'.numRows = (selectedRows b t.numRows).length := by
  cases hcols : t.columns with
  | nil =>
      rw [hcols] at h
      simp [Table.numRows, hcols, List.forall₂_nil_left_iff.mp h, selectedRows]
  | cons c cs =>
      rw [hcols] at h
      obtain ⟨c', cs', hcc, -, hcols'⟩ := List.forall₂_cons_left_iff.mp h
      have hlen := length_of_rechunked hvalid (by rw [hcols]; exact List.mem_cons_self) hcc
      rwa [Table.numRows, hcols']

theorem fields_of_rechunked (h : List.Forall₂ (RechunkedColumn b) t.columns t'.columns) :
    t'.fields = t.fields := by
  unfold Table.fields
  generalize t.columns = cols, t'.columns = cols' at h
  induction h with
  | nil => rfl
  | cons hcc _ ih =>
      obtain ⟨data, rfl, -⟩ := hcc
      rw [List.map_cons, List.map_cons, ih]

/-- A row of the output is the row of the input that was marked. -/
theorem frontRow_of_rechunked (hvalid : t.Valid)
    (h : List.Forall₂ (RechunkedColumn b) t.columns t'.columns) {k r : Nat}
    (hr : (selectedRows b t.numRows)[k]? = some r) : t'.frontRow k = t.frontRow r := by
  have hcells := forall₂_imp_mem (S := fun c c' =>
    Table.cellAt (fun c => c.data.front.map some) k c' =
      Table.cellAt (fun c => c.data.front.map some) r c) h fun c c' hc hcc => by
    obtain ⟨data, rfl, hdata⟩ := hcc
    exact hdata.cellAt (by rw [hvalid c hc]; exact hr)
  unfold Table.frontRow
  generalize t.columns = cols, t'.columns = cols' at hcells
  induction hcells with
  | nil => rfl
  | cons hcc _ ih => rw [List.map_cons, List.map_cons, hcc, ih]

/-- The rows of the output are the marked rows of the input. -/
theorem frontRows_of_rechunked (hvalid : t.Valid)
    (h : List.Forall₂ (RechunkedColumn b) t.columns t'.columns) :
    t'.frontRows = t.frontRows.keep ((List.range t.numRows).map b.bit) := by
  refine RowTable.ext (fields_of_rechunked h) ?_
  show (List.range t'.numRows).map t'.frontRow =
    kept (((List.range t.numRows).map b.bit).zip ((List.range t.numRows).map t.frontRow))
  rw [List.zip_map', kept_zip_map, numRows_of_rechunked hvalid h]
  refine List.ext_getElem (by simp [selectedRows]) fun k hk hk' => ?_
  rw [List.getElem_map, List.getElem_range, List.getElem_map]
  exact frontRow_of_rechunked hvalid h (List.getElem?_eq_getElem _)

/-- The output is cut where the kernels can follow, and every column of it has a chunk. -/
theorem laid_of_rechunked (hvalid : t.Valid) (hrows : t.numRows < 2 ^ 31)
    (hrel : List.Forall₂ (RechunkedColumn b) t.columns t'.columns) : Laid t' ∧ HasChunks t' := by
  have hnum := numRows_of_rechunked hvalid hrel
  have hselected := selectedRows_length_le b t.numRows
  have hpick : ∀ c' ∈ t'.columns, ∃ c ∈ t.columns, RechunkedColumn b c c' :=
    fun c' hc' => forall₂_mem_right hrel hc'
  refine ⟨⟨fun c' hc' => ?_, by omega, fun c' hc' => ?_, fun c' hc' => ?_⟩,
    fun c' hc' => ?_⟩ <;> obtain ⟨c, hc, hcc⟩ := hpick c' hc'
  · rw [length_of_rechunked hvalid hc hcc, hnum]
  · obtain ⟨data, rfl, hdata⟩ := hcc
    have hle := hdata.numChunks_le
    have hlen := hvalid c hc
    exact counted_of_lt (by show data.numChunks < _; omega)
  · -- all chunks but the last have `2048 * 8` rows
    obtain ⟨data, rfl, hdata⟩ := hcc
    have hfull := (outputLens_lengths b c.data.length).1
    rw [← hdata.lens_eq] at hfull
    exact headsReached_of_dropLast (c := 2048) hfull
  · obtain ⟨data, rfl, hdata⟩ := hcc
    exact hdata.chunks_ne_nil

/-- The output can be read as the input could. -/
theorem readable_of_rechunked (h : Readable t)
    (hrel : List.Forall₂ (RechunkedColumn b) t.columns t'.columns) :
    Readable t' ∧ HasChunks t' := by
  obtain ⟨hlaid, hchunks⟩ := laid_of_rechunked h.valid h.rows hrel
  refine ⟨⟨hlaid.valid, hlaid.rows, fun c' hc' => ?_, hlaid.counted, hlaid.heads⟩, hchunks⟩
  obtain ⟨c, hc, data, rfl, -⟩ := forall₂_mem_right hrel hc'
  exact h.integral c hc

end MarkedRows

/-- **A materialization of a readable table** keeps the marked rows at the front. -/
theorem materializeFilter_front {ctx : ExecutionContext} {b : Bitmap}
    (hbitmap : ctx.filterBitmap = some b) (h : Readable ctx.table)
    (hbytes : bytesForBits ctx.table.numRows ≤ b.length) :
    ∃ out, materializeFilter ctx = .ok out ∧ out.filterBitmap = none ∧
      (Readable out.table ∧ HasChunks out.table) ∧ out.table.frontRows =
        ctx.table.frontRows.keep ((List.range ctx.table.numRows).map b.bit) := by
  have hbits := bytesForBits_le.mp hbytes
  have hrows := h.rows
  obtain ⟨out, hout, hnone, hrel⟩ := materializeFilter_ok hbitmap
    (fun c hc => isMaterializable_of_isIntegral (h.integral c hc)) fun c hc => by
      have hlen := h.valid c hc
      exact ⟨by omega, h.counted c hc, by omega⟩
  exact ⟨out, hout, hnone, readable_of_rechunked h hrel, frontRows_of_rechunked h.valid hrel⟩

/-! ## The simulation -/

/-- A context of the executor and a context of rows: the rows are those at the front, and the
bitmap has the marks. -/
structure Reads (ctx : ExecutionContext) (rc : RowContext) : Prop where
  readable : Readable ctx.table
  hasChunks : HasChunks ctx.table
  rows : ctx.table.frontRows = rc.table
  marks : ∀ marks, rc.marks = some marks → ∃ b, ctx.filterBitmap = some b ∧
    bytesForBits ctx.table.numRows ≤ b.length ∧
    marks = (List.range ctx.table.numRows).map b.bit

section

variable {S : RowSemantics}

theorem reads_project (hS : S.Compiled) {ctx : ExecutionContext} {rc rc' : RowContext}
    {names : List String} (h : Reads ctx rc) (hrow : (rowOps S).project rc names = .ok rc') :
    ∃ ctx', project ctx names = .ok ctx' ∧ Reads ctx' rc' := by
  replace hrow : (if S.admitsProject names then _ else _) = _ := hrow
  split at hrow
  · next hne =>
      split at hrow
      · next t hproject =>
          cases hrow
          rw [← h.rows] at hproject
          obtain ⟨ctx', hctx', -, hmem, hnum, hrows⟩ := project_rows _ h.readable.valid
            h.readable.hasMetadata (hS.project hne) hproject
          exact ⟨ctx', hctx', h.readable.of_columns hmem hnum,
            fun c hc => h.hasChunks c (hmem c hc), hrows, fun _ hm => by cases hm⟩
      · cases hrow
  · cases hrow

theorem reads_filter (hS : S.Compiled) {ctx : ExecutionContext} {rc rc' : RowContext}
    {e : BooleanExpr} (h : Reads ctx rc) (hrow : (rowOps S).generateFilterBitmap rc e = .ok rc') :
    ∃ ctx', generateFilterBitmap ctx e = .ok ctx' ∧ Reads ctx' rc' := by
  replace hrow : (if _ then _ else _) = _ := hrow
  split at hrow
  · next hadm =>
      cases hrow
      obtain ⟨hfree, hleaves⟩ := hS.filter hadm
      rw [← h.rows] at hleaves
      obtain ⟨ctx', b, hctx', htable, hb, hlen, hbits⟩ := generateFilterBitmap_front h.readable
        (fun c hc => h.hasChunks c (List.mem_of_mem_head? hc)) hfree hleaves
      refine ⟨ctx', hctx', by rw [htable]; exact h.readable, by rw [htable]; exact h.hasChunks,
        by rw [htable]; exact h.rows, fun marks hmarks => ⟨b, hb, by rw [htable, hlen], ?_⟩⟩
      cases hmarks
      rw [← h.rows, htable, Table.frontRows_rows, List.map_map]
      exact List.map_congr_left fun r hr => (hbits r (List.mem_range.mp hr)).symm
  · cases hrow

variable (S) in
theorem reads_materialize {ctx : ExecutionContext} {rc rc' : RowContext}
    (h : Reads ctx rc) (hrow : (rowOps S).materializeFilter rc = .ok rc') :
    ∃ ctx', materializeFilter ctx = .ok ctx' ∧ Reads ctx' rc' := by
  cases hmarks : rc.marks with
  | none =>
      simp only [rowOps, hmarks] at hrow
      cases hrow
  | some marks =>
      simp only [rowOps, hmarks] at hrow
      cases hrow
      obtain ⟨b, hb, hbytes, rfl⟩ := h.marks marks hmarks
      obtain ⟨out, hout, -, ⟨hreadable, hchunks⟩, hrows⟩ := materializeFilter_front hb h.readable
        hbytes
      exact ⟨out, hout, hreadable, hchunks, by rw [hrows, h.rows], fun _ hm => by cases hm⟩

/-- **The executor simulates the executor of rows.** -/
theorem executor_simulates (hS : S.Compiled) :
    (executePlanVisitor executionOps).Simulates (rowVisitor S) Reads where
  projection := reads_project hS
  filter := reads_filter hS
  materialize := reads_materialize S

/-! ## Queries -/

/-- **Executing a query** on a readable table leaves at the front what the query means at the
front. -/
theorem execute_front (hS : S.Compiled) {t : Table} (h : Readable t) (hchunks : HasChunks t)
    {steps : List Step} (hsteps : steps ≠ []) (hadm : S.Admits t.fields steps) :
    ∃ out, execute (.build steps) t = .ok out ∧
      t.frontRows.interpret S.compare steps = some out.frontRows := by
  obtain ⟨t', ht', hvisit⟩ := visit_interpret S (t := t.frontRows) hadm
  rw [← visit_joinSteps] at hvisit
  obtain ⟨ctx, hctx, htable, -⟩ := ExecutionContext.create_ok t h.hasMetadata
  have hreads : Reads ctx ⟨t.frontRows, none⟩ :=
    ⟨by rw [htable]; exact h, by rw [htable]; exact hchunks, by rw [htable],
      fun _ hm => by cases hm⟩
  obtain ⟨ctx', hctx', hreads'⟩ := (executor_simulates hS).visit hreads hvisit
  refine ⟨ctx'.table, ?_, by rw [hreads'.rows]; exact ht'⟩
  rw [execute_build hsteps, hctx, bind_ok, hctx', bind_ok]

end

/-- The columns of a projection are columns of the table. -/
theorem project_mem {ctx ctx' : ExecutionContext} {names : List String}
    (h : project ctx names = .ok ctx') : ∀ c ∈ ctx'.table.columns, c ∈ ctx.table.columns := by
  obtain ⟨cols, hcols, htable⟩ := project_picks h
  rw [htable]
  exact fun c hc => hcols.mem hc

/-- A filter leaves the table as it is. -/
theorem generateFilterBitmap_table {ctx ctx' : ExecutionContext} {e : BooleanExpr}
    (h : generateFilterBitmap ctx e = .ok ctx') : ctx'.table = ctx.table := by
  unfold generateFilterBitmap at h
  split at h
  · exact (ExecutionContext.create_eq_ok h).1
  · split at h
    · exact (ExecutionContext.create_eq_ok h).1
    · obtain ⟨s, -, h⟩ := bind_eq_ok.mp h
      obtain ⟨res, hres, h⟩ := bind_eq_ok.mp h
      cases h
      exact (ExecutionContext.create_eq_ok hres).1

theorem clean_of_materializeFilter {ctx ctx' : ExecutionContext}
    (h : materializeFilter ctx = .ok ctx') : ctx'.table.Clean := by
  intro c' hc'
  obtain ⟨c, -, data, rfl, hmade⟩ := forall₂_mem_right (materializeFilter_madeBy h) hc'
  exact ⟨fun a ha => (hmade.plain a ha).1, fun a ha i _ => by
    rw [ArrayData.isValid, (hmade.plain a ha).2]⟩

/-- No operation brings offsets or nulls in. -/
theorem executor_keeps_clean :
    (executePlanVisitor executionOps).Keeps fun ctx => ctx.table.Clean where
  projection hclean h c hc := hclean c (project_mem h c hc)
  filter hclean h := by rw [generateFilterBitmap_table h]; exact hclean
  materialize _ h := clean_of_materializeFilter h

theorem execute_eq_ok {steps : List Step} (hsteps : steps ≠ []) {t out : Table}
    (h : execute (.build steps) t = .ok out) : ∃ ctx ctx', ExecutionContext.create t = .ok ctx ∧
      (executePlanVisitor executionOps).visit (.build (joinSteps steps).reverse) ctx = .ok ctx' ∧
      ctx'.table = out := by
  rw [execute_build hsteps] at h
  obtain ⟨ctx, hctx, h⟩ := bind_eq_ok.mp h
  obtain ⟨ctx', hctx', h⟩ := bind_eq_ok.mp h
  exact ⟨ctx, ctx', hctx, hctx', Except.ok.inj h⟩

/-- What is returned has no offsets and nulls if the table has none. -/
theorem execute_clean {t out : Table} {steps : List Step} (hsteps : steps ≠ []) (hclean : t.Clean)
    (h : execute (.build steps) t = .ok out) : out.Clean := by
  obtain ⟨ctx, ctx', hctx, hvisit, rfl⟩ := execute_eq_ok hsteps h
  refine executor_keeps_clean.visit ?_ hvisit
  rw [(ExecutionContext.create_eq_ok hctx).1]
  exact hclean

/-- **What a query returns is what it means**: on a table without offsets and nulls that can be
read, every query on integers returns the rows of its meaning. -/
theorem execute_correct {t : Table} (h : Readable t) (hchunks : HasChunks t) (hclean : t.Clean)
    {steps : List Step} (hsteps : steps ≠ [])
    (hadm : RowSemantics.integers.Admits t.fields steps) :
    ∃ out, execute (.build steps) t = .ok out ∧
      t.logicalRows.interpret Cell.compare steps = some out.logicalRows := by
  obtain ⟨out, hout, hmeaning⟩ := execute_front integers_compiled h hchunks hsteps hadm
  have hfront : t.frontRows.interpret Cell.compare steps = some out.frontRows := hmeaning
  refine ⟨out, hout, ?_⟩
  rw [← Table.frontRows_eq hclean, hfront, Table.frontRows_eq (execute_clean hsteps hclean hout)]

/-- Nine rows in two columns that are chunked differently. -/
def nineRows : Table :=
  ⟨[⟨"a", .int32, ⟨[.replicate 8 7#32 (by decide), .ofList [2#32] (by decide)], by decide⟩⟩,
    ⟨"b", .uint8, ⟨[.ofList (List.replicate 9 1#8) (by decide)], by decide⟩⟩]⟩

theorem readable_nineRows : Readable nineRows :=
  ⟨by decide, by decide, by decide, fun c hc => counted_of_lt (by
    revert c
    decide), by decide⟩

theorem execute_correct_nineRows :
    ∃ out, execute (.build filterTwice) nineRows = .ok out ∧
      nineRows.logicalRows.interpret Cell.compare filterTwice = some out.logicalRows :=
  execute_correct readable_nineRows (by decide) (by decide) (by decide) (by decide)

end Pefa
