import Pefa.QueryCompiler.PlanShape
import Pefa.Reference.FirstFilter

/-!
# The bitmap that a materialization finds

`filter` puts a materialization on every filter, and the materialization throws
`UnreachableException` if the filter left no bitmap. There is one way for that to happen: a filter
looks at the first column of its table, and if that column has no chunk, it returns a context
without a bitmap. A table that was materialized has chunks, so only the first filter of a query
can go wrong, on a table that came in without chunks (`finds_bitmap_iff`).
-/

namespace Pefa

open WhileLoop

/-! ## A tree of comparisons leaves a buffer -/

/-- AND and OR allocate nothing. -/
theorem length_of_combine {op : PredicateOp} {lhsBuf rhsBuf : Option Nat}
    {buffers out : List Bitmap} (h : combine op lhsBuf rhsBuf buffers = .ok out) :
    out.length = buffers.length := by
  obtain ⟨lhs, -, h⟩ := bind_eq_ok.mp h
  obtain ⟨s, hloop, h⟩ := bind_eq_ok.mp h
  cases h
  refine (whileLoop_inv (fun s : CombineState => s.buffers.length = buffers.length)
    (fun t t' ht _ hbody => ?_) rfl hloop).1
  obtain ⟨rhs, -, hbody⟩ := bind_eq_ok.mp hbody
  obtain ⟨y, -, hbody⟩ := bind_eq_ok.mp hbody
  obtain ⟨lhs, -, hbody⟩ := bind_eq_ok.mp hbody
  obtain ⟨x, -, hbody⟩ := bind_eq_ok.mp hbody
  obtain ⟨lhs, -, hbody⟩ := bind_eq_ok.mp hbody
  obtain ⟨i, -, hbody⟩ := bind_eq_ok.mp hbody
  cases hbody
  cases lhsBuf with
  | none => exact ht
  | some a => simpa using ht

/-- **A tree of comparisons leaves a buffer**, and the buffers there were. -/
theorem visit_leaves_buffer {table : Table} : ∀ {e : BooleanExpr} {s s' : FilterExprExecutor},
    e.ConstFree → FilterExprExecutor.visit table e s = .ok s' →
    (∃ a < s'.buffers.length, s'.mBuffer = some a) ∧ s.buffers.length ≤ s'.buffers.length := by
  intro e
  induction e with
  | booleanConst value => exact fun hfree => hfree.elim
  | compareExpr lhs l op =>
      intro s s' _ hvisit
      obtain ⟨buffer, -, hvisit⟩ := bind_eq_ok.mp hvisit
      cases hvisit
      simp
  | predicateExpr lhs rhs op ihl ihr =>
      intro s s' hfree hvisit
      obtain ⟨s₁, hvisit₁, hvisit⟩ := bind_eq_ok.mp hvisit
      obtain ⟨s₂, hvisit₂, hvisit⟩ := bind_eq_ok.mp hvisit
      obtain ⟨out, hcombine, hvisit⟩ := bind_eq_ok.mp hvisit
      cases hvisit
      obtain ⟨⟨a, ha, hbuffer⟩, hle₁⟩ := ihl hfree.1 hvisit₁
      obtain ⟨-, hle₂⟩ := ihr hfree.2 hvisit₂
      have hlen := length_of_combine hcombine
      exact ⟨⟨a, by show a < out.length; omega, hbuffer⟩, by show _ ≤ out.length; omega⟩

/-- A filter that finds a chunk leaves a bitmap. -/
theorem filterBitmap_of_generate {ctx ctx' : ExecutionContext} {e : BooleanExpr} {c : Column}
    {cs : List Column} (hcols : ctx.table.columns = c :: cs) (hchunks : c.data.chunks ≠ [])
    (hfree : e.ConstFree) (h : generateFilterBitmap ctx e = .ok ctx') :
    ctx'.filterBitmap ≠ none := by
  have hnum : c.data.numChunks ≠ 0 := fun hzero => hchunks (List.eq_nil_of_length_eq_zero hzero)
  simp only [generateFilterBitmap, hcols, if_neg hnum] at h
  obtain ⟨s, hvisit, h⟩ := bind_eq_ok.mp h
  obtain ⟨res, -, h⟩ := bind_eq_ok.mp h
  obtain ⟨⟨a, ha, hbuffer⟩, -⟩ := visit_leaves_buffer hfree hvisit
  cases h
  show s.result ≠ none
  simp [FilterExprExecutor.result, hbuffer, ha]

/-- A filter that finds no chunk leaves no bitmap, if there can be a context at all. -/
theorem generateFilterBitmap_of_chunks_nil {ctx : ExecutionContext} (e : BooleanExpr) {c : Column}
    {cs : List Column} (hcols : ctx.table.columns = c :: cs) (hchunks : c.data.chunks = []) :
    generateFilterBitmap ctx e = ExecutionContext.create ctx.table := by
  have hnum : c.data.numChunks = 0 := by rw [ChunkedArray.numChunks, hchunks]; rfl
  simp only [generateFilterBitmap, hcols, if_pos hnum]

/-! ## How a materialization can fail -/

section

variable {α : Type}

/-- A computation in two steps fails in one of them. -/
theorem bind_ne_error {ε β γ : Type} {x : Except ε β} {f : β → Except ε γ} {e : ε}
    (hx : x ≠ .error e) (hf : ∀ b, f b ≠ .error e) : (x >>= f) ≠ .error e := by
  intro h
  rcases bind_eq_error.mp h with h | ⟨b, -, h⟩
  · exact hx h
  · exact hf b h

theorem whileLoop_ne_unreachable {σ : Type} {cond : σ → Bool} {body : σ → Except Error σ}
    (hbody : ∀ s, body s ≠ .error .unreachable) (fuel : Nat) (s : σ) :
    whileLoop .diverged cond body fuel s ≠ .error .unreachable := by
  intro h
  refine whileLoop_error (· ≠ .unreachable) (by decide) (fun s e hs => ?_) h rfl
  rintro rfl
  exact hbody s hs

theorem intAdd_ne_unreachable (a b : Nat) : intAdd a b ≠ .error .unreachable := by
  unfold intAdd
  split <;> simp

theorem storeElem_ne_unreachable (dataOut : List α) (index : Nat) (x : α) :
    storeElem dataOut index x ≠ .error .unreachable := by
  unfold storeElem
  split
  · split
    · simp
    · split <;> simp
  · simp

theorem loadBit_ne_unreachable (bitmap : Bitmap) (row : Nat) :
    loadBit bitmap row ≠ .error .unreachable := by
  unfold loadBit
  split <;> simp

theorem copyElem_ne_unreachable (chunk : ArrayData α) (bitmap : Bitmap) (s : CopyState α) :
    copyElem chunk bitmap s ≠ .error .unreachable := by
  cases hx : chunk.values[s.currentChunkPos]? with
  | none => simp [copyElem, hx, bind_error]
  | some x =>
      simp only [copyElem, hx, bind_ok]
      refine bind_ne_error (storeElem_ne_unreachable _ _ _) fun dataOut =>
        bind_ne_error (loadBit_ne_unreachable _ _) fun bit => ?_
      refine bind_ne_error (intAdd_ne_unreachable _ _) fun _ =>
        bind_ne_error (intAdd_ne_unreachable _ _) fun _ =>
          bind_ne_error (intAdd_ne_unreachable _ _) fun _ => ?_
      simp

theorem fillBody_ne_unreachable (column : ChunkedArray α) (bitmap : Bitmap) (s : CopyState α) :
    fillBody column bitmap s ≠ .error .unreachable := by
  cases hchunk : column.chunks[s.currentChunk]? with
  | none => simp [fillBody, hchunk, bind_error]
  | some chunk =>
      simp only [fillBody, hchunk, bind_ok]
      refine bind_ne_error (whileLoop_ne_unreachable (copyElem_ne_unreachable chunk bitmap) _ _)
        fun t => ?_
      split
      · exact bind_ne_error (intAdd_ne_unreachable _ _) fun _ => by simp
      · simp

theorem materializeBody_ne_unreachable (column : ChunkedArray α) (bitmap : Bitmap)
    (s : MaterializeState α) : materializeBody column bitmap s ≠ .error .unreachable := by
  refine bind_ne_error (whileLoop_ne_unreachable (fillBody_ne_unreachable column bitmap) _ _)
    fun t => bind_ne_error ?_ fun array => by simp
  unfold makeArray
  split <;> simp

theorem materializeColumn_ne_unreachable (column : ChunkedArray α) (bitmap : Bitmap) :
    materializeColumn column bitmap ≠ .error .unreachable := by
  refine bind_ne_error (bind_ne_error (materializeBody_ne_unreachable column bitmap _) fun s =>
    whileLoop_ne_unreachable (materializeBody_ne_unreachable column bitmap) _ s) fun s => ?_
  unfold ChunkedArray.create
  split <;> simp

end

theorem create_ne_unreachable (table : Table) :
    ExecutionContext.create table ≠ .error .unreachable := by
  refine bind_ne_error (mapM_ne_error fun c _ => mapM_ne_error fun _ _ => ?_) fun _ => by simp
  unfold createEmptyChunkMetadata
  split <;> simp

/-- **Only a missing bitmap** makes a materialization throw `UnreachableException`. -/
theorem materializeFilter_ne_unreachable {ctx : ExecutionContext} (h : ctx.filterBitmap ≠ none) :
    materializeFilter ctx ≠ .error .unreachable := by
  cases hb : ctx.filterBitmap with
  | none => exact absurd hb h
  | some bitmap =>
      simp only [materializeFilter, hb]
      refine bind_ne_error (mapM_ne_error fun c _ => ?_) fun cols => create_ne_unreachable _
      unfold materializeTableColumn
      split
      · exact bind_ne_error (materializeColumn_ne_unreachable _ _) fun _ => by simp
      · simp

/-! ## The way to a filter -/

/-- Trees of comparisons, on names that each stand for one column. -/
def RowSemantics.trees : RowSemantics where
  compare := Cell.compare
  admitsProject _ := true
  admitsFilter fields e := decide (e.ConstFree ∧
    e.AllCompare fun lhs _ _ => (onlyNamed (·.name) fields lhs.name).isSome = true)
  admitsFilter_and fields e e' := by
    rw [← Bool.decide_and, decide_eq_decide, BooleanExpr.constFree_and, BooleanExpr.allCompare_and]
    exact and_and_and_comm

theorem fields_of_madeBy {columns cols : List Column} (h : List.Forall₂ MadeByColumn columns cols) :
    cols.map (·.field) = columns.map (·.field) := by
  induction h with
  | nil => rfl
  | cons hc _ ih =>
      obtain ⟨data, rfl, -⟩ := hc
      rw [List.map_cons, List.map_cons, ih]

/-- What a materialization made has chunks. -/
theorem hasChunks_of_materializeFilter {ctx ctx' : ExecutionContext}
    (h : materializeFilter ctx = .ok ctx') : HasChunks ctx'.table := by
  intro c' hc'
  obtain ⟨c, -, data, rfl, hmade⟩ := forall₂_mem_right (materializeFilter_madeBy h) hc'
  exact hmade.chunks_ne_nil

/-- **One call** leaves the calls after it admitted, and their first filter with a chunk to look
at. -/
theorem visitStep_admits {S : RowSemantics} {ctx ctx' : ExecutionContext} {s : Step}
    {calls : List Step} (hfirst : FirstHasChunk ctx.table.columns (s :: calls))
    (hadm : S.Admits ctx.table.fields (s :: calls)) (h : executor.visitStep ctx s = .ok ctx') :
    FirstHasChunk ctx'.table.columns calls ∧ S.Admits ctx'.table.fields calls := by
  cases s with
  | project names =>
      obtain ⟨-, picked, hpicked, hadm⟩ := hadm
      obtain ⟨cols, hcols, htable⟩ := project_picks h
      exact ⟨by rw [htable]; exact hfirst.project hcols,
        by rw [fields_of_project h hpicked]; exact hadm⟩
  | filter e =>
      obtain ⟨ctx₁, hctx₁, hmat⟩ := visitStep_filter_ok.mp h
      have hfields : ctx'.table.fields = ctx.table.fields := by
        rw [← generateFilterBitmap_table hctx₁]
        exact fields_of_madeBy (materializeFilter_madeBy hmat)
      exact ⟨(hasChunks_of_materializeFilter hmat).firstHasChunk calls,
        by rw [hfields]; exact hadm.2⟩

/-- **The calls before a filter** leave it admitted, and with a chunk to look at. -/
theorem foldlM_visitStep_admits {S : RowSemantics} {before after : List Step} :
    ∀ {ctx ctx' : ExecutionContext}, FirstHasChunk ctx.table.columns (before ++ after) →
    S.Admits ctx.table.fields (before ++ after) →
    before.foldlM executor.visitStep ctx = .ok ctx' →
    FirstHasChunk ctx'.table.columns after ∧ S.Admits ctx'.table.fields after := by
  induction before with
  | nil =>
      intro ctx ctx' hfirst hadm h
      cases h
      exact ⟨hfirst, hadm⟩
  | cons s before ih =>
      intro ctx ctx' hfirst hadm h
      rw [List.foldlM_cons] at h
      obtain ⟨ctx₁, hctx₁, h⟩ := bind_eq_ok.mp h
      obtain ⟨hfirst₁, hadm₁⟩ := visitStep_admits hfirst hadm hctx₁
      exact ih hfirst₁ hadm₁ h

/-- A table on which a tree of comparisons is admitted has a column. -/
theorem exists_column {columns : List Column} {e : BooleanExpr} (hfree : e.ConstFree)
    (hleaves : e.AllCompare fun lhs _ _ =>
      (onlyNamed (·.name) (columns.map (·.field)) lhs.name).isSome = true) :
    ∃ c cs, columns = c :: cs := by
  obtain ⟨lhs, l, op, hleaf⟩ := exists_leaf hleaves hfree.startsWithConst_eq
  cases columns with
  | nil => cases hleaf
  | cons c cs => exact ⟨c, cs, rfl⟩

/-- A filter that is admitted and has a chunk to look at leaves a bitmap. -/
theorem filterBitmap_of_admits {ctx ctx' : ExecutionContext} {e : BooleanExpr} {calls : List Step}
    (hfirst : FirstHasChunk ctx.table.columns (.filter e :: calls))
    (hadm : RowSemantics.trees.Admits ctx.table.fields (.filter e :: calls))
    (h : generateFilterBitmap ctx e = .ok ctx') : ctx'.filterBitmap ≠ none := by
  obtain ⟨hfree, hleaves⟩ := of_decide_eq_true hadm.1
  obtain ⟨c, cs, hcols⟩ := exists_column hfree hleaves
  exact filterBitmap_of_generate hcols (hfirst _ rfl c (by rw [hcols]; rfl)) hfree h

/-! ## The way to the first filter -/

/-- There is a context for some of the columns of a table if there is one for the table. -/
theorem create_of_mem {table : Table} {ctx : ExecutionContext}
    (h : ExecutionContext.create table = .ok ctx) {cols : List Column}
    (hmem : ∀ c ∈ cols, c ∈ table.columns) :
    ∃ ctx', ExecutionContext.create ⟨cols⟩ = .ok ctx' ∧ ctx'.table = ⟨cols⟩ := by
  obtain ⟨metadata, hmetadata, -⟩ := bind_eq_ok.mp h
  have hall := mapM_eq_ok hmetadata fun c ms hms => hms
  obtain ⟨ms, hms, -⟩ := mapM_ok (l := cols) (R := fun _ _ => True) fun c hc =>
    let ⟨m, _, hm⟩ := forall₂_mem_left hall (hmem c hc)
    ⟨m, hm, trivial⟩
  exact ⟨_, bind_eq_ok.mpr ⟨ms, hms, rfl⟩, rfl⟩

/-- **The calls before the first filter** are projections, and leave it the columns that it
sees. -/
theorem exists_firstFiltered {calls : List Step} : ∀ {ctx : ExecutionContext} {cols : List Column},
    (∃ ctx', ExecutionContext.create ctx.table = .ok ctx') →
    firstFiltered ctx.table.columns calls = some cols →
    ∃ before e after ctx₁, calls = before ++ .filter e :: after ∧
      before.foldlM executor.visitStep ctx = .ok ctx₁ ∧ ctx₁.table.columns = cols ∧
      ∃ ctx', ExecutionContext.create ctx₁.table = .ok ctx' := by
  induction calls with
  | nil => exact fun _ h => by cases h
  | cons s calls ih =>
      intro ctx cols hcreate h
      cases s with
      | filter e =>
          cases h
          exact ⟨[], e, calls, ctx, rfl, rfl, rfl, hcreate⟩
      | project names =>
          obtain ⟨picked, hpicked, h⟩ := Option.bind_eq_some_iff.mp h
          have hpicks : Picks ctx.table.columns names picked := mapM_eq_some.mp hpicked
          -- there is a context for the columns picked, since there is one for all
          obtain ⟨ctx', hctx'⟩ := hcreate
          obtain ⟨ctx₁, hctx₁, htable⟩ := create_of_mem hctx' fun c hc => hpicks.mem hc
          have hproject : executor.visitStep ctx (.project names) = .ok ctx₁ := by
            rw [visitStep_project, project, hpicks.mapM, bind_ok, hctx₁]
          have hcreate₁ : ExecutionContext.create ctx₁.table = .ok ctx₁ := by rw [htable, hctx₁]
          have hfirst₁ : firstFiltered ctx₁.table.columns calls = some cols := by
            rw [htable]
            exact h
          obtain ⟨before, e, after, ctx₂, rfl, hrun, hrest⟩ := ih ⟨ctx₁, hcreate₁⟩ hfirst₁
          refine ⟨.project names :: before, e, after, ctx₂, rfl, ?_, hrest⟩
          rw [List.foldlM_cons, hproject, bind_ok, hrun]

/-! ## Empty tables -/

/-- The kernel of the comparison compiles. -/
def Compiles (fields : List Field) (lhs : ColumnRef) (l : LiteralExpr) (op : CompareOp) : Prop :=
  ∃ f ∈ onlyNamed (·.name) fields lhs.name,
    (FilterKernel.createCpu f (.compareExpr lhs l op)).compile.isOk = true

instance (fields : List Field) (lhs : ColumnRef) (l : LiteralExpr) (op : CompareOp) :
    Decidable (Compiles fields lhs l op) :=
  inferInstanceAs (Decidable (∃ f ∈ onlyNamed (·.name) fields lhs.name,
    (FilterKernel.createCpu f (.compareExpr lhs l op)).compile.isOk = true))

/-- Trees of comparisons whose kernels compile. -/
def RowSemantics.compiling : RowSemantics where
  compare := Cell.compare
  admitsProject _ := true
  admitsFilter fields e := decide (e.ConstFree ∧ e.AllCompare (Compiles fields))
  admitsFilter_and fields e e' := by
    rw [← Bool.decide_and, decide_eq_decide, BooleanExpr.constFree_and, BooleanExpr.allCompare_and]
    exact and_and_and_comm

/-- The columns have no rows, and types that can be materialized. -/
def EmptyColumns (columns : List Column) : Prop :=
  ∀ c ∈ columns, c.data.length = 0 ∧ c.type.isMaterializable = true

theorem EmptyColumns.numRows {columns : List Column} (h : EmptyColumns columns) :
    Table.numRows ⟨columns⟩ = 0 := by
  cases columns with
  | nil => rfl
  | cons c cs => exact (h c List.mem_cons_self).1

theorem countable_of_empty {α : Type} {column : ChunkedArray α} (h : column.length = 0)
    (bitmap : Bitmap) : Countable column bitmap := by
  refine ⟨by omega, fun i chunk hi hpos => ?_, by omega⟩
  have hend : Blocks.start column.lens i + chunk.length ≤ column.length :=
    Blocks.start_add_le_sum (ChunkedArray.lens_getElem? hi)
  omega

theorem coversHead_of_empty {α : Type} {column : ChunkedArray α} (h : column.length = 0) :
    CoversHead column.lens := by
  intro i len hi
  have hle : Blocks.start column.lens i ≤ column.length := Blocks.start_le_sum _ _
  have hzero : Blocks.start column.lens i = 0 := by omega
  rw [hzero]
  exact Nat.zero_le _

/-- A comparison on an empty table has an empty buffer, if its kernel compiles. -/
theorem compareComputes_of_empty {table : Table} (h : EmptyColumns table.columns)
    {lhs : ColumnRef} {l : LiteralExpr} {op : CompareOp} (hleaf : Compiles table.fields lhs l op) :
    CompareComputes table (fun _ _ _ _ => false) 0 0 lhs l op := by
  obtain ⟨f, hf, hok⟩ := hleaf
  rw [Option.mem_def, Table.fields, Table.onlyNamed_field] at hf
  obtain ⟨c, hc, rfl⟩ := Option.map_eq_some_iff.mp hf
  rw [← getColumnByName_eq ⟨table.columns⟩] at hc
  obtain ⟨hzero, -⟩ := h c (Table.getColumnByName_mem hc).1
  cases hcompile : (FilterKernel.createCpu c.field (.compareExpr lhs l op)).compile with
  | error e =>
      rw [hcompile] at hok
      cases hok
  | ok kernel =>
      obtain ⟨predicate, -, hkernel⟩ := bind_eq_ok.mp hcompile
      obtain rfl : FilterKernel.mk (.compareExpr lhs l op) (some predicate) = kernel :=
        Except.ok.inj hkernel
      obtain ⟨⟨type, htype⟩, -⟩ := FilterKernel.compile_eq_ok hcompile
      obtain ⟨size, hsize⟩ := exists_elemSize htype
      obtain ⟨buffer, hbuffer, hlen, -⟩ := compareBuffer_compiled hc hcompile hsize
        (by rw [h.numRows, hzero]) (coversHead_of_empty hzero)
      exact ⟨buffer, hbuffer, by rw [hlen, h.numRows]; rfl,
        fun r hr => absurd hr (Nat.not_lt_zero r)⟩

/-- **A filter of an empty table** goes through and leaves an empty table. -/
theorem filter_empty {ctx : ExecutionContext} {e : BooleanExpr} (h : EmptyColumns ctx.table.columns)
    (hfirst : ∀ c ∈ ctx.table.columns.head?, c.data.chunks ≠ [])
    (he : RowSemantics.compiling.admitsFilter ctx.table.fields e = true) :
    ∃ ctx', executor.visitStep ctx (.filter e) = .ok ctx' ∧ EmptyColumns ctx'.table.columns := by
  obtain ⟨hfree, hleaves⟩ := of_decide_eq_true he
  obtain ⟨c, cs, hcols⟩ := exists_column hfree (hleaves.imp fun lhs _ _ ⟨f, hf, _⟩ => by
    rw [← Table.fields, Option.mem_def.mp hf]
    rfl)
  have hnum : c.data.numChunks ≠ 0 := fun hzero =>
    hfirst c (by rw [hcols]; rfl) (List.eq_nil_of_length_eq_zero hzero)
  obtain ⟨s, a, hvisit, hvisited⟩ := visit_ok (s := ⟨[], none⟩) (Nat.le_refl _)
    (hleaves.imp fun _ _ _ => compareComputes_of_empty h) (fun _ => Nat.two_pow_pos 31)
    (fun _ ht => by cases ht) (hfree.asRead_eq none)
  obtain ⟨b, hb, -⟩ := hvisited.result
  obtain ⟨ctx₁, hctx₁, htable, hbuffer⟩ := generateFilterBitmap_eq hcols hnum
    (fun c hc => createEmptyChunkMetadata_ok (h c hc).2) hvisit
  obtain ⟨ctx₂, hctx₂, -, hrel⟩ := materializeFilter_ok (hbuffer.trans hb)
    (by rw [htable]; exact fun c hc => (h c hc).2)
    (by rw [htable]; exact fun c hc => countable_of_empty (h c hc).1 b)
  rw [htable] at hrel
  refine ⟨ctx₂, visitStep_filter_ok.mpr ⟨ctx₁, hctx₁, hctx₂⟩, fun c' hc' => ?_⟩
  obtain ⟨c, hc, data, rfl, hdata⟩ := forall₂_mem_right hrel hc'
  have hle := selectedRows_length_le b c.data.length
  have hlen := hdata.length_eq
  have hzero := (h c hc).1
  exact ⟨by show data.length = 0; omega, (h c hc).2⟩

/-- **A run on an empty table** goes through and leaves an empty table, if the first column that
the first filter sees has a chunk. -/
theorem run_empty {calls : List Step} : ∀ {ctx : ExecutionContext},
    EmptyColumns ctx.table.columns → FirstHasChunk ctx.table.columns calls →
    RowSemantics.compiling.Admits ctx.table.fields calls →
    ∃ ctx', calls.foldlM executor.visitStep ctx = .ok ctx' := by
  induction calls with
  | nil => exact fun _ _ _ => ⟨_, rfl⟩
  | cons s calls ih =>
      intro ctx h hfirst hadm
      obtain ⟨ctx₁, hctx₁, h₁⟩ : ∃ ctx₁, executor.visitStep ctx s = .ok ctx₁ ∧
          EmptyColumns ctx₁.table.columns := by
        cases s with
        | filter e => exact filter_empty h (hfirst _ rfl) hadm.1
        | project names =>
            obtain ⟨-, picked, hpicked, -⟩ := hadm
            obtain ⟨cols, hcols, -⟩ := pickFields_columns hpicked
            obtain ⟨ctx₁, hctx₁, htable, -⟩ := ExecutionContext.create_ok ⟨cols⟩
              fun c hc => createEmptyChunkMetadata_ok (h c (hcols.mem hc)).2
            refine ⟨ctx₁, ?_, by rw [htable]; exact fun c hc => h c (hcols.mem hc)⟩
            rw [visitStep_project, project, hcols.mapM, bind_ok, hctx₁]
      obtain ⟨hfirst₁, hadm₁⟩ := visitStep_admits hfirst hadm hctx₁
      obtain ⟨ctx', hctx'⟩ := ih h₁ hfirst₁ hadm₁
      exact ⟨ctx', by rw [List.foldlM_cons, hctx₁, bind_ok, hctx']⟩

/-- The materialization of an empty table is empty. -/
theorem materializeFilter_empty {ctx ctx' : ExecutionContext}
    (hempty : ∀ c ∈ ctx.table.columns, c.data.length = 0) (h : materializeFilter ctx = .ok ctx') :
    ∀ c ∈ ctx'.table.columns, c.data.length = 0 := by
  unfold materializeFilter at h
  split at h
  · cases h
  · next bitmap _ =>
      obtain ⟨newColumns, hmap, h⟩ := bind_eq_ok.mp h
      rw [(ExecutionContext.create_eq_ok h).1]
      intro c' hc'
      obtain ⟨c, hc, hcolumn⟩ := forall₂_mem_right (mapM_eq_ok hmap fun c c' hc => hc) hc'
      unfold materializeTableColumn at hcolumn
      split at hcolumn
      · obtain ⟨data, hdata, hcolumn⟩ := bind_eq_ok.mp hcolumn
        cases hcolumn
        obtain ⟨data', hdata', hrel⟩ := materializeColumn_ok
          (countable_of_empty (hempty c hc) bitmap)
        obtain rfl : data = data' := Except.ok.inj (hdata.symm.trans hdata')
        -- no more elements are kept than there are rows
        have hle := selectedRows_length_le bitmap c.data.length
        have hlen := hrel.length_eq
        have hzero := hempty c hc
        show data.length = 0
        omega
      · cases hcolumn

/-- No operation brings rows in. -/
theorem executor_keeps_empty :
    executor.Keeps fun ctx => ∀ c ∈ ctx.table.columns, c.data.length = 0 where
  projection hempty h c hc := hempty c (project_mem h c hc)
  filter hempty h := by rw [generateFilterBitmap_table h]; exact hempty
  materialize hempty h := materializeFilter_empty hempty h

/-! ## Every materialization finds its bitmap -/

/-- `ExecutePlanVisitor` comes to a materialization of the plan with this context. -/
def ReachesMaterialize (plan : LogicalPlan) (table : Table) (ctx : ExecutionContext) : Prop :=
  ∃ input start, .materializeFilterNode input ∈ plan.nodes ∧
    ExecutionContext.create table = .ok start ∧ executor.visit input start = .ok ctx

/-- Every materialization of the optimized plan that is reached finds a bitmap, so that none throws
`UnreachableException`. And an empty table stays empty, and is filtered if the kernels compile and
its columns can be materialized. -/
structure FindsBitmap (table : Table) (steps : List Step) : Prop where
  found : ∃ plan, optimize (.build steps) = .ok plan ∧ ∀ ctx, ReachesMaterialize plan table ctx →
    ctx.filterBitmap ≠ none ∧ materializeFilter ctx ≠ .error .unreachable
  staysEmpty : table.numRows = 0 → ∀ out, execute (.build steps) table = .ok out → out.numRows = 0
  filtersEmpty : table.numRows = 0 → (∀ c ∈ table.columns, c.type.isMaterializable = true) →
    RowSemantics.compiling.Admits table.fields steps → ∃ out, execute (.build steps) table = .ok out

variable {table : Table} {steps : List Step}

/-- If every materialization finds a bitmap, the first filter has a chunk to look at. -/
theorem FindsBitmap.firstHasChunk (h : FindsBitmap table steps) (hsteps : steps ≠ [])
    (hcreate : ∃ ctx, ExecutionContext.create table = .ok ctx) :
    FirstHasChunk table.columns steps := by
  intro cols hcols c hc hchunks
  obtain ⟨start, hstart⟩ := hcreate
  obtain ⟨htable, -⟩ := ExecutionContext.create_eq_ok hstart
  obtain ⟨plan, hplan, hfound⟩ := h.found
  rw [optimize_build hsteps] at hplan
  cases hplan
  rw [Option.mem_def, ← firstFiltered_joinSteps, ← htable] at hcols
  obtain ⟨before, e, after, ctx, hcalls, hrun, rfl, ctx', hctx'⟩ := exists_firstFiltered
    ⟨start, by rw [htable, hstart]⟩ hcols
  obtain ⟨cs, hcs⟩ : ∃ cs, ctx.table.columns = c :: cs := List.head?_eq_some_iff.mp hc
  have hnone := (ExecutionContext.create_eq_ok hctx').2
  refine (hfound ctx' ⟨.filterNode (.build before) e, start, ?_, hstart, ?_⟩).1 hnone
  · rw [hcalls]
    exact LogicalPlan.mem_nodes_build before after e
  · refine bind_eq_ok.mpr ⟨ctx, by rw [PlanVisitor.visit_build, hrun], ?_⟩
    show generateFilterBitmap ctx e = .ok ctx'
    rw [generateFilterBitmap_of_chunks_nil e hcs hchunks, hctx']

/-- If the first filter has a chunk to look at, every materialization finds a bitmap. -/
theorem bitmap_of_reachesMaterialize {calls : List Step} {ctx : ExecutionContext}
    (hfirst : FirstHasChunk table.columns calls)
    (hadm : RowSemantics.trees.Admits table.fields calls)
    (h : ReachesMaterialize (.build calls) table ctx) : ctx.filterBitmap ≠ none := by
  obtain ⟨input, start, hnode, hstart, hvisit⟩ := h
  obtain ⟨before, e, after, rfl, rfl⟩ := LogicalPlan.nodes_build_materialize hnode
  obtain ⟨htable, -⟩ := ExecutionContext.create_eq_ok hstart
  obtain ⟨ctx₁, hrun, hgenerate⟩ := bind_eq_ok.mp hvisit
  rw [PlanVisitor.visit_build] at hrun
  rw [← htable] at hfirst hadm
  obtain ⟨hfirst₁, hadm₁⟩ := foldlM_visitStep_admits hfirst hadm hrun
  exact filterBitmap_of_admits hfirst₁ hadm₁ hgenerate

theorem findsBitmap_of_firstHasChunk (hvalid : table.Valid) (hsteps : steps ≠ [])
    (hadm : RowSemantics.trees.Admits table.fields steps)
    (hfirst : (∃ ctx, ExecutionContext.create table = .ok ctx) →
      FirstHasChunk table.columns steps) : FindsBitmap table steps where
  found := by
    refine ⟨_, optimize_build hsteps, fun ctx hreach => ?_⟩
    have hchunk := hfirst (by
      obtain ⟨input, start, -, hstart, -⟩ := hreach
      exact ⟨start, hstart⟩)
    rw [FirstHasChunk, ← firstFiltered_joinSteps] at hchunk
    rw [← admits_joinSteps] at hadm
    -- so the filter that the materialization is on has left one
    have hbitmap := bitmap_of_reachesMaterialize hchunk hadm hreach
    exact ⟨hbitmap, materializeFilter_ne_unreachable hbitmap⟩
  staysEmpty hzero out hout := by
    obtain ⟨ctx, ctx', hctx, hvisit, rfl⟩ := execute_eq_ok hsteps hout
    have hempty := executor_keeps_empty.visit (by
      rw [(ExecutionContext.create_eq_ok hctx).1]
      exact fun c hc => by rw [hvalid c hc, hzero]) hvisit
    cases hcols : ctx'.table.columns with
    | nil => rw [Table.numRows, hcols]
    | cons c cs =>
        rw [Table.numRows, hcols]
        exact hempty c (by rw [hcols]; exact List.mem_cons_self)
  filtersEmpty hzero htypes hcompiling := by
    have hempty : EmptyColumns table.columns :=
      fun c hc => ⟨by rw [hvalid c hc, hzero], htypes c hc⟩
    obtain ⟨start, hstart, htable, -⟩ := ExecutionContext.create_ok table
      fun c hc => createEmptyChunkMetadata_ok (htypes c hc)
    have hchunk := hfirst ⟨start, hstart⟩
    rw [FirstHasChunk, ← firstFiltered_joinSteps, ← htable] at hchunk
    rw [← admits_joinSteps, ← htable] at hcompiling
    obtain ⟨ctx', hctx'⟩ := run_empty (by rw [htable]; exact hempty) hchunk hcompiling
    exact ⟨ctx'.table, by rw [execute_steps hsteps, hstart, bind_ok, hctx', bind_ok]⟩

/-- **When every materialization finds its bitmap**: if there is a context for the table at all,
the first column that the first filter sees has a chunk. -/
theorem finds_bitmap_iff (hvalid : table.Valid) (hsteps : steps ≠ [])
    (hadm : RowSemantics.trees.Admits table.fields steps) :
    FindsBitmap table steps ↔
      ((∃ ctx, ExecutionContext.create table = .ok ctx) → FirstHasChunk table.columns steps) :=
  ⟨fun h => h.firstHasChunk hsteps, findsBitmap_of_firstHasChunk hvalid hsteps hadm⟩

theorem finds_bitmap_iff_nineRows :
    FindsBitmap nineRows filterTwice ↔
      ((∃ ctx, ExecutionContext.create nineRows = .ok ctx) →
        FirstHasChunk nineRows.columns filterTwice) :=
  finds_bitmap_iff (by decide) (by decide) (by decide)

/-- An `int32` column without chunks. -/
def noChunks : Table := ⟨[⟨"a", .int32, ⟨[], by decide⟩⟩]⟩

/-- The filter of a table without chunks leaves no bitmap, and its materialization throws. -/
theorem not_finds_bitmap_noChunks : ¬ FindsBitmap noChunks [.filter ((col "a").eq (lit 1))] := by
  intro h
  obtain ⟨ctx, hctx, -⟩ := ExecutionContext.create_ok noChunks
    fun c hc => createEmptyChunkMetadata_integral (by
      obtain rfl : c = _ := List.mem_singleton.mp hc
      rfl)
  exact h.firstHasChunk (by decide) ⟨ctx, hctx⟩ _ rfl _ rfl rfl

end Pefa
