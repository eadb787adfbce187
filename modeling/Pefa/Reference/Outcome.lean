import Pefa.Lib.Agree
import Pefa.Reference.FirstFilter

/-!
# The outcome of every query

`execute_correct` is about queries that are admitted. Here nothing is asked of the query: its
names may stand for no column or for several, its literals may be of any kind, its trees may have
constants anywhere, and the columns of the table may be of any type. As long as the table is cut
right, whatever happens then is decided on a *snapshot* of it, the rows at the front of its value
buffers and what is looked at of its columns before any row: which exception is thrown, or which
rows are left and how they are cut into chunks (`execute_outcome`).

The comparisons are those of the compiled predicates (`Cell.compiled`), and an expression is the
one it is read as. What is left out of a snapshot does not matter: the value buffers, the bitmaps,
the buffers of the executor and the calls of the kernels.
-/

namespace Pefa

open Blocks Rechunk

/-! ## Snapshots -/

/-- A column without its rows: its field, and the lengths of its chunks. -/
structure ColumnShape where
  field : Field
  lens : List Nat
  deriving DecidableEq, Repr

def ColumnShape.hasChunk (s : ColumnShape) : Bool := !s.lens.isEmpty

def Column.shape (c : Column) : ColumnShape := ⟨c.field, c.data.lens⟩

theorem hasChunk_shape (c : Column) : c.shape.hasChunk = !c.data.chunks.isEmpty := by
  simp [ColumnShape.hasChunk, Column.shape, ChunkedArray.lens]

/-- A table as its rows and the shapes of its columns. -/
structure Snapshot where
  shape : List ColumnShape
  rows : List (List Cell)

namespace Table

def shape (t : Table) : List ColumnShape := t.columns.map (·.shape)

/-- What is looked at of the columns, and the rows at the front of the value buffers. -/
def snapshot (t : Table) : Snapshot := ⟨t.shape, t.frontRows.rows⟩

theorem map_field_shape (t : Table) : t.shape.map (·.field) = t.fields := by
  rw [shape, fields, List.map_map]
  rfl

end Table

/-- The metadata of the chunks of one column. -/
def checkMetadata (s : ColumnShape) : Except Error Unit :=
  if s.hasChunk then do
    let _ ← createEmptyChunkMetadata s.field.type
    .ok ()
  else .ok ()

/-- `ExecutionContext::ExecutionContext`, as far as it can fail. -/
def checkContext (shape : List ColumnShape) : Except Error Unit := do
  let _ ← shape.mapM checkMetadata
  .ok ()

/-- The kernel of a comparison, as far as it can fail. -/
def checkCompare (fields : List Field) (lhs : ColumnRef) (l : LiteralExpr) (op : CompareOp) :
    Except Error Unit := do
  let field ← deref (onlyNamed (·.name) fields lhs.name)
  let _ ← genPredicateFunc field (.compareExpr lhs l op)
  .ok ()

/-- The tree that a tree is read as, with `left` to its left: `asRead` with the exceptions that
are met on the way. Nothing is read where `m_buffer` stays null. -/
def BooleanExpr.read (fields : List Field) : BooleanExpr → Option BooleanExpr →
    Except Error (Option BooleanExpr)
  | .booleanConst _, left => .ok left
  | .predicateExpr lhs rhs op, left => do
      let lhs' ← lhs.read fields left
      let rhs' ← rhs.read fields lhs'
      match lhs', rhs' with
      | some l, some r => .ok (some (if rhs.startsWithConst then r else .predicateExpr l r op))
      | _, _ => .error .nullDeref
  | .compareExpr lhs l op, _ => do
      checkCompare fields lhs l op
      .ok (some (.compareExpr lhs l op))

/-- What the kernel of a comparison says of a cell. -/
def Cell.compiled (c : Cell) (l : LiteralExpr) (op : CompareOp) : Bool :=
  match genPredicateFunc c.field (.compareExpr (col c.name) l op) with
  | .ok predicate => c.value.any predicate
  | .error _ => false

/-- One turn of the loop of `materialize_filter`, which leaves chunks of the lengths `lens`. -/
def materializeShape (lens : List Nat) (s : ColumnShape) : Except Error ColumnShape :=
  if s.field.type.isMaterializable then .ok ⟨s.field, lens⟩
  else .error (.notImplemented ("Type " ++ s.field.type.toString ++ " is not supported yet"))

namespace Snapshot

def fields (s : Snapshot) : List Field := s.shape.map (·.field)

/-- A table without columns has no rows. -/
def project (s : Snapshot) (names : List String) : Except Error Snapshot := do
  let shape ← names.mapM fun name => deref (onlyNamed (·.field.name) s.shape name)
  .ok ⟨shape, if names.isEmpty then [] else s.rows.map (RowTable.pickCells · names)⟩

/-- What a filter is read as; nothing where the first column has no chunk to look at. -/
def readFilter (s : Snapshot) (e : BooleanExpr) : Except Error (Option BooleanExpr) :=
  if s.shape.head?.any (·.hasChunk) then e.read s.fields none else .ok none

def filter (s : Snapshot) (e : BooleanExpr) : Except Error Snapshot := do
  match ← s.readFilter e with
  | none => .error .unreachable
  | some e' =>
      let lens := lensOf chunkSize (s.rows.map (truthOfRow Cell.compiled e'))
      let shape ← s.shape.mapM (materializeShape lens)
      .ok ⟨shape, s.rows.filter (truthOfRow Cell.compiled e')⟩

def step (s : Snapshot) : Step → Except Error Snapshot
  | .project names => s.project names
  | .filter e => s.filter e

/-- A query without calls follows a null plan; any other executes the joined calls. -/
def execute (s : Snapshot) (steps : List Step) : Except Error Snapshot :=
  if steps = [] then .error .nullDeref
  else do
    checkContext s.shape
    (joinSteps steps).reverse.foldlM step s

end Snapshot

/-! ## Contexts -/

/-- A context is built unless a column with a chunk has a type without metadata. -/
theorem create_agrees (t : Table) :
    Agree (fun _ ctx => ctx.table = t ∧ ctx.filterBitmap = none) (checkContext t.shape)
      (ExecutionContext.create t) := by
  have hcolumn : ∀ (s : ColumnShape) (c : Column), s = c.shape →
      Agree (fun _ _ => True) (checkMetadata s)
        (c.data.chunks.mapM fun _ => createEmptyChunkMetadata c.type) := by
    rintro _ c rfl
    rw [checkMetadata, hasChunk_shape]
    cases hchunks : c.data.chunks with
    | nil => exact .ok trivial
    | cons a as =>
        -- all chunks of a column have its type, so the first one decides
        simp only [Column.shape, List.isEmpty_cons, Bool.not_false, if_true, List.mapM_cons]
        cases hm : createEmptyChunkMetadata c.type with
        | error e => exact .error e
        | ok m =>
            obtain ⟨ms, hms, -⟩ := mapM_ok (R := fun _ _ => True) (l := as)
              (f := fun _ => createEmptyChunkMetadata c.type) fun _ _ => ⟨m, hm, trivial⟩
            rw [hm] at hms
            rw [bind_ok, bind_ok, hms]
            exact .ok trivial
  have hcolumns : List.Forall₂ (fun s c => s = Column.shape c) t.shape t.columns :=
    List.forall₂_map_left_iff.mpr (List.forall₂_same.mpr fun _ _ => rfl)
  exact (Agree.mapM hcolumn hcolumns).bind fun _ _ _ => .ok ⟨rfl, rfl⟩

theorem create_of_check {t : Table} (h : checkContext t.shape = .ok ()) :
    ∃ ctx, ExecutionContext.create t = .ok ctx ∧ ctx.table = t ∧ ctx.filterBitmap = none := by
  have hagree := create_agrees t
  rw [h] at hagree
  exact hagree.ok_left

theorem checkContext_eq_ok {shape : List ColumnShape} :
    checkContext shape = .ok () ↔ ∀ s ∈ shape, checkMetadata s = .ok () := by
  unfold checkContext
  induction shape with
  | nil => exact iff_of_true rfl nofun
  | cons s shape ih =>
      rw [List.mapM_cons, List.forall_mem_cons, ← ih]
      cases checkMetadata s with
      | error e => simp [bind_error]
      | ok u =>
          cases shape.mapM checkMetadata with
          | error e => simp [bind_ok, bind_error]
          | ok us => exact iff_of_true rfl ⟨rfl, rfl⟩

/-! ## Filters -/

section Filters

variable {t : Table}

theorem Cell.compiled_of_generated {name : String} {type : DataType} {l : LiteralExpr}
    {op : CompareOp} {predicate : type.CType → Bool}
    (h : genPredicateFunc ⟨name, type⟩ (.compareExpr (col name) l op) = .ok predicate)
    (x : type.CType) : Cell.compiled ⟨name, type, some x⟩ l op = predicate x := by
  have hfield : genPredicateFunc (Cell.mk name type (some x)).field
      (.compareExpr (col name) l op) = .ok predicate := h
  simp only [Cell.compiled, hfield]
  rfl

/-- What is compiled for a comparison is what it is taken to say. -/
theorem compilesOn_of_generated {fields : List Field} {lhs : ColumnRef} {l : LiteralExpr}
    {op : CompareOp} {f : Field} {predicate : f.type.CType → Bool}
    (hf : onlyNamed (·.name) fields lhs.name = some f)
    (hgen : genPredicateFunc f (.compareExpr lhs l op) = .ok predicate) :
    CompilesOn Cell.compiled fields lhs l op := by
  have hname : lhs = col f.name := congrArg ColumnRef.mk (onlyNamed_name hf).symm
  have hcompiled : (fun x => Cell.compiled ⟨f.name, f.type, some x⟩ l op) = predicate := by
    rw [hname] at hgen
    exact funext (Cell.compiled_of_generated hgen)
  refine ⟨f, hf, ?_⟩
  rw [hcompiled]
  simp only [FilterKernel.createCpu, FilterKernel.compile, hgen, bind_ok]

/-- **The buffer of a comparison**: its kernel does not compile, or it has the truth of the
compiled comparison on every row. -/
theorem compareBuffer_agrees (h : Laid t) (lhs : ColumnRef) (l : LiteralExpr) (op : CompareOp) :
    Agree (fun _ buffer => buffer.length = bytesForBits t.numRows ∧
        ∀ r < t.numRows, buffer.bit r = atomOfRow Cell.compiled (t.frontRow r) lhs l op)
      (checkCompare t.fields lhs l op) (compareBuffer t lhs l op) := by
  have hnamed : onlyNamed (·.name) t.fields lhs.name =
      (t.getColumnByName lhs.name).map (·.field) := by
    rw [getColumnByName_eq, Table.fields, Table.onlyNamed_field]
  cases hcol : t.getColumnByName lhs.name with
  | none =>
      rw [hcol] at hnamed
      simp only [checkCompare, compareBuffer, hnamed, hcol, Option.map_none, deref, bind_error]
      exact .error _
  | some c =>
      rw [hcol] at hnamed
      cases hgen : genPredicateFunc c.field (.compareExpr lhs l op) with
      | error e =>
          simp only [checkCompare, compareBuffer, hnamed, hcol, Option.map_some, deref, bind_ok,
            FilterKernel.compile, FilterKernel.createCpu, hgen, bind_error]
          exact .error e
      | ok predicate =>
          obtain ⟨buffer, hbuffer, hlen, hbits⟩ := compareComputes_front h
            (compilesOn_of_generated hnamed hgen)
          simp only [checkCompare, hnamed, Option.map_some, deref, bind_ok, hgen, hbuffer]
          exact .ok ⟨hlen, hbits⟩

/-- Where something is read to the left of a tree, something is read. -/
theorem BooleanExpr.read_of_some {fields : List Field} : ∀ {e : BooleanExpr} {left : BooleanExpr}
    {r : Option BooleanExpr}, e.read fields (some left) = .ok r → ∃ e', r = some e' := by
  intro e
  induction e with
  | booleanConst value =>
      intro left r h
      cases h
      exact ⟨left, rfl⟩
  | compareExpr lhs l op =>
      intro left r h
      obtain ⟨-, -, h⟩ := bind_eq_ok.mp h
      cases h
      exact ⟨_, rfl⟩
  | predicateExpr lhs rhs op ihl ihr =>
      intro left r h
      obtain ⟨lhs', hlhs, h⟩ := bind_eq_ok.mp h
      obtain ⟨rhs', hrhs, h⟩ := bind_eq_ok.mp h
      obtain ⟨l, rfl⟩ := ihl hlhs
      obtain ⟨r', rfl⟩ := ihr hrhs
      cases h
      exact ⟨_, rfl⟩

/-- What a visit of `e` leaves, with nothing or with the truth of a tree in `m_buffer` before. -/
def ReadAs (atom : Nat → ColumnRef → LiteralExpr → CompareOp → Bool) (rows bytes : Nat)
    (e : BooleanExpr) (left : Option BooleanExpr) (s : FilterExprExecutor)
    (read : Option BooleanExpr) (s' : FilterExprExecutor) : Prop :=
  match read with
  | none => left = none ∧ s'.mBuffer = none
  | some e' => ∃ a, Visited atom rows bytes e e' s s' a

/-- **The executor reads a tree**, whatever the tree is. -/
theorem visit_agrees (h : Laid t) : ∀ (e : BooleanExpr) {left : Option BooleanExpr}
    {s : FilterExprExecutor}, (left = none → s.mBuffer = none) →
    (∀ e₀, left = some e₀ → ∃ a, s.mBuffer = some a ∧
      BufferHolds (fun r => atomOfRow Cell.compiled (t.frontRow r)) t.numRows
        (bytesForBits t.numRows) s.buffers a e₀) →
    Agree (ReadAs (fun r => atomOfRow Cell.compiled (t.frontRow r)) t.numRows
        (bytesForBits t.numRows) e left s)
      (e.read t.fields left) (FilterExprExecutor.visit t e s) := by
  have hrows := h.rows
  have hbytes : bytesForBits t.numRows < 2 ^ 31 := by
    unfold bytesForBits
    omega
  have hbits : t.numRows ≤ 8 * bytesForBits t.numRows := bytesForBits_le.mp (Nat.le_refl _)
  intro e
  induction e with
  | booleanConst value =>
      intro left s hnone hsome
      cases left with
      | none => exact .ok ⟨rfl, hnone rfl⟩
      | some e₀ =>
          obtain ⟨a, ha, hholds⟩ := hsome e₀ rfl
          exact .ok ⟨a, ha, hholds, fun _ => ha, (fun h => by cases h), Nat.le_refl _,
            fun _ _ _ => rfl⟩
  | compareExpr lhs l op =>
      intro left s _ _
      refine (compareBuffer_agrees h lhs l op).bind fun _ buffer hbuffer => .ok ?_
      refine ⟨s.buffers.length, rfl, ⟨buffer, by simp, hbuffer⟩, (fun h => by cases h),
        fun _ => Nat.le_refl _, by simp, fun a ha _ => List.getElem?_append_left ha⟩
  | predicateExpr lhs rhs op ihl ihr =>
      intro left s hnone hsome
      have hl := ihl hnone hsome
      rw [BooleanExpr.read, FilterExprExecutor.visit]
      cases hlhs : lhs.read t.fields left with
      | error err =>
          rw [hlhs] at hl
          rw [hl.error_left]
          exact .error err
      | ok l =>
          rw [hlhs] at hl
          obtain ⟨s₁, hvisit₁, h₁⟩ := hl.ok_left
          rw [hvisit₁, bind_ok, bind_ok]
          cases l with
          | none =>
              -- nothing to combine the right operand with
              obtain ⟨-, h₁⟩ := h₁
              refine (ihr (fun _ => h₁) (fun _ h => by cases h)).bind fun r s₂ _ => ?_
              rw [h₁]
              exact .error _
          | some l =>
              obtain ⟨a, h₁⟩ := h₁
              have hr := @ihr (some l) s₁ (fun h => by cases h)
                fun e₀ he₀ => ⟨a, h₁.mBuffer, by cases he₀; exact h₁.holds⟩
              cases hrhs : rhs.read t.fields (some l) with
              | error err =>
                  rw [hrhs] at hr
                  rw [hr.error_left]
                  exact .error err
              | ok r =>
                  rw [hrhs] at hr
                  obtain ⟨s₂, hvisit₂, h₂⟩ := hr.ok_left
                  obtain ⟨r, rfl⟩ := BooleanExpr.read_of_some hrhs
                  obtain ⟨b, h₂⟩ := h₂
                  obtain ⟨s', hvisit, h'⟩ : ∃ s',
                      FilterExprExecutor.visit t (.predicateExpr lhs rhs op) s = .ok s' ∧
                      Visited _ _ _ (.predicateExpr lhs rhs op)
                        (if rhs.startsWithConst then r else .predicateExpr l r op) s s' a := by
                    cases hconst : rhs.startsWithConst with
                    | true => exact h₁.continued op hvisit₁ hvisit₂ h₂ hbytes hconst
                    | false => exact h₁.combined op hvisit₁ hvisit₂ h₂ hbits hbytes hconst
                  rw [FilterExprExecutor.visit, hvisit₁, bind_ok] at hvisit
                  rw [hvisit]
                  exact .ok ⟨a, h'⟩

/-- The first column is looked at before anything is read. -/
theorem generateFilterBitmap_first (ctx : ExecutionContext) (e : BooleanExpr) :
    generateFilterBitmap ctx e =
      if ctx.table.shape.head?.any (·.hasChunk) then do
        let s ← FilterExprExecutor.visit ctx.table e ⟨[], none⟩
        let res ← ExecutionContext.create ctx.table
        .ok { res with metadata := { res.metadata with filterBitmap := s.result } }
      else ExecutionContext.create ctx.table := by
  unfold generateFilterBitmap Table.shape
  cases ctx.table.columns with
  | nil => rfl
  | cons c cs =>
      simp only [List.map_cons, List.head?_cons, Option.any_some, hasChunk_shape,
        ChunkedArray.numChunks]
      by_cases hchunks : c.data.chunks = []
      · simp [hchunks]
      · simp [hchunks]

/-- The context after a filter has the truth of the tree that was read, or no bitmap. -/
def MarkedAs (t : Table) (read : Option BooleanExpr) (res : ExecutionContext) : Prop :=
  res.table = t ∧ match read with
  | none => res.filterBitmap = none
  | some e' => ∃ b, res.filterBitmap = some b ∧ b.length = bytesForBits t.numRows ∧
      ∀ r < t.numRows, b.bit r = truthOfRow Cell.compiled e' (t.frontRow r)

/-- **A filter marks the rows that the tree it is read as is true of.** -/
theorem generateFilterBitmap_agrees {ctx : ExecutionContext} (h : Laid ctx.table)
    (hmeta : checkContext ctx.table.shape = .ok ()) (e : BooleanExpr) :
    Agree (MarkedAs ctx.table) (ctx.table.snapshot.readFilter e) (generateFilterBitmap ctx e) := by
  obtain ⟨res, hres, htable, hnone⟩ := create_of_check hmeta
  rw [generateFilterBitmap_first, Snapshot.readFilter]
  have hfields : ctx.table.snapshot.fields = ctx.table.fields := ctx.table.map_field_shape
  rw [hfields]
  show Agree _ (if ctx.table.shape.head?.any (·.hasChunk) then _ else _) _
  split
  · rw [← bind_pure (e.read ctx.table.fields none)]
    refine (visit_agrees h e (s := ⟨[], none⟩) (fun _ => rfl) (fun _ h => by cases h)).bind
      fun read s hread => ?_
    rw [hres, bind_ok]
    refine .ok ⟨htable, ?_⟩
    cases read with
    | none =>
        obtain ⟨-, hs⟩ := hread
        show s.result = none
        rw [FilterExprExecutor.result, hs]
        rfl
    | some e' =>
        obtain ⟨a, hvisited⟩ := hread
        exact hvisited.result
  · rw [hres]
    exact .ok ⟨htable, hnone⟩

end Filters

/-! ## Materializations -/

section Materializations

variable {t : Table}

theorem materializeShape_eq_ok {lens : List Nat} {s s' : ColumnShape}
    (h : materializeShape lens s = .ok s') :
    s.field.type.isMaterializable = true ∧ s' = ⟨s.field, lens⟩ := by
  unfold materializeShape at h
  split at h
  · next htype => exact ⟨htype, (Except.ok.inj h).symm⟩
  · cases h

theorem checkMetadata_materializable {s : ColumnShape}
    (h : s.field.type.isMaterializable = true) : checkMetadata s = .ok () := by
  obtain ⟨m, hm⟩ := createEmptyChunkMetadata_ok h
  simp only [checkMetadata, hm, bind_ok, ite_self]

/-- The lengths of the output chunks, from the marks of the rows. -/
theorem outputLens_eq (b : Bitmap) (n : Nat) :
    outputLens b n = lensOf chunkSize ((List.range n).map b.bit) := by
  rw [outputLens, map_length_rechunk chunkSize_pos]
  congr 1
  exact List.ext_getElem (by simp [marked]) fun r h1 h2 => by simp [marked]

/-- All columns of the output are cut at the same rows. -/
theorem shape_of_rechunked (hvalid : t.Valid) {b : Bitmap} {t' : Table}
    (h : List.Forall₂ (RechunkedColumn b) t.columns t'.columns) :
    t'.shape = t.shape.map fun s => ⟨s.field, outputLens b t.numRows⟩ := by
  have hshape : List.Forall₂ (fun c c' => c'.shape = ⟨c.field, outputLens b t.numRows⟩)
      t.columns t'.columns := forall₂_imp_mem h fun c c' hc hcc => by
    obtain ⟨data, rfl, hdata⟩ := hcc
    rw [← hvalid c hc, ← hdata.lens_eq]
    rfl
  unfold Table.shape
  generalize t.columns = cols, t'.columns = cols' at hshape
  induction hshape with
  | nil => rfl
  | cons hcc _ ih => rw [List.map_cons, List.map_cons, List.map_cons, hcc, ih]; rfl

theorem countable_of_laid (h : Laid t) {b : Bitmap} (hlen : b.length = bytesForBits t.numRows)
    {c : Column} (hc : c ∈ t.columns) : Countable c.data b := by
  have hrows := h.rows
  have hbits := bytesForBits_le.mp (le_of_eq hlen.symm)
  have hnum := h.valid c hc
  exact ⟨by omega, h.counted c hc, by omega⟩

/-- A column of a table that is cut right is materialized unless its type is not supported. -/
theorem materializeTableColumn_agrees (h : Laid t) {b : Bitmap}
    (hlen : b.length = bytesForBits t.numRows) (lens : List Nat) :
    Agree (List.Forall₂ fun _ _ => True) (t.shape.mapM (materializeShape lens))
      (t.columns.mapM (materializeTableColumn b)) := by
  have hcolumns : List.Forall₂ (fun s c => s = Column.shape c ∧ c ∈ t.columns) t.shape t.columns :=
    List.forall₂_map_left_iff.mpr (List.forall₂_same.mpr fun _ hc => ⟨rfl, hc⟩)
  refine Agree.mapM ?_ hcolumns
  rintro _ c ⟨rfl, hc⟩
  unfold materializeShape materializeTableColumn
  show Agree _ (if c.type.isMaterializable then _ else _) _
  split
  · obtain ⟨data, hdata, -⟩ := materializeColumn_ok (countable_of_laid h hlen hc)
    rw [hdata]
    exact .ok trivial
  · exact .error _

/-- A snapshot and the context it was taken of. -/
structure Shows (s : Snapshot) (ctx : ExecutionContext) : Prop where
  laid : Laid ctx.table
  snapshot : ctx.table.snapshot = s
  metadata : checkContext s.shape = .ok ()

/-- **A materialization** keeps the rows that the tree is true of, unless a column has a type that
is not supported. -/
theorem materializeFilter_agrees (h : Laid t) {e : BooleanExpr} {res : ExecutionContext}
    (hres : MarkedAs t (some e) res) :
    Agree (fun shape out => Shows ⟨shape, t.frontRows.rows.filter (truthOfRow Cell.compiled e)⟩ out)
      (t.shape.mapM (materializeShape
        (lensOf chunkSize (t.frontRows.rows.map (truthOfRow Cell.compiled e)))))
      (materializeFilter res) := by
  obtain ⟨rfl, b, hb, hlen, hbits⟩ := hres
  have hmarks : (List.range res.table.numRows).map b.bit =
      res.table.frontRows.rows.map (truthOfRow Cell.compiled e) := by
    rw [Table.frontRows_rows, List.map_map]
    exact List.map_congr_left fun r hr => hbits r (List.mem_range.mp hr)
  rw [← hmarks, ← outputLens_eq]
  have htypes := materializeTableColumn_agrees h hlen (outputLens b res.table.numRows)
  cases hshape : res.table.shape.mapM (materializeShape (outputLens b res.table.numRows)) with
  | error err =>
      rw [hshape] at htypes
      simp only [materializeFilter, hb, htypes.error_left, bind_error]
      exact .error err
  | ok shape =>
      have hpicked := mapM_eq_ok hshape fun _ _ => materializeShape_eq_ok
      have hmat : ∀ c ∈ res.table.columns, c.type.isMaterializable = true := by
        intro c hc
        obtain ⟨s', -, htype, -⟩ := forall₂_mem_left hpicked (List.mem_map_of_mem hc)
        exact htype
      obtain ⟨out, hout, -, hrel⟩ := materializeFilter_ok hb hmat
        fun c hc => countable_of_laid h hlen hc
      have hshapes : out.table.shape = shape := by
        rw [shape_of_rechunked h.valid hrel]
        exact List.forall₂_eq_eq_eq ▸ List.forall₂_map_left_iff.mpr
          (hpicked.imp fun _ _ h => h.2.symm)
      have hrows : out.table.frontRows.rows =
          res.table.frontRows.rows.filter (truthOfRow Cell.compiled e) := by
        rw [frontRows_of_rechunked h.valid hrel, hmarks, RowTable.keep_map]
        rfl
      rw [hout]
      refine .ok ⟨(laid_of_rechunked h.valid h.rows hrel).1, ?_, ?_⟩
      · rw [Table.snapshot, hshapes, hrows]
      · refine checkContext_eq_ok.mpr fun s hs => ?_
        obtain ⟨s₀, -, htype, rfl⟩ := forall₂_mem_right hpicked hs
        exact checkMetadata_materializable htype

end Materializations

/-! ## Projections -/

theorem Laid.of_columns {t t' : Table} (h : Laid t) (hmem : ∀ c ∈ t'.columns, c ∈ t.columns)
    (hrows : t'.numRows = t.numRows) : Laid t' where
  valid c hc := by rw [hrows, h.valid c (hmem c hc)]
  rows := by rw [hrows]; exact h.rows
  counted c hc := h.counted c (hmem c hc)
  heads c hc := h.heads c (hmem c hc)

/-- Some of the columns of a table that is cut right. -/
theorem Laid.of_picks {t : Table} (h : Laid t) {names : List String} {cols : List Column}
    (hcols : Picks t.columns names cols) : Laid ⟨cols⟩ := by
  cases hnames : cols with
  | nil => exact ⟨nofun, Nat.two_pow_pos 31, nofun, nofun⟩
  | cons c cs =>
      have hmem : ∀ c' ∈ c :: cs, c' ∈ t.columns := by
        rw [← hnames]
        exact fun c' hc' => hcols.mem hc'
      exact h.of_columns hmem (h.valid c (hmem c List.mem_cons_self))

theorem rows_of_picks {t : Table} (hvalid : t.Valid) {names : List String} {cols : List Column}
    (hcols : Picks t.columns names cols) : (Table.mk cols).frontRows.rows =
      if names.isEmpty then [] else t.frontRows.rows.map (RowTable.pickCells · names) := by
  cases hcols with
  | nil => rfl
  | @cons name c names cols hc hcs =>
      have hcols : Picks t.columns (name :: names) (c :: cols) := .cons hc hcs
      have hnum : (Table.mk (c :: cols)).numRows = t.numRows :=
        hvalid c (hcols.mem List.mem_cons_self)
      show (List.range (Table.mk (c :: cols)).numRows).map _ = (t.frontRows.rows).map _
      rw [hnum, Table.frontRows_rows, List.map_map]
      exact List.map_congr_left fun r _ => (hcols.cells _ r).symm

/-- **A projection** picks the columns, unless a name does not stand for one. -/
theorem project_agrees {s : Snapshot} {ctx : ExecutionContext} (h : Shows s ctx)
    (names : List String) : Agree Shows (s.project names) (project ctx names) := by
  obtain ⟨hlaid, rfl, hmeta⟩ := h
  have hpick : ∀ name name' : String, name = name' →
      Agree (fun s c => s = Column.shape c)
        (deref (onlyNamed (·.field.name) ctx.table.shape name))
        (deref (ctx.table.getColumnByName name')) := by
    rintro name _ rfl
    have hnamed : onlyNamed (·.field.name) ctx.table.shape name =
        (ctx.table.getColumnByName name).map (·.shape) := by
      rw [getColumnByName_eq, Table.shape, onlyNamed_map]
      rfl
    rw [hnamed]
    cases ctx.table.getColumnByName name with
    | none => exact .error _
    | some c => exact .ok rfl
  have hagree := Agree.mapM hpick (List.forall₂_same.mpr fun name (_ : name ∈ names) => rfl)
  rw [Snapshot.project, project]
  show Agree _
    (names.mapM (fun name => deref (onlyNamed (·.field.name) ctx.table.shape name)) >>= _) _
  cases hshape : names.mapM (fun name =>
      deref (onlyNamed (·.field.name) ctx.table.shape name)) with
  | error err =>
      rw [hshape] at hagree
      rw [hagree.error_left]
      exact .error err
  | ok shape =>
      rw [hshape] at hagree
      obtain ⟨cols, hcols, hshapes⟩ := hagree.ok_left
      have hpicks : Picks ctx.table.columns names cols := mapM_eq_ok hcols fun name c hderef => by
        rw [getColumnByName_eq] at hderef
        cases hget : onlyNamed (·.name) ctx.table.columns name with
        | none =>
            rw [hget] at hderef
            cases hderef
        | some c' =>
            rw [hget] at hderef
            cases hderef
            rfl
      have hshape' : (Table.mk cols).shape = shape :=
        (List.forall₂_eq_eq_eq ▸ List.forall₂_map_right_iff.mpr hshapes : shape = _).symm
      have hmeta' : checkContext (Table.mk cols).shape = .ok () := by
        refine checkContext_eq_ok.mpr fun s hs => ?_
        obtain ⟨c, hc, rfl⟩ := List.mem_map.mp hs
        exact checkContext_eq_ok.mp hmeta _ (List.mem_map_of_mem (hpicks.mem hc))
      obtain ⟨ctx', hctx', htable, -⟩ := create_of_check hmeta'
      rw [hcols, bind_ok, bind_ok, hctx']
      refine .ok ⟨by rw [htable]; exact hlaid.of_picks hpicks, ?_, by rw [← hshape']; exact hmeta'⟩
      rw [htable, Table.snapshot, hshape', rows_of_picks hlaid.valid hpicks]
      rfl

/-! ## Queries -/

/-- **One call**, on the snapshot and on the table. -/
theorem step_agrees {s : Snapshot} {ctx : ExecutionContext} (h : Shows s ctx) (call : Step) :
    Agree Shows (s.step call) (executor.visitStep ctx call) := by
  cases call with
  | project names => exact project_agrees h names
  | filter e =>
      obtain ⟨hlaid, rfl, hmeta⟩ := h
      refine (generateFilterBitmap_agrees hlaid hmeta e).bind fun read res hres => ?_
      cases read with
      | none =>
          obtain ⟨-, hnone⟩ := hres
          show Agree _ _ (materializeFilter res)
          rw [materializeFilter, hnone]
          exact .error _
      | some e' =>
          rw [← bind_pure (executor.onVisitMaterialize res)]
          exact (materializeFilter_agrees hlaid hres).bind fun shape out hout => .ok hout

/-- On a table that is cut right a query is executed as on its snapshot. -/
theorem execute_agrees {t : Table} (h : Laid t) (steps : List Step) :
    Agree (fun s out => Laid out ∧ out.snapshot = s) (t.snapshot.execute steps)
      (execute (.build steps) t) := by
  rw [Snapshot.execute]
  by_cases hsteps : steps = []
  · subst hsteps
    exact .error _
  · rw [if_neg hsteps, execute_steps hsteps]
    show Agree _ (checkContext t.shape >>= _) _
    cases hcheck : checkContext t.shape with
    | error err =>
        have hcreate := create_agrees t
        rw [hcheck] at hcreate
        rw [hcreate.error_left]
        exact .error err
    | ok u =>
        obtain ⟨ctx, hctx, rfl, -⟩ := create_of_check hcheck
        rw [hctx, bind_ok, bind_ok, ← bind_pure (List.foldlM _ _ _)]
        have hshows : Shows ctx.table.snapshot ctx := ⟨h, rfl, hcheck⟩
        exact (Agree.foldlM (fun s c call hs => step_agrees hs call) _ hshows).bind
          fun s ctx' hs => .ok ⟨hs.laid, hs.snapshot⟩

/-- **The outcome of every query**: on a table that is cut right, whatever its types and whatever
the query, executing the query and taking a snapshot is executing the query on the snapshot. -/
theorem execute_outcome {t : Table} (h : Laid t) (steps : List Step) :
    (execute (.build steps) t).map Table.snapshot = t.snapshot.execute steps :=
  ((execute_agrees h steps).imp fun _ _ h => h.2).map_eq

/-- A constant and a name that stands for no column. -/
def oddQuery : List Step :=
  [.filter (((col "a").gt (lit 1)).and (.booleanConst false)), .project ["c"]]

theorem execute_outcome_nineRows :
    (execute (.build oddQuery) nineRows).map Table.snapshot = nineRows.snapshot.execute oddQuery :=
  execute_outcome readable_nineRows.laid oddQuery

end Pefa
