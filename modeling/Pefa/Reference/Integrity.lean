import Pefa.Execution.AnyCalls
import Pefa.Reference.BitmapFound

/-!
# What a query that returns has done to the rows

The reference interpretation says what a query returns on tables that are cut right. Cut in any
other way a chunk may put its bits into the wrong place of the bitmap, and the rows that are kept
are not the ones that were asked for. But whatever the bitmap says, it says the same of every
column. So a query that returns, on whatever plan and however the chunks are cut, returns rows that
stand at the front of the value buffers: in their order, none of them twice, and the cells of one
row together (`execute_keeps_rows`).
-/

namespace Pefa

open WhileLoop

/-! ## The length of the bitmap -/

/-- The bitmap of a comparison has a bit for each row. -/
theorem length_of_compareBuffer {table : Table} {lhs : ColumnRef} {rhs : LiteralExpr}
    {op : CompareOp} {buffer : Bitmap} (h : compareBuffer table lhs rhs op = .ok buffer) :
    buffer.length = bytesForBits table.numRows := by
  cases hcolumn : table.getColumnByName lhs.name with
  | none =>
      simp only [compareBuffer, hcolumn] at h
      cases h
  | some column =>
      simp only [compareBuffer, hcolumn] at h
      obtain ⟨kernel, hkernel, hrun⟩ := bind_eq_ok.mp h
      obtain ⟨⟨type, htype⟩, predicate, hp⟩ := FilterKernel.compile_eq_ok hkernel
      obtain ⟨size, hsize⟩ := exists_elemSize htype
      obtain ⟨-, rfl⟩ := (runCalls_eq hp hsize).mp hrun
      rw [Bitmap.length_mask, allocateFullBitmap, Bitmap.length_ones]

/-- AND and OR change no buffer's length. -/
theorem lengths_of_combine {op : PredicateOp} {lhsBuf rhsBuf : Option Nat} {n : Nat}
    {buffers out : List Bitmap} (h : combine op lhsBuf rhsBuf buffers = .ok out)
    (hlen : ∀ b ∈ buffers, b.length = n) : ∀ b ∈ out, b.length = n := by
  obtain ⟨lhs, -, h⟩ := bind_eq_ok.mp h
  obtain ⟨s, hloop, h⟩ := bind_eq_ok.mp h
  cases h
  refine (whileLoop_inv (fun s : CombineState => ∀ b ∈ s.buffers, b.length = n)
    (fun t t' ht _ hbody => ?_) hlen hloop).1
  obtain ⟨rhs, -, hbody⟩ := bind_eq_ok.mp hbody
  obtain ⟨y, -, hbody⟩ := bind_eq_ok.mp hbody
  obtain ⟨lhs, hlhs, hbody⟩ := bind_eq_ok.mp hbody
  obtain ⟨x, -, hbody⟩ := bind_eq_ok.mp hbody
  obtain ⟨lhs', hstore, hbody⟩ := bind_eq_ok.mp hbody
  obtain ⟨i, -, hbody⟩ := bind_eq_ok.mp hbody
  cases hbody
  cases lhsBuf with
  | none => exact ht
  | some a =>
      intro b hb
      rcases List.mem_or_eq_of_mem_set hb with hb | rfl
      · exact ht b hb
      · rw [storeByte_eq_ok hstore, List.length_set]
        unfold getBuffer at hlhs
        simp only at hlhs
        split at hlhs
        · next b' hb' =>
            cases hlhs
            exact ht _ (List.mem_of_getElem? hb')
        · cases hlhs

/-- The buffers of a tree have a bit for each row. -/
theorem lengths_of_visit {table : Table} : ∀ {e : BooleanExpr} {s s' : FilterExprExecutor},
    (∀ b ∈ s.buffers, b.length = bytesForBits table.numRows) →
    FilterExprExecutor.visit table e s = .ok s' →
      ∀ b ∈ s'.buffers, b.length = bytesForBits table.numRows := by
  intro e
  induction e with
  | booleanConst value =>
      intro s s' hs h
      cases h
      exact hs
  | predicateExpr lhs rhs op ihl ihr =>
      intro s s' hs h
      obtain ⟨s₁, h₁, h⟩ := bind_eq_ok.mp h
      obtain ⟨s₂, h₂, h⟩ := bind_eq_ok.mp h
      obtain ⟨out, hcombine, h⟩ := bind_eq_ok.mp h
      cases h
      exact lengths_of_combine hcombine (ihr (ihl hs h₁) h₂)
  | compareExpr lhs rhs op =>
      intro s s' hs h
      obtain ⟨buffer, hbuffer, h⟩ := bind_eq_ok.mp h
      cases h
      intro b hb
      rcases List.mem_append.mp hb with hb | hb
      · exact hs b hb
      · obtain rfl := List.mem_singleton.mp hb
        exact length_of_compareBuffer hbuffer

/-- **A bitmap has a bit for each row**, whatever the expression is. -/
theorem length_of_filterBitmap {ctx ctx' : ExecutionContext} {e : BooleanExpr} {bitmap : Bitmap}
    (h : generateFilterBitmap ctx e = .ok ctx') (hbitmap : ctx'.filterBitmap = some bitmap) :
    bitmap.length = bytesForBits ctx.table.numRows := by
  have hnone : ∀ {ctx'}, ExecutionContext.create ctx.table = .ok ctx' →
      ctx'.filterBitmap ≠ some bitmap := by
    intro ctx' h hsome
    rw [(ExecutionContext.create_eq_ok h).2] at hsome
    cases hsome
  unfold generateFilterBitmap at h
  split at h
  · exact absurd hbitmap (hnone h)
  · split at h
    · exact absurd hbitmap (hnone h)
    · obtain ⟨s, hvisit, h⟩ := bind_eq_ok.mp h
      obtain ⟨res, -, h⟩ := bind_eq_ok.mp h
      cases h
      obtain ⟨a, -, ha⟩ := Option.bind_eq_some_iff.mp hbitmap
      exact lengths_of_visit (by simp) hvisit bitmap (List.mem_of_getElem? ha)

/-! ## Rows of a table -/

/-- The column has the values of the rows `idx` of a column, in this order. -/
def Selects (idx : List Nat) (c c' : Column) : Prop :=
  ∃ data, c' = { c with data := data } ∧ data.front.map some = idx.map (c.data.front[·]?)

/-- The table has the rows `idx` of a table, in the order in which they are there, and of each row
some of the cells. -/
structure RowsOf (t : Table) (idx : List Nat) (out : Table) : Prop where
  sorted : idx.Pairwise (· < ·)
  bound : ∀ r ∈ idx, r < t.numRows
  columns : ∀ c' ∈ out.columns, ∃ c ∈ t.columns, Selects idx c c'

theorem Selects.length_eq {idx : List Nat} {c c' : Column} (h : Selects idx c c') :
    c'.data.length = idx.length := by
  obtain ⟨data, rfl, hdata⟩ := h
  have hlen := congrArg List.length hdata
  rw [List.length_map, List.length_map, ChunkedArray.length_front] at hlen
  exact hlen

namespace RowsOf

variable {t out : Table} {idx : List Nat}

theorem numRows (h : RowsOf t idx out) : ∀ c' ∈ out.columns, c'.data.length = out.numRows := by
  have hlength : ∀ c' ∈ out.columns, c'.data.length = idx.length := fun c' hc' =>
    let ⟨_, _, hc⟩ := h.columns c' hc'
    hc.length_eq
  cases hcols : out.columns with
  | nil => exact nofun
  | cons c cs =>
      rw [hcols] at hlength
      intro c' hc'
      simp only [Table.numRows, hcols]
      rw [hlength c' hc', hlength c List.mem_cons_self]

/-- A table has its own rows. -/
theorem self (ht : t.Valid) : RowsOf t (List.range t.numRows) t where
  sorted := List.pairwise_lt_range
  bound _ hr := List.mem_range.mp hr
  columns c hc := by
    refine ⟨c, hc, c.data, rfl, ?_⟩
    apply List.ext_getElem
    · rw [List.length_map, List.length_map, List.length_range, ChunkedArray.length_front, ht c hc]
    · intro r h₁ h₂
      simp

/-- Some of the columns of the rows. -/
theorem of_columns (h : RowsOf t idx out) {out' : Table}
    (hmem : ∀ c ∈ out'.columns, c ∈ out.columns) : RowsOf t idx out' :=
  ⟨h.sorted, h.bound, fun c hc => h.columns c (hmem c hc)⟩

end RowsOf

/-- Rows of rows. -/
theorem Selects.trans {idx rows : List Nat} {c c' c'' : Column} (h : Selects idx c c')
    (h' : Selects rows c' c'') (hbound : ∀ k ∈ rows, k < idx.length) :
    Selects (rows.map (idx.getD · 0)) c c'' := by
  obtain ⟨data, rfl, hdata⟩ := h
  obtain ⟨data', rfl, hdata'⟩ := h'
  refine ⟨data', rfl, ?_⟩
  rw [hdata', List.map_map]
  refine List.map_congr_left fun k hk => ?_
  -- row `k` of the rows is the row of the table that is listed at `k`
  have hlt := hbound k hk
  have hat := congrArg (·[k]?) hdata
  simp only [List.getElem?_map, List.getElem?_eq_getElem hlt, Option.map_some] at hat
  obtain ⟨x, hx, hsome⟩ := Option.map_eq_some_iff.mp hat
  show data.front[k]? = c.data.front[idx.getD k 0]?
  rw [hx, hsome, List.getD_eq_getElem?_getD, List.getElem?_eq_getElem hlt, Option.getD_some]

/-- Some of the rows of a table's rows are rows of the table. -/
theorem RowsOf.of_selected {t out out' : Table} {idx rows : List Nat} (h : RowsOf t idx out)
    (hrows : rows.Pairwise (· < ·)) (hbound : ∀ k ∈ rows, k < idx.length)
    (hcols : ∀ c' ∈ out'.columns, ∃ c ∈ out.columns, Selects rows c c') :
    RowsOf t (rows.map (idx.getD · 0)) out' where
  sorted := by
    rw [List.pairwise_map]
    refine hrows.imp_of_mem fun {k k'} hk hk' hlt => ?_
    have hk := hbound k hk
    have hk' := hbound k' hk'
    rw [List.getD_eq_getElem?_getD, List.getD_eq_getElem?_getD, List.getElem?_eq_getElem hk,
      List.getElem?_eq_getElem hk']
    exact List.pairwise_iff_getElem.mp h.sorted k k' hk hk' hlt
  bound := by
    intro r hr
    obtain ⟨k, hk, rfl⟩ := List.mem_map.mp hr
    have hk := hbound k hk
    rw [List.getD_eq_getElem?_getD, List.getElem?_eq_getElem hk, Option.getD_some]
    exact h.bound _ (List.getElem_mem hk)
  columns := by
    intro c'' hc''
    obtain ⟨c', hc', hselects'⟩ := hcols c'' hc''
    obtain ⟨c, hc, hselects⟩ := h.columns c' hc'
    exact ⟨c, hc, hselects.trans hselects' hbound⟩

/-! ## What a plan does to the rows -/

/-- The context has rows of a table, and a bit for each of them if it has a bitmap. -/
structure KeepsRows (t : Table) (ctx : ExecutionContext) : Prop where
  rows : ∃ idx, RowsOf t idx ctx.table
  bitmap : ∀ b, ctx.filterBitmap = some b → b.length = bytesForBits ctx.table.numRows

/-- The rows that a bitmap keeps are in order. -/
theorem selectedRows_sorted (bitmap : Bitmap) (n : Nat) :
    (selectedRows bitmap n).Pairwise (· < ·) :=
  List.pairwise_lt_range.filter _

/-- A column that was materialized has the rows whose bit is set. -/
theorem selects_of_materialize {bitmap : Bitmap} {c c' : Column}
    (h : materializeTableColumn bitmap c = .ok c') (hbits : c.data.length ≤ 8 * bitmap.length) :
    Selects (selectedRows bitmap c.data.length) c c' := by
  unfold materializeTableColumn at h
  split at h
  · obtain ⟨data, hdata, h⟩ := bind_eq_ok.mp h
    cases h
    have hmade := materializeColumn_madeBy hdata
    obtain ⟨data', hdata', hrechunked⟩ := materializeColumn_ok ⟨hmade.rows, hmade.counted, hbits⟩
    rw [hdata] at hdata'
    cases hdata'
    refine ⟨data, rfl, ?_⟩
    rw [hrechunked.zeroOffset.front_eq, hrechunked.map_some_elems]
  · cases h

/-- **What each node keeps**: rows of the table, and a bitmap of the right length. -/
theorem keepsRows (t : Table) : executor.Keeps (KeepsRows t) where
  projection := by
    intro names ctx ctx' hctx h
    obtain ⟨idx, hidx⟩ := hctx.rows
    obtain ⟨cols, hpicks, htable⟩ := project_picks h
    refine ⟨⟨idx, hidx.of_columns fun c hc => ?_⟩, fun b hb => ?_⟩
    · rw [htable] at hc
      exact hpicks.mem hc
    · obtain ⟨cols, -, h⟩ := bind_eq_ok.mp h
      rw [(ExecutionContext.create_eq_ok h).2] at hb
      cases hb
  filter := by
    intro e ctx ctx' hctx h
    refine ⟨by rw [generateFilterBitmap_table h]; exact hctx.rows, fun b hb => ?_⟩
    rw [generateFilterBitmap_table h]
    exact length_of_filterBitmap h hb
  materialize := by
    intro ctx ctx' hctx h
    obtain ⟨idx, hidx⟩ := hctx.rows
    cases hbitmap : ctx.filterBitmap with
    | none =>
        simp only [executePlanVisitor, executionOps, materializeFilter, hbitmap] at h
        cases h
    | some bitmap =>
        simp only [executePlanVisitor, executionOps, materializeFilter, hbitmap] at h
        obtain ⟨newColumns, hcols, h⟩ := bind_eq_ok.mp h
        obtain ⟨htable, hnone⟩ := ExecutionContext.create_eq_ok h
        have hbits := bytesForBits_le.mp (hctx.bitmap bitmap hbitmap).ge
        -- every column is asked for the same rows
        have hselects : List.Forall₂ (fun c c' => c.data.length = ctx.table.numRows →
            Selects (selectedRows bitmap ctx.table.numRows) c c') ctx.table.columns newColumns :=
          mapM_eq_ok hcols fun c c' hc hlen => by
            rw [← hlen]
            exact selects_of_materialize hc (by omega)
        refine ⟨?_, fun b hb => by rw [hnone] at hb; cases hb⟩
        rw [htable]
        cases hcolumns : ctx.table.columns with
        | nil =>
            rw [hcolumns] at hselects
            cases hselects
            exact ⟨idx, hidx.sorted, hidx.bound, fun _ hc => absurd hc List.not_mem_nil⟩
        | cons c₀ cs =>
            have hc₀ : c₀ ∈ ctx.table.columns := by rw [hcolumns]; exact List.mem_cons_self
            have hidxLength : idx.length = ctx.table.numRows := by
              obtain ⟨c, -, hc⟩ := hidx.columns c₀ hc₀
              rw [← hc.length_eq, hidx.numRows c₀ hc₀]
            refine ⟨_, hidx.of_selected (selectedRows_sorted bitmap ctx.table.numRows)
              (fun k hk => ?_) fun c' hc' => ?_⟩
            · rw [hidxLength]
              exact List.mem_range.mp (List.mem_filter.mp hk).1
            · obtain ⟨c, hc, hselected⟩ := forall₂_mem_right hselects hc'
              exact ⟨c, hc, hselected (hidx.numRows c hc)⟩

/-- **A query that returns, returns rows of its table's buffers**: in their order, none of them
twice, and in all columns the same. The plan may be any, and the chunks may be cut in any way; but
of a chunk that is a slice the rows are those at the front of its buffer. -/
theorem execute_keeps_rows {plan : LogicalPlan} {t out : Table} (ht : t.Valid)
    (h : execute plan t = .ok out) : ∃ idx, RowsOf t idx out := by
  obtain ⟨plan', hopt, h⟩ := bind_eq_ok.mp h
  obtain ⟨ctx, hctx, h⟩ := bind_eq_ok.mp h
  obtain ⟨ctx', hvisit, h⟩ := bind_eq_ok.mp h
  cases h
  obtain ⟨htable, hnone⟩ := ExecutionContext.create_eq_ok hctx
  have hstart : KeepsRows t ctx :=
    ⟨⟨_, by rw [htable]; exact RowsOf.self ht⟩, fun b hb => by rw [hnone] at hb; cases hb⟩
  cases plan' with
  | nullptr => cases hvisit
  | projectionNode input fields => exact ((keepsRows t).visit hstart hvisit).rows
  | filterNode input expr => exact ((keepsRows t).visit hstart hvisit).rows
  | materializeFilterNode input => exact ((keepsRows t).visit hstart hvisit).rows

/-- Nine rows, of which a chunk ends inside of a byte. -/
def nineCutInside : Table :=
  ⟨[⟨"a", .int32, ⟨[.ofList [7#32, 7#32, 7#32] (by decide),
        .ofList [1#32, 7#32, 7#32, 1#32, 7#32, 2#32] (by decide)], by decide⟩⟩,
    ⟨"b", .uint8, ⟨[.ofList [0#8, 1#8, 2#8, 3#8, 4#8, 5#8, 6#8, 7#8, 8#8] (by decide)],
        by decide⟩⟩]⟩

theorem execute_keeps_rows_nineCutInside :
    ∃ out idx, execute (.materializeFilterNode (.filterNode .nullptr ((col "a").eq (lit 7))))
      nineCutInside = .ok out ∧ RowsOf nineCutInside idx out := by
  have hok : (execute (.materializeFilterNode (.filterNode .nullptr ((col "a").eq (lit 7))))
      nineCutInside).isOk = true := by decide +kernel
  cases hout : execute (.materializeFilterNode (.filterNode .nullptr ((col "a").eq (lit 7))))
      nineCutInside with
  | error e =>
      rw [hout] at hok
      cases hok
  | ok out =>
      obtain ⟨idx, hidx⟩ := execute_keeps_rows (by decide) hout
      exact ⟨out, idx, rfl, hidx⟩

end Pefa
