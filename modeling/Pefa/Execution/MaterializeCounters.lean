import Pefa.Execution.FilterExprTruth
import Pefa.Execution.MaterializeRows

/-!
# How far the counters reach

The counters of `materializeColumn` are `int`s, and the lengths they are compared with are
`int64_t`s. A run that ends well has counted every row of the column and moved past every chunk
with rows in it, so it tells how large the column was; and on a column of that size the loops do
end. The byte loop of AND and OR counts bytes in an `int`, which goes eight times as far.

From a run that ends well it can also be read off what kind of chunks it made (`MadeBy`).
-/

namespace Pefa

open WhileLoop Blocks

section

variable {α : Type} {column : ChunkedArray α} {bitmap : Bitmap}

/-! ## What a run that ends well has counted -/

/-- The counters are in the range of an `int`, name one place of the column, and are not left at
the end of a chunk with rows in it. -/
structure Counting (column : ChunkedArray α) (currentChunk currentChunkPos totalElementsPos : Nat) :
    Prop where
  atRow : AtRow column currentChunk currentChunkPos totalElementsPos
  chunk_lt : currentChunk < 2 ^ 31
  row_lt : totalElementsPos < 2 ^ 31
  inside : ∀ chunk, column.chunks[currentChunk]? = some chunk → 0 < currentChunkPos →
    currentChunkPos < chunk.length

theorem counting_zero (column : ChunkedArray α) : Counting column 0 0 0 :=
  ⟨⟨by simp, fun _ _ => Nat.zero_le _, Nat.zero_le _⟩, Nat.two_pow_pos 31, Nat.two_pow_pos 31,
    fun _ _ h0 => by cases h0⟩

/-- Inside the innermost loop the place may be the end of the chunk. -/
structure CountingIn (column : ChunkedArray α) (i : Nat) (s : CopyState α) : Prop where
  atRow : AtRow column s.currentChunk s.currentChunkPos s.totalElementsPos
  chunk_eq : s.currentChunk = i
  row_lt : s.totalElementsPos < 2 ^ 31

theorem copyElem_counts {chunk : ArrayData α} {i : Nat} {s s' : CopyState α}
    (hchunk : column.chunks[i]? = some chunk) (hs : CountingIn column i s)
    (hpos : s.currentChunkPos < chunk.length) (h : copyElem chunk bitmap s = .ok s') :
    CountingIn column i s' := by
  obtain ⟨x, hx⟩ := ArrayData.getElem?_values hpos
  simp only [copyElem, hx, bind_ok] at h
  obtain ⟨dataOut, -, h⟩ := bind_eq_ok.mp h
  obtain ⟨bit, -, h⟩ := bind_eq_ok.mp h
  obtain ⟨newChunkPos, -, h⟩ := bind_eq_ok.mp h
  obtain ⟨pos, hpos', h⟩ := bind_eq_ok.mp h
  obtain ⟨row, hrow', h⟩ := bind_eq_ok.mp h
  obtain ⟨rfl, -⟩ := intAdd_eq_ok hpos'
  obtain ⟨rfl, hlt⟩ := intAdd_eq_ok hrow'
  cases h
  refine ⟨⟨?_, fun c hc => ?_, hs.atRow.chunk_le⟩, hs.chunk_eq, hlt⟩
  · have := hs.atRow.row
    show s.totalElementsPos + 1 = start column.lens s.currentChunk + (s.currentChunkPos + 1)
    omega
  · rw [hs.chunk_eq, hchunk] at hc
    cases hc
    exact hpos

theorem copyChunk_counts {chunk : ArrayData α} {i : Nat} {s s' : CopyState α}
    (hchunk : column.chunks[i]? = some chunk) (hs : CountingIn column i s)
    (h : copyChunk chunk bitmap s = .ok s') : CountingIn column i s' := by
  refine (whileLoop_inv (CountingIn column i) (fun t t' ht hcond hbody => ?_) hs h).1
  rw [Bool.and_eq_true, decide_eq_true_eq, decide_eq_true_eq] at hcond
  exact copyElem_counts hchunk ht hcond.2 hbody

theorem fillBody_counts {s s' : CopyState α}
    (hs : Counting column s.currentChunk s.currentChunkPos s.totalElementsPos)
    (h : fillBody column bitmap s = .ok s') :
    Counting column s'.currentChunk s'.currentChunkPos s'.totalElementsPos := by
  obtain ⟨chunk, hchunk⟩ : ∃ chunk, column.chunks[s.currentChunk]? = some chunk := by
    cases hchunk : column.chunks[s.currentChunk]? with
    | some chunk => exact ⟨chunk, rfl⟩
    | none =>
        simp only [fillBody, hchunk, bind_error] at h
        cases h
  simp only [fillBody, hchunk, bind_ok] at h
  obtain ⟨t, hcopy, h⟩ := bind_eq_ok.mp h
  have ht := copyChunk_counts hchunk ⟨hs.atRow, rfl, hs.row_lt⟩ hcopy
  have hrow := ht.atRow.row
  rw [ht.chunk_eq] at hrow
  split at h
  · next hend =>
      -- the chunk is read to its end
      obtain ⟨currentChunk, hadd, h⟩ := bind_eq_ok.mp h
      obtain ⟨rfl, hlt⟩ := intAdd_eq_ok hadd
      rw [ht.chunk_eq] at h hlt
      cases h
      have hstart := start_succ (ChunkedArray.lens_getElem? hchunk)
      have hle : s.currentChunk + 1 ≤ column.numChunks := (List.getElem?_eq_some_iff.mp hchunk).1
      have hat : AtRow column (s.currentChunk + 1) 0 t.totalElementsPos :=
        ⟨by omega, fun _ _ => Nat.zero_le _, hle⟩
      exact ⟨hat, hlt, ht.row_lt, fun _ _ h0 => by cases h0⟩
  · next hend =>
      -- the output chunk is full
      cases h
      refine ⟨ht.atRow, by rw [ht.chunk_eq]; exact hs.chunk_lt, ht.row_lt, fun c hc _ => ?_⟩
      have hle := ht.atRow.pos_le c hc
      rw [ht.chunk_eq, hchunk] at hc
      cases hc
      omega

theorem fillChunk_counts {s s' : CopyState α}
    (hs : Counting column s.currentChunk s.currentChunkPos s.totalElementsPos)
    (h : fillChunk column bitmap s = .ok s') :
    Counting column s'.currentChunk s'.currentChunkPos s'.totalElementsPos :=
  (whileLoop_inv (fun s => Counting column s.currentChunk s.currentChunkPos s.totalElementsPos)
    (fun _ _ ht _ hbody => fillBody_counts ht hbody) hs h).1

/-- One turn of the outer loop makes one array. -/
theorem materializeBody_counts {s s' : MaterializeState α}
    (hs : Counting column s.currentChunk s.currentChunkPos s.totalElementsPos)
    (h : materializeBody column bitmap s = .ok s') :
    Counting column s'.currentChunk s'.currentChunkPos s'.totalElementsPos ∧
      ∃ a, Plain a ∧ s'.newColumn = s.newColumn ++ [a] := by
  obtain ⟨t, hfill, h⟩ := bind_eq_ok.mp h
  obtain ⟨array, hmake, h⟩ := bind_eq_ok.mp h
  cases h
  refine ⟨fillChunk_counts (s := ⟨_, _, _, _, _⟩) hs hfill, array, ?_, rfl⟩
  unfold makeArray at hmake
  split at hmake
  · cases hmake
    exact ⟨rfl, rfl⟩
  · cases hmake

/-- A place behind all rows has all chunks with rows before it. -/
theorem Counting.counted {cc p t : Nat} (h : Counting column cc p t) (hend : column.length ≤ t) :
    Counted column := by
  intro i chunk hi hpos
  have hrow := h.atRow.row
  have hle : start column.lens i + chunk.length ≤ column.length :=
    start_add_le_sum (ChunkedArray.lens_getElem? hi)
  have hlt := h.chunk_lt
  -- else the rows of the chunk would lie behind the place, or the place inside the chunk
  have hcc : i < cc := by
    by_contra hge
    rcases Nat.lt_or_eq_of_le (Nat.le_of_not_lt hge) with hgt | rfl
    · obtain ⟨c, hc⟩ : ∃ c, column.chunks[cc]? = some c := by
        have := (List.getElem?_eq_some_iff.mp hi).1
        exact ⟨_, List.getElem?_eq_getElem (by omega)⟩
      have hstart := start_add_le_start (ChunkedArray.lens_getElem? hc) hgt
      have hp := h.atRow.pos_le c hc
      omega
    · have hp := h.inside chunk hi (by omega)
      omega
  omega

/-- What is said of a column that `materializeColumn` made. -/
structure MadeBy (column data : ChunkedArray α) : Prop where
  plain : ∀ a ∈ data.chunks, Plain a
  chunks_ne_nil : data.chunks ≠ []
  rows : column.length < 2 ^ 31
  counted : Counted column

/-- **A run that ends well** has counted all rows and all chunks. -/
theorem materializeColumn_madeBy {data : ChunkedArray α}
    (h : materializeColumn column bitmap = .ok data) : MadeBy column data := by
  obtain ⟨s, hloop, h⟩ := bind_eq_ok.mp h
  obtain ⟨s₁, hfirst, hloop⟩ := bind_eq_ok.mp hloop
  obtain ⟨hcount₁, a, ha, hnew⟩ :=
    materializeBody_counts (s := ⟨0, 0, 0, []⟩) (counting_zero column) hfirst
  obtain ⟨⟨hcount, hplain, hne⟩, hstop⟩ := whileLoop_inv
    (fun s : MaterializeState α =>
      Counting column s.currentChunk s.currentChunkPos s.totalElementsPos ∧
        (∀ a ∈ s.newColumn, Plain a) ∧ s.newColumn ≠ [])
    (fun t t' ht _ hbody => by
      obtain ⟨hcount, a, ha, hnew⟩ := materializeBody_counts ht.1 hbody
      refine ⟨hcount, fun b hb => ?_, by rw [hnew]; simp⟩
      rw [hnew, List.mem_append, List.mem_singleton] at hb
      rcases hb with hb | rfl
      · exact ht.2.1 b hb
      · exact ha)
    ⟨hcount₁, by rw [hnew]; simpa using ha, by rw [hnew]; simp⟩ hloop
  have hend : column.length ≤ s.totalElementsPos := by simpa using hstop
  have hrow := hcount.row_lt
  unfold ChunkedArray.create at h
  split at h
  · cases h
    exact ⟨hplain, hne, by omega, hcount.counted hend⟩
  · cases h

/-! ## When the counters do not overflow -/

/-- On every bitmap with a bit for each row the loops of `materialize_column` come to their end,
and so does the byte loop of AND and OR on two such bitmaps: no `int` leaves its range on the way,
and no index does. -/
structure CountersExact (column : ChunkedArray α) : Prop where
  materialize : ∀ bitmap : Bitmap, bitmap.length = bytesForBits column.length →
    ∃ data, materializeColumn column bitmap = .ok data
  combine : ∀ (op : PredicateOp) (buffers : List Bitmap) (a b : Nat) (x y : Bitmap),
    buffers[a]? = some x → buffers[b]? = some y → x.length = bytesForBits column.length →
    y.length = bytesForBits column.length → ∃ out, combine op (some a) (some b) buffers = .ok out

/-- **When the row counters are exact**: the rows can be counted in an `int`, and so can the
chunks up to the last one with rows in it. -/
theorem counters_exact_iff (column : ChunkedArray α) :
    CountersExact column ↔ column.length < 2 ^ 31 ∧ Counted column := by
  constructor
  · intro h
    obtain ⟨data, hdata⟩ := h.materialize (Bitmap.ones (bytesForBits column.length))
      (Bitmap.length_ones _)
    have hmade := materializeColumn_madeBy hdata
    exact ⟨hmade.rows, hmade.counted⟩
  · rintro ⟨hrows, hcounted⟩
    refine ⟨fun bitmap hlen => ?_, fun op buffers a b x y ha hb hx hy => ?_⟩
    · have hcount : Countable column bitmap :=
        ⟨hrows, hcounted, bytesForBits_le.mp (le_of_eq hlen.symm)⟩
      obtain ⟨data, hdata, -⟩ := materializeColumn_ok hcount
      exact ⟨data, hdata⟩
    · have hbytes : bytesForBits column.length < 2 ^ 31 := by
        unfold bytesForBits
        omega
      exact ⟨_, combine_ok ha hb (by rw [hx, hy]) (by rw [hx]; exact hbytes)⟩

end

/-- An `int8` column of `2 ^ 31` zeros in one chunk. -/
def tooManyRows : ChunkedArray DataType.int8.CType where
  chunks := [.replicate (2 ^ 31) 0#8 (by norm_num)]
  length_lt := by
    rw [List.map_singleton, List.sum_singleton]
    norm_num [ArrayData.replicate]

/-- The row counter would have to reach `2 ^ 31`. -/
theorem counters_not_exact_tooManyRows : ¬ CountersExact tooManyRows := by
  intro h
  obtain ⟨data, hdata⟩ := h.materialize (Bitmap.ones (bytesForBits tooManyRows.length))
    (Bitmap.length_ones _)
  have hlen : tooManyRows.length = 2 ^ 31 := by
    rw [ChunkedArray.length, ChunkedArray.lens, tooManyRows, List.map_singleton,
      List.sum_singleton]
    rfl
  have hrows := (materializeColumn_madeBy hdata).rows
  rw [hlen] at hrows
  exact absurd hrows (Nat.lt_irrefl _)

/-! ## Tables -/

/-- A column that `materializeColumn` made of a column. -/
def MadeByColumn (c c' : Column) : Prop := ∃ data, c' = { c with data := data } ∧ MadeBy c.data data

/-- **A materialization that ends well** has made every column. -/
theorem materializeFilter_madeBy {ctx out : ExecutionContext}
    (h : materializeFilter ctx = .ok out) :
    List.Forall₂ MadeByColumn ctx.table.columns out.table.columns := by
  unfold materializeFilter at h
  split at h
  · cases h
  · obtain ⟨newColumns, hmap, h⟩ := bind_eq_ok.mp h
    rw [(ExecutionContext.create_eq_ok h).1]
    refine mapM_eq_ok hmap fun c c' hc => ?_
    unfold materializeTableColumn at hc
    split at hc
    · obtain ⟨data, hdata, hc⟩ := bind_eq_ok.mp hc
      cases hc
      exact ⟨data, rfl, materializeColumn_madeBy hdata⟩
    · cases hc

end Pefa
