import Pefa.Lib.Rechunk
import Pefa.Execution.Materialize

/-!
# Materializing keeps the marked rows

The three loops of `materializeColumn` share their counters, and a loop can stop in the middle of
an input chunk, at its end or at the end of the column. What makes them one argument is that the
row counter alone says what is left to look at: the rows from there on, each with its bit. The
chunk being written and what is left together are always `Rechunk.fill` of what was left when the
chunk was opened (`CopyInv`), however the input is chunked.

So the output is `Rechunk.rechunk` of the marked rows (`Rechunked`), and everything
said about the output follows from the algebra of `rechunk`.
-/

namespace Pefa

open WhileLoop Rechunk Blocks

section

variable {α : Type}

/-- The rows of a column as they are read, each with its bit. -/
def marked (bitmap : Bitmap) (l : List α) : List (Bool × α) := l.mapIdx fun r x => (bitmap.bit r, x)

@[simp] theorem length_marked (bitmap : Bitmap) (l : List α) :
    (marked bitmap l).length = l.length := by
  simp [marked]

theorem drop_marked (bitmap : Bitmap) {l : List α} {r : Nat} {x : α} (h : l[r]? = some x) :
    (marked bitmap l).drop r = (bitmap.bit r, x) :: (marked bitmap l).drop (r + 1) := by
  obtain ⟨hr, rfl⟩ := List.getElem?_eq_some_iff.mp h
  rw [List.drop_eq_getElem_cons (by simpa using hr)]
  simp [marked]

/-! ## Reading a bit and writing an element -/

theorem loadBit_ok {bitmap : Bitmap} {r : Nat} (h : r < 8 * bitmap.length) :
    loadBit bitmap r = .ok (bitmap.bit r).toNat := by
  have hq : r / 8 < bitmap.length := by omega
  have hx := List.getElem?_eq_getElem hq
  have hbit : bitmap.bit r = bitmap[r / 8].getLsbD (7 - r % 8) := by
    simp [Bitmap.bit, List.getD_eq_getElem?_getD, hx]
  have htoNat : ((bitmap[r / 8] >>> (7 - r % 8)) &&& 1#8).toNat =
      (bitmap[r / 8].getLsbD (7 - r % 8)).toNat := by
    rw [BitVec.toNat_and, BitVec.toNat_ushiftRight, ← BitVec.testBit_toNat,
      show (1#8).toNat = 1 from rfl, Nat.and_one_is_mod, Nat.toNat_testBit,
      Nat.shiftRight_eq_div_pow]
  simp only [loadBit, hx, hbit, htoNat]

/-- Writing at the end of what was written, or at the last element of it. -/
theorem storeElem_ok {dataOut : List α} {k : Nat} (hk : k < chunkSize) (hle : k ≤ dataOut.length)
    (hlt : dataOut.length ≤ k + 1) (x : α) :
    storeElem dataOut k x = .ok (dataOut.take k ++ [x]) := by
  unfold storeElem
  rw [if_pos hk]
  split
  · next h =>
      have hlen : dataOut.length = k + 1 := by omega
      rw [List.set_eq_take_append_cons_drop, if_pos h, List.drop_eq_nil_of_le (by omega)]
  · next h =>
      have hlen : k = dataOut.length := by omega
      rw [if_pos hlen, hlen, List.take_length]

/-! ## The invariant -/

/-- The counters name one place: row `currentChunkPos` of chunk `currentChunk` is row
`totalElementsPos` of the column. -/
structure AtRow (column : ChunkedArray α) (currentChunk currentChunkPos totalElementsPos : Nat) :
    Prop where
  row : totalElementsPos = start column.lens currentChunk + currentChunkPos
  pos_le : ∀ chunk, column.chunks[currentChunk]? = some chunk → currentChunkPos ≤ chunk.length
  chunk_le : currentChunk ≤ column.numChunks

/-- What holds while a chunk is written that was opened with the rows `opened` left: the elements
kept so far and the ones the chunk will still be filled with are `fill chunkSize opened`. -/
structure CopyInv (column : ChunkedArray α) (bitmap : Bitmap) (opened : List (Bool × α))
    (s : CopyState α) : Prop where
  atRow : AtRow column s.currentChunk s.currentChunkPos s.totalElementsPos
  pos_le : s.newChunkPos ≤ chunkSize
  written : s.newChunkPos ≤ s.dataOut.length
  written_le : s.dataOut.length ≤ s.newChunkPos + 1
  chunk : s.dataOut.take s.newChunkPos ++
    (fill (chunkSize - s.newChunkPos) ((marked bitmap column.front).drop s.totalElementsPos)).1 =
      (fill chunkSize opened).1
  left : (fill (chunkSize - s.newChunkPos)
      ((marked bitmap column.front).drop s.totalElementsPos)).2 = (fill chunkSize opened).2

/-- Every chunk with rows in it has a number that an `int` can count past. -/
def Counted (column : ChunkedArray α) : Prop :=
  ∀ i chunk, column.chunks[i]? = some chunk → 0 < chunk.length → i + 1 < 2 ^ 31

theorem counted_of_lt {column : ChunkedArray α} (h : column.numChunks < 2 ^ 31) :
    Counted column := by
  intro i chunk hi _
  have hlt : i < column.numChunks := (List.getElem?_eq_some_iff.mp hi).1
  omega

/-- The column is within the range of the `int` counters, and the bitmap has a bit for each row. -/
structure Countable (column : ChunkedArray α) (bitmap : Bitmap) : Prop where
  rows : column.length < 2 ^ 31
  chunks : Counted column
  bits : column.length ≤ 8 * bitmap.length

variable {column : ChunkedArray α} {bitmap : Bitmap} {opened : List (Bool × α)}

theorem chunkSize_lt : chunkSize + 1 < 2 ^ 31 := by decide

theorem chunkSize_pos : 0 < chunkSize := by decide

/-! ## The innermost loop -/

/-- An element is written, and kept if its bit is set. -/
theorem CopyInv.next {s : CopyState α} {x : α} (hinv : CopyInv column bitmap opened s)
    (hpos : s.newChunkPos < chunkSize) (hfront : column.front[s.totalElementsPos]? = some x)
    (hat : AtRow column s.currentChunk (s.currentChunkPos + 1) (s.totalElementsPos + 1)) :
    CopyInv column bitmap opened ⟨s.currentChunk, s.currentChunkPos + 1, s.totalElementsPos + 1,
      s.newChunkPos + (bitmap.bit s.totalElementsPos).toNat,
      s.dataOut.take s.newChunkPos ++ [x]⟩ := by
  have hdata : (s.dataOut.take s.newChunkPos ++ [x]).length = s.newChunkPos + 1 := by
    rw [List.length_append, List.length_take, Nat.min_eq_left hinv.written]
    rfl
  have hroom : chunkSize - s.newChunkPos = chunkSize - (s.newChunkPos + 1) + 1 := by omega
  have hchunk := hinv.chunk
  have hleft := hinv.left
  rw [drop_marked bitmap hfront, hroom] at hchunk hleft
  cases hb : bitmap.bit s.totalElementsPos with
  | true =>
      rw [hb, fill_cons_true] at hchunk hleft
      refine ⟨hat, hpos, by rw [hdata]; rfl, by rw [hdata]; exact Nat.le_succ _, ?_, hleft⟩
      show (s.dataOut.take s.newChunkPos ++ [x]).take (s.newChunkPos + 1) ++ _ = _
      rw [List.take_of_length_le (by omega), List.append_assoc]
      exact hchunk
  | false =>
      rw [hb, fill_cons_false, ← hroom] at hchunk hleft
      refine ⟨hat, hinv.pos_le, by rw [hdata]; exact Nat.le_succ _, by rw [hdata]; rfl, ?_, hleft⟩
      -- the next element is written over this one
      show (s.dataOut.take s.newChunkPos ++ [x]).take s.newChunkPos ++ _ = _
      rw [List.take_append_of_le_length (by rw [List.length_take]; have := hinv.written; omega),
        List.take_take, Nat.min_self]
      exact hchunk

/-- **One element**: it is written, kept if its bit is set, and all counters move on. -/
theorem copyElem_ok (hc : Countable column bitmap) {s : CopyState α} {chunk : ArrayData α}
    (hinv : CopyInv column bitmap opened s) (hchunk : column.chunks[s.currentChunk]? = some chunk)
    (hpos : s.newChunkPos < chunkSize) (hlt : s.currentChunkPos < chunk.length) :
    ∃ s', copyElem chunk bitmap s = .ok s' ∧ CopyInv column bitmap opened s' ∧
      s'.currentChunk = s.currentChunk ∧ s'.currentChunkPos = s.currentChunkPos + 1 := by
  obtain ⟨x, hx⟩ := ArrayData.getElem?_values hlt
  have hrow := hinv.atRow.row
  have hend : start column.lens s.currentChunk + chunk.length ≤ column.length :=
    start_add_le_sum (ChunkedArray.lens_getElem? hchunk)
  have hfront : column.front[s.totalElementsPos]? = some x := by
    rw [hrow, ChunkedArray.getElem?_front hchunk hlt, hx]
  have hat : AtRow column s.currentChunk (s.currentChunkPos + 1) (s.totalElementsPos + 1) := by
    refine ⟨by omega, fun c hc' => ?_, hinv.atRow.chunk_le⟩
    obtain rfl : chunk = c := Option.some.inj (hchunk.symm.trans hc')
    omega
  refine ⟨_, ?_, hinv.next hpos hfront hat, rfl, rfl⟩
  have hsize := chunkSize_lt
  have hrows := hc.rows
  have hbits := hc.bits
  have hbit : (bitmap.bit s.totalElementsPos).toNat ≤ 1 := Bool.toNat_le _
  simp only [copyElem, hx, storeElem_ok hpos hinv.written hinv.written_le,
    loadBit_ok (show s.totalElementsPos < 8 * bitmap.length by omega), bind_ok,
    intAdd_ok (show s.newChunkPos + (bitmap.bit s.totalElementsPos).toNat < 2 ^ 31 by omega),
    intAdd_ok (show s.currentChunkPos + 1 < 2 ^ 31 by omega),
    intAdd_ok (show s.totalElementsPos + 1 < 2 ^ 31 by omega)]

/-- **The innermost loop** ends at the end of its input chunk or with the output chunk full. -/
theorem copyChunk_ok (hc : Countable column bitmap) {s : CopyState α} {chunk : ArrayData α}
    (hinv : CopyInv column bitmap opened s)
    (hchunk : column.chunks[s.currentChunk]? = some chunk) :
    ∃ s', copyChunk chunk bitmap s = .ok s' ∧ CopyInv column bitmap opened s' ∧
      s'.currentChunk = s.currentChunk ∧
      (s'.newChunkPos = chunkSize ∨ s'.currentChunkPos = chunk.length) := by
  have hend : start column.lens s.currentChunk + chunk.length ≤ column.length :=
    start_add_le_sum (ChunkedArray.lens_getElem? hchunk)
  have hrows := hc.rows
  obtain ⟨s', hrun, ⟨hinv', hcur⟩, hstop⟩ : ∃ s', copyChunk chunk bitmap s = .ok s' ∧
      (CopyInv column bitmap opened s' ∧ s'.currentChunk = s.currentChunk) ∧
      (decide (s'.newChunkPos < chunkSize) && decide (s'.currentChunkPos < chunk.length)) =
        false := by
    -- every element takes the loop one row further in its chunk
    refine whileLoop_total (fun t => CopyInv column bitmap opened t ∧
      t.currentChunk = s.currentChunk) (fun t => chunk.length - t.currentChunkPos) ?_ ⟨hinv, rfl⟩
      (by unfold intFuel; omega)
    rintro t ⟨ht, hcur⟩ hcond
    have hroom : t.newChunkPos < chunkSize ∧ t.currentChunkPos < chunk.length := by
      simpa using hcond
    obtain ⟨t', hrun, ht', hcur', hpos⟩ :=
      copyElem_ok hc ht (by rw [hcur]; exact hchunk) hroom.1 hroom.2
    exact ⟨t', hrun, ⟨ht', hcur'.trans hcur⟩, by omega⟩
  refine ⟨s', hrun, hinv', hcur, ?_⟩
  have hle := hinv'.pos_le
  have hpos := hinv'.atRow.pos_le chunk (by rw [hcur]; exact hchunk)
  rw [Bool.and_eq_false_iff, decide_eq_false_iff_not, decide_eq_false_iff_not] at hstop
  omega

/-! ## The middle loop -/

/-- As long as rows are left there is a chunk to read from. -/
theorem AtRow.exists_chunk {cc p t : Nat} (h : AtRow column cc p t) (ht : t < column.length) :
    ∃ chunk, column.chunks[cc]? = some chunk := by
  rcases Nat.lt_or_ge cc column.numChunks with hlt | hge
  · exact ⟨_, List.getElem?_eq_getElem hlt⟩
  · have hrow := h.row
    have hstart : start column.lens cc = column.length :=
      start_of_length_le (by simpa [ChunkedArray.lens, ChunkedArray.numChunks] using hge)
    omega

/-- As long as rows are left an `int` can count past the chunk that is read. -/
theorem AtRow.currentChunk_lt {cc p t : Nat} (h : AtRow column cc p t) (hc : Counted column)
    (ht : t < column.length) : cc + 1 < 2 ^ 31 := by
  obtain ⟨i, chunk, j, hi, hj, hrow⟩ := ChunkedArray.exists_chunk ht
  have hlt := hc i chunk hi (by omega)
  have hcc : cc ≤ i := by
    by_contra hgt
    have hstart := start_add_le_start (ChunkedArray.lens_getElem? hi) (Nat.lt_of_not_le hgt)
    have := h.row
    omega
  omega

/-- **One turn of the middle loop** goes on to the next input chunk, or fills the output chunk. -/
theorem fillBody_ok (hc : Countable column bitmap) {s : CopyState α}
    (hinv : CopyInv column bitmap opened s) (hrow : s.totalElementsPos < column.length) :
    ∃ s', fillBody column bitmap s = .ok s' ∧ CopyInv column bitmap opened s' ∧
      (s'.currentChunk = s.currentChunk + 1 ∨
        s'.currentChunk = s.currentChunk ∧ s'.newChunkPos = chunkSize) := by
  obtain ⟨chunk, hchunk⟩ := hinv.atRow.exists_chunk hrow
  have hlt : s.currentChunk < column.numChunks := (List.getElem?_eq_some_iff.mp hchunk).1
  have hcount := hinv.atRow.currentChunk_lt hc.chunks hrow
  obtain ⟨t, hrun, hinv', hcur, hend⟩ := copyChunk_ok hc hinv hchunk
  by_cases hfin : t.currentChunkPos = chunk.length
  · -- the input chunk is read to its end, and the next one starts where it ended
    refine ⟨{ t with currentChunk := t.currentChunk + 1, currentChunkPos := 0 }, ?_, ?_, ?_⟩
    · simp only [fillBody, hchunk, bind_ok, hrun, if_pos hfin,
        intAdd_ok (show t.currentChunk + 1 < 2 ^ 31 by omega)]
    · have hstart := start_succ (ChunkedArray.lens_getElem? hchunk)
      have hat : AtRow column (t.currentChunk + 1) 0 t.totalElementsPos := by
        have hrow' := hinv'.atRow.row
        refine ⟨?_, fun c _ => Nat.zero_le _, by omega⟩
        rw [hcur] at hrow' ⊢
        omega
      exact ⟨hat, hinv'.pos_le, hinv'.written, hinv'.written_le, hinv'.chunk, hinv'.left⟩
    · exact Or.inl (congrArg (· + 1) hcur)
  · -- the output chunk is full
    refine ⟨t, ?_, hinv', Or.inr ⟨hcur, hend.resolve_right hfin⟩⟩
    simp only [fillBody, hchunk, bind_ok, hrun, if_neg hfin]

/-- **The middle loop** fills one output chunk. -/
theorem fillChunk_ok (hc : Countable column bitmap) {s : CopyState α}
    (hinv : CopyInv column bitmap opened s) :
    ∃ s', fillChunk column bitmap s = .ok s' ∧ CopyInv column bitmap opened s' ∧
      (s'.newChunkPos = chunkSize ∨ column.length ≤ s'.totalElementsPos) := by
  obtain ⟨s', hrun, hinv', hstop⟩ : ∃ s', fillChunk column bitmap s = .ok s' ∧
      CopyInv column bitmap opened s' ∧
      (decide (s'.newChunkPos < chunkSize) && decide (s'.totalElementsPos < column.length)) =
        false := by
    -- a turn that does not go on to the next input chunk fills the output chunk
    refine whileLoop_total (CopyInv column bitmap opened)
      (fun t => 2 ^ 31 - 1 - t.currentChunk + if t.newChunkPos = chunkSize then 0 else 1)
      ?_ hinv ?_
    · intro t ht hcond
      have hroom : t.newChunkPos < chunkSize ∧ t.totalElementsPos < column.length := by
        simpa using hcond
      obtain ⟨t', hrun, ht', hprogress⟩ := fillBody_ok hc ht hroom.2
      refine ⟨t', hrun, ht', ?_⟩
      have hcount := ht.atRow.currentChunk_lt hc.chunks hroom.2
      rw [if_neg (by omega : t.newChunkPos ≠ chunkSize)]
      rcases hprogress with hnext | ⟨hsame, hfull⟩
      · split <;> omega
      · rw [if_pos hfull]
        omega
    · unfold intFuel
      split <;> omega
  refine ⟨s', hrun, hinv', ?_⟩
  have hle := hinv'.pos_le
  rw [Bool.and_eq_false_iff, decide_eq_false_iff_not, decide_eq_false_iff_not] at hstop
  omega

/-- What a filled chunk holds and what it leaves. -/
theorem CopyInv.filled {s : CopyState α} (hinv : CopyInv column bitmap opened s)
    (hend : s.newChunkPos = chunkSize ∨ column.length ≤ s.totalElementsPos) :
    s.dataOut.take s.newChunkPos = (fill chunkSize opened).1 ∧
      (marked bitmap column.front).drop s.totalElementsPos = (fill chunkSize opened).2 := by
  have hchunk := hinv.chunk
  have hleft := hinv.left
  have hfill : fill (chunkSize - s.newChunkPos)
      ((marked bitmap column.front).drop s.totalElementsPos) =
        ([], (marked bitmap column.front).drop s.totalElementsPos) := by
    rcases hend with h | h
    · rw [h, Nat.sub_self, fill_zero]
    · rw [List.drop_eq_nil_of_le (by simpa using h), fill_nil]
  rw [hfill] at hchunk hleft
  exact ⟨by simpa using hchunk, hleft⟩

/-! ## The outer loop -/

/-- An array as `materializeColumn` makes them: a buffer of its own, without nulls. -/
def Plain (a : ArrayData α) : Prop := a.offset = 0 ∧ a.validity = none

theorem makeArray_ok {dataOut : List α} {k : Nat} (hk : k ≤ dataOut.length) (hlt : k < 2 ^ 63) :
    ∃ a, makeArray dataOut k = .ok a ∧ Plain a ∧ a.elems = dataOut.take k :=
  ⟨_, dif_pos ⟨hk, hlt⟩, ⟨rfl, rfl⟩, by simp [ArrayData.elems]⟩

/-- **One turn of the outer loop** makes the chunk that `fill` says and leaves what it leaves. -/
theorem materializeBody_ok (hc : Countable column bitmap) {s : MaterializeState α}
    (hat : AtRow column s.currentChunk s.currentChunkPos s.totalElementsPos) :
    ∃ s' a, materializeBody column bitmap s = .ok s' ∧
      AtRow column s'.currentChunk s'.currentChunkPos s'.totalElementsPos ∧
      s'.newColumn = s.newColumn ++ [a] ∧ Plain a ∧
      a.elems = (fill chunkSize ((marked bitmap column.front).drop s.totalElementsPos)).1 ∧
      (marked bitmap column.front).drop s'.totalElementsPos =
        (fill chunkSize ((marked bitmap column.front).drop s.totalElementsPos)).2 := by
  have hsize := chunkSize_lt
  have hopen : CopyInv column bitmap ((marked bitmap column.front).drop s.totalElementsPos)
      ⟨s.currentChunk, s.currentChunkPos, s.totalElementsPos, 0, []⟩ :=
    ⟨hat, Nat.zero_le _, Nat.le_refl _, Nat.zero_le _, by simp, by simp⟩
  obtain ⟨t, hrun, hinv, hend⟩ := fillChunk_ok hc hopen
  obtain ⟨hchunk, hleft⟩ := hinv.filled hend
  have hle := hinv.pos_le
  obtain ⟨a, hmake, hplain, helems⟩ := makeArray_ok hinv.written (by omega)
  exact ⟨⟨t.currentChunk, t.currentChunkPos, t.totalElementsPos, s.newColumn ++ [a]⟩, a,
    by simp only [materializeBody, hrun, bind_ok, hmake], hinv.atRow, rfl, hplain,
    helems.trans hchunk, hleft⟩

/-- The chunks made so far and the ones that will be made of what is left are all the chunks. -/
structure MaterializeInv (column : ChunkedArray α) (bitmap : Bitmap) (s : MaterializeState α) :
    Prop where
  atRow : AtRow column s.currentChunk s.currentChunkPos s.totalElementsPos
  plain : ∀ a ∈ s.newColumn, Plain a
  chunks : s.newColumn.map (·.elems) ++
    (if (marked bitmap column.front).drop s.totalElementsPos = [] then []
      else rechunk chunkSize ((marked bitmap column.front).drop s.totalElementsPos)) =
    rechunk chunkSize (marked bitmap column.front)

/-- The rows left, as chunks; before the first turn there is one even if no row is left. -/
theorem materializeBody_inv (hc : Countable column bitmap) {s : MaterializeState α}
    (hat : AtRow column s.currentChunk s.currentChunkPos s.totalElementsPos)
    (hplain : ∀ a ∈ s.newColumn, Plain a)
    (hchunks : s.newColumn.map (·.elems) ++
      rechunk chunkSize ((marked bitmap column.front).drop s.totalElementsPos) =
        rechunk chunkSize (marked bitmap column.front)) :
    ∃ s', materializeBody column bitmap s = .ok s' ∧ MaterializeInv column bitmap s' ∧
      (marked bitmap column.front).drop s'.totalElementsPos =
        (fill chunkSize ((marked bitmap column.front).drop s.totalElementsPos)).2 := by
  obtain ⟨s', a, hrun, hat', hnew, ha, helems, hleft⟩ := materializeBody_ok hc hat
  refine ⟨s', hrun, ⟨hat', ?_, ?_⟩, hleft⟩
  · intro b hb
    rw [hnew, List.mem_append, List.mem_singleton] at hb
    rcases hb with hb | rfl
    · exact hplain b hb
    · exact ha
  · -- the chunk that was made is the first of those that were still to come
    rw [← hchunks, rechunk_eq chunkSize_pos
      ((marked bitmap column.front).drop s.totalElementsPos), hnew, List.map_append, hleft,
      List.append_assoc]
    simp [helems]

/-- `data` has the rows of `column` as they are read, those with their bit set, in chunks of
`chunkSize`. -/
structure Rechunked (bitmap : Bitmap) (column data : ChunkedArray α) : Prop where
  plain : ∀ a ∈ data.chunks, Plain a
  chunks : data.chunks.map (·.elems) = rechunk chunkSize (marked bitmap column.front)

/-- **The outer loop** ends, and with it all rows are seen. -/
theorem materializeLoop_ok (hc : Countable column bitmap) :
    ∃ s, doWhile .diverged
      (fun s : MaterializeState α => decide (s.totalElementsPos < column.length))
      (materializeBody column bitmap) intFuel ⟨0, 0, 0, []⟩ = .ok s ∧
      MaterializeInv column bitmap s ∧ column.length ≤ s.totalElementsPos := by
  let left (s : MaterializeState α) : Nat :=
    ((marked bitmap column.front).drop s.totalElementsPos).length
  -- a turn that finds rows uses up one of them at least
  have hbody : ∀ s, MaterializeInv column bitmap s →
      decide (s.totalElementsPos < column.length) = true →
      ∃ s', materializeBody column bitmap s = .ok s' ∧ MaterializeInv column bitmap s' ∧
        left s' < left s := by
    intro s hs hcond
    have hne : (marked bitmap column.front).drop s.totalElementsPos ≠ [] := by
      intro hnil
      have hlen := congrArg List.length hnil
      simp at hlen hcond
      omega
    have hchunks := hs.chunks
    rw [if_neg hne] at hchunks
    obtain ⟨s', hrun, hinv, hleft⟩ := materializeBody_inv hc hs.atRow hs.plain hchunks
    refine ⟨s', hrun, hinv, ?_⟩
    show List.length _ < List.length _
    rw [hleft]
    exact fill_rest_length_lt chunkSize_pos hne
  -- the first turn is taken in any case
  have hfirst : ∃ s', materializeBody column bitmap ⟨0, 0, 0, []⟩ = .ok s' ∧
      MaterializeInv column bitmap s' ∧ left s' ≤ intFuel := by
    have hstart : AtRow column 0 0 0 := ⟨by simp, fun _ _ => Nat.zero_le _, Nat.zero_le _⟩
    obtain ⟨s', hrun, hinv, -⟩ := materializeBody_inv hc hstart
      (s := ⟨0, 0, 0, []⟩) (by simp) (by simp)
    refine ⟨s', hrun, hinv, ?_⟩
    have hrows := hc.rows
    simp only [left, List.length_drop, length_marked, ChunkedArray.length_front]
    unfold intFuel
    omega
  obtain ⟨s, hrun, hinv, hstop⟩ := doWhile_total (MaterializeInv column bitmap) left hbody hfirst
  exact ⟨s, hrun, hinv, Nat.le_of_not_lt (decide_eq_false_iff_not.mp hstop)⟩

/-- **`materializeColumn` in closed form.** -/
theorem materializeColumn_ok (hc : Countable column bitmap) :
    ∃ data, materializeColumn column bitmap = .ok data ∧ Rechunked bitmap column data := by
  have hrows := hc.rows
  obtain ⟨s, hrun, hinv, hseen⟩ := materializeLoop_ok hc
  have hchunks := hinv.chunks
  have hnil : (marked bitmap column.front).drop s.totalElementsPos = [] :=
    List.drop_eq_nil_of_le (by simpa using hseen)
  rw [if_pos hnil, List.append_nil] at hchunks
  have hsum : (s.newColumn.map (·.length)).sum < 2 ^ 63 := by
    have hlens : s.newColumn.map (·.length) =
        (rechunk chunkSize (marked bitmap column.front)).map List.length := by
      rw [← hchunks, List.map_map]
      exact List.map_congr_left fun a _ => (ArrayData.length_elems a).symm
    rw [hlens, ← List.length_flatten, flatten_rechunk chunkSize_pos]
    have hkept := kept_length_le (marked bitmap column.front)
    simp only [length_marked, ChunkedArray.length_front] at hkept
    omega
  refine ⟨⟨s.newColumn, hsum⟩, ?_, hinv.plain, hchunks⟩
  simp only [materializeColumn, hrun, bind_ok, ChunkedArray.create_ok hsum]

/-! ## What the rows are -/

/-- The rows whose bit is set. -/
def selectedRows (bitmap : Bitmap) (n : Nat) : List Nat := (List.range n).filter bitmap.bit

theorem marked_map {β : Type} (bitmap : Bitmap) (f : α → β) (l : List α) :
    marked bitmap (l.map f) = (marked bitmap l).map fun p => (p.1, f p.2) := by
  apply List.ext_getElem (by simp)
  intro r h1 h2
  simp [marked]

/-- The marked rows are the rows whose bit is set. -/
theorem map_some_kept_marked (bitmap : Bitmap) (l : List α) :
    (kept (marked bitmap l)).map some = (selectedRows bitmap l.length).map (l[·]?) := by
  rw [map_kept, selectedRows, ← kept_zip_map]
  congr 1
  apply List.ext_getElem (by simp [marked])
  intro r h1 h2
  have hr : r < l.length := by simpa using h1
  simp [marked, hr]

theorem chunkSize_eq : chunkSize = 16384 := by decide

/-- The lengths of the output chunks for a column of `n` rows. -/
def outputLens (bitmap : Bitmap) (n : Nat) : List Nat :=
  (rechunk chunkSize (marked bitmap (List.range n))).map List.length

namespace Rechunked

variable {data : ChunkedArray α}

theorem zeroOffset (h : Rechunked bitmap column data) : data.ZeroOffset :=
  fun a ha => (h.plain a ha).1

theorem nullFree (h : Rechunked bitmap column data) : data.NullFree := by
  intro a ha i _
  rw [ArrayData.isValid, (h.plain a ha).2]

theorem chunks_ne_nil (h : Rechunked bitmap column data) : data.chunks ≠ [] := by
  intro hnil
  have hchunks := h.chunks
  rw [hnil] at hchunks
  exact rechunk_ne_nil _ _ hchunks.symm

theorem elems (h : Rechunked bitmap column data) :
    data.elems = kept (marked bitmap column.front) := by
  rw [← flatten_rechunk chunkSize_pos, ← h.chunks, ChunkedArray.elems, List.flatMap_def]

/-- The lengths of the chunks depend on the bitmap and the number of rows alone. -/
theorem lens_eq (h : Rechunked bitmap column data) :
    data.lens = outputLens bitmap column.length := by
  have hlens : data.lens = (rechunk chunkSize (marked bitmap column.front)).map List.length := by
    rw [← h.chunks, List.map_map]
    exact List.map_congr_left fun a _ => (ArrayData.length_elems a).symm
  rw [hlens]
  refine rechunk_shape chunkSize_pos _ _ (List.ext_getElem (by simp) fun r h1 h2 => ?_)
  simp [marked]

/-- The rows of the output are the rows whose bit is set. -/
theorem map_some_elems (h : Rechunked bitmap column data) :
    data.elems.map some = (selectedRows bitmap column.length).map (column.front[·]?) := by
  rw [h.elems, map_some_kept_marked, ChunkedArray.length_front]

theorem length_eq (h : Rechunked bitmap column data) :
    data.length = (selectedRows bitmap column.length).length := by
  have hlen := congrArg List.length h.map_some_elems
  simpa using hlen

end Rechunked

theorem outputLens_lengths (bitmap : Bitmap) (n : Nat) :
    (∀ len ∈ (outputLens bitmap n).dropLast, len = 16384) ∧
      ∀ len ∈ outputLens bitmap n, len ≤ 16384 := by
  obtain ⟨hfull, hle⟩ := rechunk_lengths chunkSize_pos (marked bitmap (List.range n))
  rw [chunkSize_eq] at hfull hle
  constructor
  · intro len hlen
    rw [outputLens, ← List.map_dropLast] at hlen
    obtain ⟨a, ha, rfl⟩ := List.mem_map.mp hlen
    exact hfull a ha
  · intro len hlen
    obtain ⟨a, ha, rfl⟩ := List.mem_map.mp hlen
    exact hle a ha

/-- The rows of a column whose bit is set, in chunks that are full but for the last. -/
structure CompactsTo (bitmap : Bitmap) (column data : ChunkedArray α) : Prop where
  rows : data.cells.map some = (selectedRows bitmap column.length).map (column.cells[·]?)
  chunks_ne_nil : data.chunks ≠ []
  full : ∀ len ∈ data.lens.dropLast, len = 16384
  le : ∀ len ∈ data.lens, len ≤ 16384

/-- Without offsets and nulls the rows as they are read are the rows. -/
theorem Rechunked.compactsTo {data : ChunkedArray α} (h : Rechunked bitmap column data)
    (hzero : column.ZeroOffset) (hnull : column.NullFree) : CompactsTo bitmap column data := by
  obtain ⟨hfull, hle⟩ := outputLens_lengths bitmap column.length
  rw [← h.lens_eq] at hfull hle
  refine ⟨?_, h.chunks_ne_nil, hfull, hle⟩
  have hcells : data.cells = kept (marked bitmap column.cells) := by
    rw [h.nullFree.cells_eq, hnull.cells_eq, h.elems, hzero.front_eq, map_kept, marked_map]
  rw [hcells, map_some_kept_marked, ChunkedArray.length_cells]

end

/-! ## Tables -/

theorem createEmptyChunkMetadata_ok {type : DataType} (h : type.isMaterializable = true) :
    ∃ m, createEmptyChunkMetadata type = .ok m := by
  cases type with
  | integral s w => cases s <;> cases w <;> exact ⟨_, rfl⟩
  | floating w =>
      cases w with
      | half => cases h
      | single => exact ⟨_, rfl⟩
      | double => exact ⟨_, rfl⟩
  | _ => cases h

/-- A column of the output has the marked rows of a column of the input. -/
def RechunkedColumn (bitmap : Bitmap) (c c' : Column) : Prop :=
  ∃ data, c' = { c with data := data } ∧ Rechunked bitmap c.data data

/-- **`materializeFilter` in closed form.** -/
theorem materializeFilter_ok {ctx : ExecutionContext} {bitmap : Bitmap}
    (hbitmap : ctx.filterBitmap = some bitmap)
    (htype : ∀ c ∈ ctx.table.columns, c.type.isMaterializable = true)
    (hcount : ∀ c ∈ ctx.table.columns, Countable c.data bitmap) :
    ∃ out, materializeFilter ctx = .ok out ∧ out.filterBitmap = none ∧
      List.Forall₂ (RechunkedColumn bitmap) ctx.table.columns out.table.columns := by
  have hcolumn : ∀ c ∈ ctx.table.columns, ∃ c', materializeTableColumn bitmap c = .ok c' ∧
      (RechunkedColumn bitmap c c' ∧ c'.type.isMaterializable = true) := by
    intro c hc
    obtain ⟨data, hrun, hdata⟩ := materializeColumn_ok (hcount c hc)
    refine ⟨{ c with data := data }, ?_, ⟨data, rfl, hdata⟩, htype c hc⟩
    simp only [materializeTableColumn, htype c hc, if_true, hrun, bind_ok]
  obtain ⟨newColumns, hmap, hrel⟩ := mapM_ok hcolumn
  obtain ⟨out, hout, htable, hnone⟩ := ExecutionContext.create_ok ⟨newColumns⟩ fun c' hc' => by
    obtain ⟨c, -, -, htype'⟩ := forall₂_mem_right hrel hc'
    exact createEmptyChunkMetadata_ok htype'
  refine ⟨out, ?_, hnone, ?_⟩
  · simp only [materializeFilter, hbitmap, hmap, bind_ok, hout]
  · rw [htable]
    exact hrel.imp fun _ _ h => h.1

/-- A table `materialize_filter` is made for, with a bit for each row. -/
structure Materializable (table : Table) (bitmap : Bitmap) : Prop where
  valid : table.Valid
  rows : table.numRows < 2 ^ 31
  bytes : bytesForBits table.numRows ≤ bitmap.length
  type : ∀ c ∈ table.columns, c.type.isMaterializable = true
  chunks : ∀ c ∈ table.columns, c.data.numChunks < 2 ^ 31
  zeroOffset : ∀ c ∈ table.columns, c.data.ZeroOffset
  nullFree : ∀ c ∈ table.columns, c.data.NullFree

/-- A column of the output is a column of the input with the marked rows. -/
def CompactsColumn (bitmap : Bitmap) (c c' : Column) : Prop :=
  ∃ data, c' = { c with data := data } ∧ CompactsTo bitmap c.data data

/-- **Materializing is exact**: it ends, every column has the marked rows of the input column, in
row order and in chunks that are full but for the last, and all columns are cut at the same rows. -/
theorem materializeFilter_exact {ctx : ExecutionContext} {bitmap : Bitmap}
    (hbitmap : ctx.filterBitmap = some bitmap) (h : Materializable ctx.table bitmap) :
    ∃ out, materializeFilter ctx = .ok out ∧
      List.Forall₂ (CompactsColumn bitmap) ctx.table.columns out.table.columns ∧
      ∃ lens, ∀ c' ∈ out.table.columns, c'.data.lens = lens := by
  obtain ⟨out, hout, -, hrel⟩ := materializeFilter_ok hbitmap h.type fun c hc => by
    have hlen := h.valid c hc
    have hbytes := bytesForBits_le.mp h.bytes
    have hrows := h.rows
    exact ⟨by omega, counted_of_lt (h.chunks c hc), by omega⟩
  refine ⟨out, hout, forall₂_imp_mem hrel fun c c' hc hcol => ?_,
    outputLens bitmap ctx.table.numRows, fun c' hc' => ?_⟩
  · obtain ⟨data, rfl, hdata⟩ := hcol
    exact ⟨data, rfl, hdata.compactsTo (h.zeroOffset c hc) (h.nullFree c hc)⟩
  · obtain ⟨c, hc, data, rfl, hdata⟩ := forall₂_mem_right hrel hc'
    rw [← h.valid c hc]
    exact hdata.lens_eq

/-- Three rows in two columns that are chunked differently. -/
def threeRows : Table :=
  ⟨[⟨"a", .int32, ⟨[.ofList [5#32] (by decide), .ofList [6#32, 7#32] (by decide)], by decide⟩⟩,
    ⟨"b", .uint8, ⟨[.ofList [1#8, 2#8, 3#8] (by decide)], by decide⟩⟩]⟩

theorem materializeFilter_exact_threeRows :
    ∃ out, materializeFilter ⟨threeRows, ⟨[], some [0b10100000#8]⟩⟩ = .ok out ∧
      List.Forall₂ (CompactsColumn [0b10100000#8]) threeRows.columns out.table.columns ∧
      ∃ lens, ∀ c' ∈ out.table.columns, c'.data.lens = lens :=
  materializeFilter_exact rfl
    ⟨by decide, by decide, by decide, by decide, by decide, by decide, by decide⟩

end Pefa
