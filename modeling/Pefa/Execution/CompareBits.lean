import Pefa.Execution.KernelCalls

/-!
# The bits of a comparison

After all the kernel calls of a comparison the bit of a row says what the predicate says of one
element (`rowTest`), with two exceptions. The rows of a shared head are looked at only as far as
the length of the chunk modulo 256 reaches; the bits of the others stay set. And in a chunk of
`2 ^ 61` bytes or more the pointer to the tail wraps, so the tail is decided by other elements.

`compare_exact_iff` says when this is the comparison of every row.
-/

namespace Pefa

open Blocks

section

variable {field : Field} {predicate : field.type.CType → Bool} {size : Nat}
  {column : ChunkedArray field.type.CType} {chunk : ArrayData field.type.CType} {i j : Nat}

/-- What the bit of row `j` says, in a chunk of `len` rows that starts at row `s`. -/
def rowTest {α : Type} (predicate : α → Bool) (values : List α) (size s len j : Nat) : Bool :=
  if j < headRows s then decide (headCount s len ≤ j) || test predicate values j
  else if j < len - (s + len) % 8 then test predicate values j
  else test predicate values (tailBase size s len + (j - (len - (s + len) % 8)))

/-- A call for one chunk keeps the rows of the others. -/
theorem callKeep_of_other {r : Nat} (hi : column.chunks[i]? = some chunk)
    (hhead : headRows (start column.lens i) ≤ chunk.length)
    (hr : ¬ (start column.lens i ≤ r ∧ r < start column.lens i + chunk.length))
    {call : KernelCall}
    (hcase : call = wholeCall i (start column.lens i) ∨
      start column.lens i % 8 ≠ 0 ∧ call = headCall i (start column.lens i) ∨
      (start column.lens i + chunk.length) % 8 ≠ 0 ∧
        call = tailCall i (start column.lens i) chunk.length) :
    callKeep predicate size column call r = true := by
  have hwhole := whole_add_tail hhead
  rcases hcase with rfl | ⟨hs, rfl⟩ | ⟨-, rfl⟩
  · rw [callKeep_whole hi]
    exact rangeKeep_of_not_mem _ _ (by omega)
  · have hcount : headCount (start column.lens i) chunk.length ≤ headRows (start column.lens i) :=
      Nat.min_le_left _ _
    rw [callKeep_head hi hs]
    exact rangeKeep_of_not_mem _ _ (by omega)
  · rw [callKeep_tail hi hhead]
    exact rangeKeep_of_not_mem _ _ (by omega)

/-- A row is kept by all calls if the calls of its chunk keep it. -/
theorem all_callKeep_iff (hcov : CoversHead column.lens) (hi : column.chunks[i]? = some chunk)
    (hj : j < chunk.length) {s : Nat} (hs : start column.lens i = s) :
    ((kernelCalls column.lens).all fun call =>
        callKeep predicate size column call (s + j)) = true ↔
      callKeep predicate size column (wholeCall i s) (s + j) = true ∧
      (s % 8 ≠ 0 → callKeep predicate size column (headCall i s) (s + j) = true) ∧
      ((s + chunk.length) % 8 ≠ 0 →
        callKeep predicate size column (tailCall i s chunk.length) (s + j) = true) := by
  have hlen := ChunkedArray.lens_getElem? hi
  rw [List.all_eq_true]
  constructor
  · intro h
    refine ⟨h _ ?_, fun hne => h _ ?_, fun hne => h _ ?_⟩
    · exact mem_kernelCalls.mpr ⟨i, _, hlen, Or.inl (by rw [hs])⟩
    · exact mem_kernelCalls.mpr ⟨i, _, hlen, Or.inr (Or.inl (by rw [hs]; exact ⟨hne, rfl⟩))⟩
    · exact mem_kernelCalls.mpr ⟨i, _, hlen, Or.inr (Or.inr (by rw [hs]; exact ⟨hne, rfl⟩))⟩
  · rintro ⟨hw, hh, ht⟩ call hcall
    obtain ⟨k, len, hk, hcase⟩ := mem_kernelCalls.mp hcall
    by_cases hki : k = i
    · subst hki
      obtain rfl : len = chunk.length := Option.some.inj (hk.symm.trans hlen)
      rw [hs] at hcase
      rcases hcase with rfl | ⟨hne, rfl⟩ | ⟨hne, rfl⟩
      · exact hw
      · exact hh hne
      · exact ht hne
    · -- a call of another chunk
      obtain ⟨c, hc, rfl⟩ := ChunkedArray.getElem?_lens hk
      apply callKeep_of_other hc (hcov k _ hk) (fun hr => hki ?_) hcase
      exact block_unique hk hr.1 hr.2 hlen (by omega) (by omega)

section Rows

variable {s : Nat} (hi : column.chunks[i]? = some chunk)
include hi

/-- The call for the whole bytes, on a row of its chunk. -/
theorem callKeep_whole_row (hhead : headRows s ≤ chunk.length) :
    callKeep predicate size column (wholeCall i s) (s + j) =
      if headRows s ≤ j ∧ j < chunk.length - (s + chunk.length) % 8 then
        test predicate chunk.values j
      else true := by
  have hwhole := whole_add_tail hhead
  rw [callKeep_whole hi]
  split
  · rw [rangeKeep_of_mem _ _ (by omega), show headRows s + (s + j - (s + headRows s)) = j by omega]
  · exact rangeKeep_of_not_mem _ _ (by omega)

/-- The call for the head. -/
theorem callKeep_head_row (hs : s % 8 ≠ 0) :
    callKeep predicate size column (headCall i s) (s + j) =
      if j < headRows s then
        decide (headCount s chunk.length ≤ j) || test predicate chunk.values j
      else true := by
  have hcount : headCount s chunk.length ≤ headRows s := Nat.min_le_left _ _
  rw [callKeep_head hi hs]
  split
  · by_cases hreached : j < headCount s chunk.length
    · rw [rangeKeep_of_mem _ _ (by omega), decide_eq_false (by omega), Bool.false_or,
        show 0 + (s + j - s) = j by omega]
    · rw [rangeKeep_of_not_mem _ _ (by omega), decide_eq_true (by omega), Bool.true_or]
  · exact rangeKeep_of_not_mem _ _ (by omega)

/-- The call for the tail. -/
theorem callKeep_tail_row (hhead : headRows s ≤ chunk.length) (hj : j < chunk.length) :
    callKeep predicate size column (tailCall i s chunk.length) (s + j) =
      if chunk.length - (s + chunk.length) % 8 ≤ j then
        test predicate chunk.values
          (tailBase size s chunk.length + (j - (chunk.length - (s + chunk.length) % 8)))
      else true := by
  rw [callKeep_tail hi hhead]
  split
  · rw [rangeKeep_of_mem _ _ (by omega),
      show s + j - (s + (chunk.length - (s + chunk.length) % 8)) =
        j - (chunk.length - (s + chunk.length) % 8) by omega]
  · exact rangeKeep_of_not_mem _ _ (by omega)

end Rows

/-- **All calls together** keep the rows that pass their test. -/
theorem all_callKeep (hcov : CoversHead column.lens) (hi : column.chunks[i]? = some chunk)
    (hj : j < chunk.length) :
    ((kernelCalls column.lens).all fun call =>
        callKeep predicate size column call (start column.lens i + j)) =
      rowTest predicate chunk.values size (start column.lens i) chunk.length j := by
  have hhead := hcov i chunk.length (ChunkedArray.lens_getElem? hi)
  rw [Bool.eq_iff_iff, all_callKeep_iff hcov hi hj rfl]
  generalize start column.lens i = s at *
  have hwhole := whole_add_tail hhead
  rw [rowTest, callKeep_whole_row hi hhead, callKeep_tail_row hi hhead hj]
  by_cases hhd : j < headRows s
  · -- a row of the shared head
    have hne : s % 8 ≠ 0 := by
      unfold headRows at hhd
      omega
    rw [if_neg (by omega), if_neg (by omega), if_pos hhd, callKeep_head_row hi hne, if_pos hhd]
    exact ⟨fun h => h.2.1 hne, fun h => ⟨rfl, fun _ => h, fun _ => rfl⟩⟩
  · have hh : s % 8 ≠ 0 → callKeep predicate size column (headCall i s) (s + j) = true := by
      intro hne
      rw [callKeep_head_row hi hne, if_neg hhd]
    rw [if_neg hhd]
    by_cases htl : j < chunk.length - (s + chunk.length) % 8
    · -- a row of a whole byte
      rw [if_pos (by omega), if_neg (by omega), if_pos htl]
      exact ⟨fun h => h.1, fun h => ⟨h, hh, fun _ => rfl⟩⟩
    · -- a row of the shared tail
      have hne : (s + chunk.length) % 8 ≠ 0 := by omega
      rw [if_neg (by omega), if_pos (by omega), if_neg htl]
      exact ⟨fun h => h.2.2 hne, fun h => ⟨rfl, hh, fun _ => h⟩⟩

/-- A short chunk's rows are tested each on its own element. -/
theorem rowTest_eq {α : Type} {predicate : α → Bool} {values : List α} {size s len j : Nat}
    (hpos : 0 < size) (hle : size ≤ 8) (hhead : headRows s ≤ len % 256) (hlen : len < 2 ^ 58) :
    rowTest predicate values size s len j = test predicate values j := by
  have hcount : headCount s len = headRows s := Nat.min_eq_left hhead
  have htail : tailBase size s len = len - (s + len) % 8 := by
    have h8 : 2 ^ 61 / 8 ≤ 2 ^ 61 / size := Nat.div_le_div_left hle hpos
    exact elemIndex_of_lt (by omega)
  unfold rowTest
  rw [hcount, htail]
  split
  · next h => rw [decide_eq_false (by omega), Bool.false_or]
  · split
    · rfl
    · rw [show len - (s + len) % 8 + (j - (len - (s + len) % 8)) = j by omega]

/-- **The bits of a column after all the calls.** -/
theorem runCalls_bit (kernel : FilterKernel field) (column : ChunkedArray field.type.CType)
    (hp : kernel.predicate = some predicate) (hsize : ElemSize field.type size)
    (hcov : CoversHead column.lens) {bitmap : Bitmap} (hbytes : column.length ≤ 8 * bitmap.length) :
    ∃ out, runCalls kernel column (kernelCalls column.lens) bitmap = .ok out ∧
      out.length = bitmap.length ∧
      ∀ i chunk j, column.chunks[i]? = some chunk → j < chunk.length →
        out.bit (start column.lens i + j) = (bitmap.bit (start column.lens i + j) &&
          rowTest predicate chunk.values size (start column.lens i) chunk.length j) := by
  refine ⟨_, runCalls_eq_foldl hp hsize hcov (fun _ h => h) hbytes, ?_, ?_⟩
  · rw [Bitmap.foldl_mask, Bitmap.length_mask]
  · intro i chunk j hi hj
    have hend := start_add_le_sum (ChunkedArray.lens_getElem? hi)
    have hr : start column.lens i + j < 8 * bitmap.length := by
      have : column.lens.sum = column.length := rfl
      omega
    rw [Bitmap.foldl_mask, Bitmap.bit_mask hr, ← all_callKeep hcov hi hj, List.all_map]
    rfl

end

/-! ## The buffer of a comparison -/

theorem elemSize_of_fits {l : LiteralExpr} {type : DataType} (h : l.Fits type) :
    ElemSize type type.byteWidth := by
  obtain ⟨s, w, val, rfl, -, -⟩ := h.isIntegral
  have hw : (DataType.integral s w).byteWidth = w.bytes :=
    Nat.mul_div_cancel_left _ (by decide)
  rw [hw]
  exact elemSize_integral s w

/-- **The buffer of a comparison**, row by row, for the predicate that its kernel has. -/
theorem compareBuffer_compiled {table : Table} {c : Column} {lhs : ColumnRef} {l : LiteralExpr}
    {op : CompareOp} {predicate : c.type.CType → Bool} {size : Nat}
    (hcol : table.getColumnByName lhs.name = some c)
    (hcompile : (FilterKernel.createCpu c.field (.compareExpr lhs l op)).compile =
      .ok ⟨.compareExpr lhs l op, some predicate⟩)
    (hsize : ElemSize c.type size) (hrows : table.numRows = c.data.length)
    (hcov : CoversHead c.data.lens) :
    ∃ buffer, compareBuffer table lhs l op = .ok buffer ∧
      buffer.length = bytesForBits table.numRows ∧
      ∀ i chunk j, c.data.chunks[i]? = some chunk → j < chunk.length →
        buffer.bit (start c.data.lens i + j) =
          rowTest predicate chunk.values size (start c.data.lens i) chunk.length j := by
  have hfull : c.data.length ≤ 8 * (allocateFullBitmap table.numRows).length := by
    rw [allocateFullBitmap, Bitmap.length_ones, hrows]
    exact bytesForBits_le.mp (Nat.le_refl _)
  let kernel : FilterKernel c.field := ⟨.compareExpr lhs l op, some predicate⟩
  obtain ⟨out, hrun, hlen, hbits⟩ := runCalls_bit kernel c.data rfl hsize hcov hfull
  refine ⟨out, ?_, by rw [hlen]; exact Bitmap.length_ones _, fun i chunk j hi hj => ?_⟩
  · simp only [compareBuffer, hcol, hcompile, bind_ok]
    exact hrun
  · have hend := start_add_le_sum (ChunkedArray.lens_getElem? hi)
    have hr : start c.data.lens i + j < 8 * bytesForBits table.numRows := by
      rw [allocateFullBitmap, Bitmap.length_ones] at hfull
      have : c.data.lens.sum = c.data.length := rfl
      omega
    rw [hbits i chunk j hi hj, allocateFullBitmap, Bitmap.bit_ones hr, Bool.true_and]

/-- The buffer of a comparison with a literal that fits. -/
theorem compareBuffer_ok {table : Table} {c : Column} {lhs : ColumnRef} {l : LiteralExpr}
    (op : CompareOp) (hcol : table.getColumnByName lhs.name = some c) (hfits : l.Fits c.type)
    (hrows : table.numRows = c.data.length) (hcov : CoversHead c.data.lens) :
    ∃ buffer, compareBuffer table lhs l op = .ok buffer ∧
      buffer.length = bytesForBits table.numRows ∧
      ∀ i chunk j, c.data.chunks[i]? = some chunk → j < chunk.length →
        buffer.bit (start c.data.lens i + j) =
          rowTest (fun x => op.compare c.type x l) chunk.values c.type.byteWidth
            (start c.data.lens i) chunk.length j := by
  have hname : lhs.name = c.field.name := (Table.getColumnByName_mem hcol).2.symm
  exact compareBuffer_compiled hcol (FilterKernel.compile_compare op hname hfits)
    (elemSize_of_fits hfits) hrows hcov

/-! ## When the buffer is exact -/

/-- The bit of every row says whether the row's value passes the comparison. -/
def CompareExact (table : Table) (c : Column) (lhs : ColumnRef) (l : LiteralExpr) (op : CompareOp)
    (s : FilterExprExecutor) : Prop :=
  ∃ s' buffer, FilterExprExecutor.visit table (.compareExpr lhs l op) s = .ok s' ∧
    s'.result = some buffer ∧
    ∀ r x, c.data.elems[r]? = some x → buffer.bit r = op.compare c.type x l

/-- The rows of a shared head that the length of the chunk modulo 256 does not reach pass the
comparison. -/
def HeadRowsPass (c : Column) (l : LiteralExpr) (op : CompareOp) : Prop :=
  ∀ (i : Nat) (chunk : ArrayData c.type.CType), c.data.chunks[i]? = some chunk →
    ∀ j x, chunk.length % 256 ≤ j → j < headRows (start c.data.lens i) →
      chunk.elems[j]? = some x → op.compare c.type x l = true

/-- In a chunk so long that the pointer to the tail wraps, the elements it points to compare as
those of the tail do. -/
def TailRowsAgree (c : Column) (l : LiteralExpr) (op : CompareOp) : Prop :=
  ∀ (i : Nat) (chunk : ArrayData c.type.CType), c.data.chunks[i]? = some chunk →
    ∀ k x y, k < (start c.data.lens i + chunk.length) % 8 →
      chunk.elems[tailBase c.type.byteWidth (start c.data.lens i) chunk.length + k]? = some x →
      chunk.elems[chunk.length - (start c.data.lens i + chunk.length) % 8 + k]? = some y →
      op.compare c.type x l = op.compare c.type y l

theorem visit_compareExpr {table : Table} {lhs : ColumnRef} {l : LiteralExpr} {op : CompareOp}
    {buffer : Bitmap} (h : compareBuffer table lhs l op = .ok buffer) (s : FilterExprExecutor) :
    FilterExprExecutor.visit table (.compareExpr lhs l op) s =
      .ok ⟨s.buffers ++ [buffer], some s.buffers.length⟩ := by
  simp only [FilterExprExecutor.visit, h, bind_ok]

theorem result_append (buffers : List Bitmap) (buffer : Bitmap) :
    FilterExprExecutor.result ⟨buffers ++ [buffer], some buffers.length⟩ = some buffer := by
  simp [FilterExprExecutor.result]

/-- In chunks of eight rows and more no chunk lies inside one byte. -/
theorem coversHead_of_eight_le {lens : List Nat} (h : ∀ len ∈ lens, 8 ≤ len) :
    CoversHead lens := by
  intro i len hi
  have h8 := h len (List.mem_of_getElem? hi)
  have hh := headRows_lt (start lens i)
  omega

/-- The value at an index of a chunk that starts at the front of its buffer. -/
theorem elems_getElem? {α : Type} {a : ArrayData α} (h0 : a.offset = 0) {j : Nat}
    (hj : j < a.length) : ∃ x, a.elems[j]? = some x ∧ a.values[j]? = some x := by
  obtain ⟨x, hx⟩ := ArrayData.getElem?_values hj
  refine ⟨x, ?_, hx⟩
  rw [← ArrayData.front_of_offset_zero h0, ArrayData.getElem?_front hj, hx]

/-- When the rows of one chunk are all tested as they should be. -/
theorem rowTest_exact_iff {α : Type} (p : α → Bool) {chunk : ArrayData α} (size s : Nat)
    (h0 : chunk.offset = 0) (hhead : headRows s ≤ chunk.length) :
    (∀ j x, chunk.elems[j]? = some x →
        rowTest p chunk.values size s chunk.length j = p x) ↔
      (∀ j x, chunk.length % 256 ≤ j → j < headRows s → chunk.elems[j]? = some x → p x = true) ∧
      ∀ k x y, k < (s + chunk.length) % 8 →
        chunk.elems[tailBase size s chunk.length + k]? = some x →
        chunk.elems[chunk.length - (s + chunk.length) % 8 + k]? = some y → p x = p y := by
  have hwhole := whole_add_tail hhead
  have htest : ∀ {j x}, chunk.elems[j]? = some x → test p chunk.values j = p x := by
    intro j x hx
    have hlen := (List.getElem?_eq_some_iff.mp hx).1
    rw [ArrayData.length_elems] at hlen
    rw [← ArrayData.front_of_offset_zero h0, ArrayData.getElem?_front hlen] at hx
    exact test_of_getElem? _ hx
  constructor
  · intro hexact
    refine ⟨fun j x hlo hj hx => ?_, fun k x y hk hx hy => ?_⟩
    · -- the bit of a row that is not looked at is set
      have hcount : headCount s chunk.length ≤ j := le_trans (Nat.min_le_right _ _) hlo
      rw [← hexact j x hx, rowTest, if_pos hj, decide_eq_true hcount, Bool.true_or]
    · -- the bit of a row of the tail says what the pointer finds
      rw [← hexact _ y hy, rowTest, if_neg (by omega), if_neg (by omega), Nat.add_sub_cancel_left,
        htest hx]
  · rintro ⟨hpass, hagree⟩ j x hx
    have hj : j < chunk.length := by simpa using (List.getElem?_eq_some_iff.mp hx).1
    rw [rowTest]
    split
    · next hlt =>
        rw [htest hx]
        by_cases hcount : headCount s chunk.length ≤ j
        · have hmod : chunk.length % 256 ≤ j := by
            unfold headCount at hcount
            omega
          rw [decide_eq_true hcount, Bool.true_or, hpass j x hmod hlt hx]
        · rw [decide_eq_false hcount, Bool.false_or]
    · split
      · exact htest hx
      · next hge htail =>
          obtain ⟨k, rfl⟩ : ∃ k, j = chunk.length - (s + chunk.length) % 8 + k :=
            ⟨j - (chunk.length - (s + chunk.length) % 8), by omega⟩
          have hbase : tailBase size s chunk.length ≤ chunk.length - (s + chunk.length) % 8 :=
            elemIndex_le _ _
          obtain ⟨y, hy, -⟩ := elems_getElem? h0
            (show tailBase size s chunk.length + k < chunk.length by omega)
          rw [Nat.add_sub_cancel_left, htest hy]
          exact hagree k y x (by omega) hy hx

/-- **When the bitmap of a comparison is exact**, in chunks of eight rows and more: the rows of
shared heads that are never looked at have to pass, and where the pointer to a tail wraps, what it
finds there has to agree with the tail. -/
theorem compare_exact_iff {table : Table} {c : Column} {lhs : ColumnRef} {l : LiteralExpr}
    {op : CompareOp} (hvalid : table.Valid) (hcol : table.getColumnByName lhs.name = some c)
    (hfits : l.Fits c.type) (hzero : c.data.ZeroOffset) (hlens : ∀ len ∈ c.data.lens, 8 ≤ len)
    (s : FilterExprExecutor) :
    CompareExact table c lhs l op s ↔ HeadRowsPass c l op ∧ TailRowsAgree c l op := by
  have hrows : table.numRows = c.data.length := (hvalid c (Table.getColumnByName_mem hcol).1).symm
  have hcov := coversHead_of_eight_le hlens
  obtain ⟨buffer, hbuffer, -, hbits⟩ := compareBuffer_ok op hcol hfits hrows hcov
  -- in each chunk
  have hchunk := fun i chunk (hi : c.data.chunks[i]? = some chunk) =>
    rowTest_exact_iff (fun x => op.compare c.type x l) c.type.byteWidth (start c.data.lens i)
      (hzero _ (List.mem_of_getElem? hi)) (hcov i _ (ChunkedArray.lens_getElem? hi))
  constructor
  · rintro ⟨s', buffer', hvisit, hresult, hexact⟩
    rw [visit_compareExpr hbuffer s] at hvisit
    cases hvisit
    obtain rfl : buffer = buffer' := by simpa [result_append] using hresult
    have hrow : ∀ i chunk, c.data.chunks[i]? = some chunk → ∀ j x, chunk.elems[j]? = some x →
        rowTest (fun x => op.compare c.type x l) chunk.values c.type.byteWidth
          (start c.data.lens i) chunk.length j = op.compare c.type x l := by
      intro i chunk hi j x hx
      have hlen : j < chunk.length := by simpa using (List.getElem?_eq_some_iff.mp hx).1
      rw [← ChunkedArray.getElem?_elems hi hlen] at hx
      rw [← hexact _ x hx, hbits i chunk j hi hlen]
    exact ⟨fun i chunk hi => ((hchunk i chunk hi).mp (hrow i chunk hi)).1,
      fun i chunk hi => ((hchunk i chunk hi).mp (hrow i chunk hi)).2⟩
  · rintro ⟨hpass, hagree⟩
    refine ⟨_, buffer, visit_compareExpr hbuffer s, result_append _ _, fun r x hx => ?_⟩
    have hr : r < c.data.length := by simpa using (List.getElem?_eq_some_iff.mp hx).1
    obtain ⟨i, chunk, j, hi, hj, rfl⟩ := ChunkedArray.exists_chunk hr
    rw [ChunkedArray.getElem?_elems hi hj] at hx
    rw [hbits i chunk j hi hj]
    exact (hchunk i chunk hi).mpr ⟨hpass i chunk hi, hagree i chunk hi⟩ j x hx

/-- An `int32` column of nine fives and 256 zeros, in two chunks. -/
def nineAnd256 : Column where
  name := "a"
  type := .int32
  data := ⟨[.replicate 9 5#32 (by decide), .replicate 256 0#32 (by decide)], by decide⟩

/-- The second chunk starts at row 9 and 256 is 0 modulo 256, so the rows 9 to 15 are not looked
at: `a > 0` is false of them and their bits are set. -/
theorem compare_not_exact_nineAnd256 :
    ¬ CompareExact ⟨[nineAnd256]⟩ nineAnd256 (col "a") (lit 0) .gt ⟨[], none⟩ := by
  rintro ⟨s', buffer', hvisit, hresult, hexact⟩
  have hcol : Table.getColumnByName ⟨[nineAnd256]⟩ (col "a").name = some nineAnd256 := rfl
  have hfits : (lit 0).Fits nineAnd256.type := by decide
  obtain ⟨buffer, hbuffer, -, hbits⟩ := compareBuffer_ok .gt hcol hfits rfl (by decide)
  rw [visit_compareExpr hbuffer] at hvisit
  cases hvisit
  obtain rfl : buffer = buffer' := Option.some.inj hresult
  have hset : buffer.bit 9 = true := hbits 1 _ 0 rfl (by decide)
  have hclear : buffer.bit 9 = false := hexact 9 0#32 rfl
  rw [hset] at hclear
  cases hclear

theorem compare_exact_iff_nineAnd256 :
    CompareExact ⟨[nineAnd256]⟩ nineAnd256 (col "a") (lit 0) .gt ⟨[], none⟩ ↔
      HeadRowsPass nineAnd256 (lit 0) .gt ∧ TailRowsAgree nineAnd256 (lit 0) .gt :=
  compare_exact_iff (by decide) rfl (by decide) (by decide) (by decide) _

end Pefa
