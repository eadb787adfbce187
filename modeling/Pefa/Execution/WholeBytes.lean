import Pefa.Execution.KernelCalls

/-!
# The whole-byte kernel

One call of `FitlerKernelImpl::execute` on its own. From an element offset below eight it goes
through the whole groups of eight elements and ANDs each byte of the bitmap with the packed
predicates of its group; it changes no other byte, and a second call changes nothing more.

The elements it goes through are those of the value buffer. For an array that is a slice of its
buffer these are other elements than the array's, so the call is exact precisely on arrays that
start at the front of their buffer, and on those too short for a whole group
(`execute_exact_iff`).
-/

namespace Pefa

/-! ## The call in closed form -/

theorem loadElem_mem_innerTrace {base j k : Nat} :
    Access.loadElem k ∈ innerTrace base j ↔ base ≤ k ∧ k < base + j := by
  simp only [innerTrace, List.mem_flatMap, List.mem_range, List.mem_cons, List.not_mem_nil,
    or_false, reduceCtorEq, Access.loadElem.injEq]
  constructor
  · rintro ⟨i, hi, rfl⟩
    omega
  · rintro ⟨hlo, hhi⟩
    exact ⟨k - base, by omega, by omega⟩

/-- `filterFunc` reads the elements it is called for. -/
theorem loadElem_mem_filterTrace {base dest count k : Nat} :
    Access.loadElem k ∈ filterTrace base dest count ↔ base ≤ k ∧ k < base + 8 * count := by
  simp only [filterTrace, List.mem_flatMap, List.mem_range, List.mem_append, List.mem_cons,
    List.not_mem_nil, or_false, reduceCtorEq, loadElem_mem_innerTrace]
  constructor
  · rintro ⟨i, hi, hk⟩
    omega
  · rintro ⟨hlo, hhi⟩
    exact ⟨(k - base) / 8, by omega, by omega⟩

section

variable {field : Field} {kernel : FilterKernel field} {predicate : field.type.CType → Bool}
  {size : Nat}

/-- The byte of the bitmap that the first group of eight elements goes to. -/
def firstByte (byte offset : Nat) : Nat := byte + if offset ≠ 0 then 1 else 0

/-- The groups of eight elements from `offset` on. -/
def groups (array : ArrayData field.type.CType) (offset : Nat) : Nat := (array.length - offset) / 8

/-- **One call is one mask**, of the rows of its whole bytes. -/
theorem execute_ok (hp : kernel.predicate = some predicate) (hsize : ElemSize field.type size)
    {array : ArrayData field.type.CType} {bitmap : Bitmap} {byte offset : Nat}
    (hoffset : offset ≤ 7) (hle : offset ≤ array.length)
    (hbytes : firstByte byte offset + groups array offset ≤ bitmap.length) :
    kernel.execute array bitmap byte offset =
      .ok (bitmap.mask (rangeKeep predicate array.values (8 * firstByte byte offset)
          (8 * groups array offset) offset),
        filterTrace offset (firstByte byte offset) (groups array offset)) := by
  have hbounds := array.inBounds
  have hlt := array.length_lt
  have hptr : 8 * size * offset % 2 ^ 64 / 8 = size * offset := by
    rw [pointer_eq hsize.dvd, elemIndex_of_lt_eight hsize.pos hsize.le (by omega)]
  have hlen : (BitVec.ofNat 64 (sizeSub array.length offset)).toNat / 8 = groups array offset := by
    rw [sizeSub_of_le hle (by omega), BitVec.toNat_ofNat, Nat.mod_eq_of_lt (by omega)]
    rfl
  have hgroups : 8 * groups array offset ≤ array.length - offset := Nat.mul_div_le _ 8
  have hrun := filterFunc_ok predicate array.values bitmap offset (firstByte byte offset)
    hsize.pos hlen (by omega) hbytes
  simp only [FilterKernel.execute, hp, hsize.bitWidth, hptr,
    Nat.mul_div_cancel_left _ (by decide : 0 < 8)]
  exact hrun

/-! ## What one call does -/

/-- A call does what it is for: it succeeds; group `i` goes to byte `i` from the first one on,
which becomes its old value AND the packed predicates of the group; every other byte stays; the
elements of the groups and no others are read, element `k` of the array being the value at
`array.offset + k` of the buffer; and a second call changes nothing. -/
def ExecuteExact (kernel : FilterKernel field) (predicate : field.type.CType → Bool)
    (array : ArrayData field.type.CType) (bitmap : Bitmap) (byte offset : Nat) : Prop :=
  ∃ out trace, kernel.execute array bitmap byte offset = .ok (out, trace) ∧
    (∀ i < groups array offset, out[firstByte byte offset + i]? =
      (bitmap[firstByte byte offset + i]?).map
        (· &&& Bitmap.byteOf fun j => test predicate array.elems (offset + 8 * i + j))) ∧
    (∀ q, ¬ (firstByte byte offset ≤ q ∧ q < firstByte byte offset + groups array offset) →
      out[q]? = bitmap[q]?) ∧
    (∀ k, Access.loadElem k ∈ trace ↔
      array.offset + offset ≤ k ∧ k < array.offset + offset + 8 * groups array offset) ∧
    kernel.execute array out byte offset = .ok (out, trace)

/-- A group of the mask's rows: byte `i` of the call. -/
theorem getElem?_groupMask (values : List field.type.CType) (bitmap : Bitmap)
    {first count offset i : Nat} (hi : i < count) :
    (bitmap.mask (rangeKeep predicate values (8 * first) (8 * count) offset))[first + i]? =
      (bitmap[first + i]?).map
        (· &&& Bitmap.byteOf fun j => test predicate values (offset + 8 * i + j)) := by
  have hbyte : (Bitmap.byteOf fun k =>
      rangeKeep predicate values (8 * first) (8 * count) offset (8 * (first + i) + k)) =
        Bitmap.byteOf fun j => test predicate values (offset + 8 * i + j) := by
    apply Bitmap.byteOf_congr
    intro k hk
    rw [rangeKeep_of_mem predicate values (by omega),
      show offset + (8 * (first + i) + k - 8 * first) = offset + 8 * i + k by omega]
  rw [Bitmap.getElem?_mask, hbyte]

/-- On an array that starts at the front of its buffer, or has no whole group, the elements read
are the array's. -/
theorem execute_exact_of_front (hp : kernel.predicate = some predicate)
    (hsize : ElemSize field.type size) {array : ArrayData field.type.CType} {bitmap : Bitmap}
    {byte offset : Nat} (hoffset : offset ≤ 7) (hle : offset ≤ array.length)
    (hbytes : firstByte byte offset + groups array offset ≤ bitmap.length)
    (hfront : array.offset = 0 ∨ array.length - offset < 8) :
    ExecuteExact kernel predicate array bitmap byte offset := by
  have hgroups : 8 * groups array offset ≤ array.length - offset := Nat.mul_div_le _ 8
  -- there is no offset to forget, or nothing to read
  have hnone : array.offset = 0 ∨ groups array offset = 0 := by
    rcases hfront with h | h
    · exact Or.inl h
    · exact Or.inr (Nat.div_eq_of_lt h)
  refine ⟨_, _, execute_ok hp hsize hoffset hle hbytes, ?_, ?_, ?_, ?_⟩
  · intro i hi
    have hzero : array.offset = 0 := by omega
    have hbyte : (Bitmap.byteOf fun j => test predicate array.elems (offset + 8 * i + j)) =
        Bitmap.byteOf fun j => test predicate array.values (offset + 8 * i + j) := by
      apply Bitmap.byteOf_congr
      intro j hj
      rw [← ArrayData.front_of_offset_zero hzero, test, test, ArrayData.getElem?_front (by omega)]
    rw [getElem?_groupMask array.values bitmap hi, hbyte]
  · intro q hq
    apply Bitmap.getElem?_mask_of_keep
    intro k hk
    exact rangeKeep_of_not_mem predicate array.values (by omega)
  · intro k
    rw [loadElem_mem_filterTrace]
    omega
  · rw [execute_ok hp hsize hoffset hle (by simpa using hbytes), Bitmap.mask_mask]
    simp only [Bool.and_self]

/-- A call on a slice with a whole group reads in front of the slice. -/
theorem ExecuteExact.offset_eq_zero (hp : kernel.predicate = some predicate)
    (hsize : ElemSize field.type size) {array : ArrayData field.type.CType} {bitmap : Bitmap}
    {byte offset : Nat} (hoffset : offset ≤ 7)
    (hbytes : firstByte byte offset + groups array offset ≤ bitmap.length)
    (hlong : 8 ≤ array.length - offset)
    (h : ExecuteExact kernel predicate array bitmap byte offset) : array.offset = 0 := by
  obtain ⟨out, trace, hrun, -, -, hreads, -⟩ := h
  rw [execute_ok hp hsize hoffset (by omega) hbytes] at hrun
  obtain ⟨rfl, rfl⟩ : _ = out ∧ _ = trace := by simpa using hrun
  have hgroups : 1 ≤ groups array offset := by
    unfold groups
    omega
  -- element `offset` of the buffer is read, which is not one of the array if it starts later
  have hread := (hreads offset).mp (loadElem_mem_filterTrace.mpr ⟨le_rfl, by omega⟩)
  omega

end

/-- **The whole-byte kernel is exact on an array if and only if** the array starts at the front of
its buffer or has no whole group of eight elements from the offset on. -/
theorem execute_exact_iff {field : Field} {expr : BooleanExpr} {kernel : FilterKernel field}
    (hcompile : (FilterKernel.createCpu field expr).compile = .ok kernel)
    {predicate : field.type.CType → Bool} (hp : kernel.predicate = some predicate)
    {array : ArrayData field.type.CType} {bitmap : Bitmap} {byte offset : Nat}
    (hoffset : offset ≤ min 7 array.length)
    (hbytes : firstByte byte offset + groups array offset ≤ bitmap.length) :
    ExecuteExact kernel predicate array bitmap byte offset ↔
      array.offset = 0 ∨ array.length - offset < 8 := by
  obtain ⟨⟨type, htype⟩, -⟩ := FilterKernel.compile_eq_ok hcompile
  obtain ⟨size, hsize⟩ := exists_elemSize htype
  constructor
  · intro h
    rcases Nat.lt_or_ge (array.length - offset) 8 with hshort | hlong
    · exact Or.inr hshort
    · exact Or.inl (h.offset_eq_zero hp hsize (by omega) hbytes hlong)
  · exact execute_exact_of_front hp hsize (by omega) (by omega) hbytes

/-- Nine bytes, and the slice of the last eight. -/
def lastEight : ArrayData (BitVec 8) where
  values := [1#8, 2#8, 3#8, 4#8, 5#8, 6#8, 7#8, 8#8, 9#8]
  offset := 1
  length := 8
  validity := none
  inBounds := by decide
  length_lt := by norm_num

/-- The kernel of `a > 4`. -/
def aboveFour : FilterKernel ⟨"a", .int8⟩ :=
  ⟨(col "a").gt (lit 4), some fun x => CompareOp.gt.compare .int8 x (lit 4)⟩

theorem compile_aboveFour :
    (FilterKernel.createCpu ⟨"a", .int8⟩ ((col "a").gt (lit 4))).compile = .ok aboveFour :=
  FilterKernel.compile_compare .gt rfl (by decide)

/-- On a slice the kernel reads the element in front of it. -/
theorem execute_not_exact_lastEight :
    ¬ ExecuteExact aboveFour (fun x => CompareOp.gt.compare .int8 x (lit 4)) lastEight
      [255#8] 0 0 := by
  intro h
  have hzero : lastEight.offset = 0 :=
    h.offset_eq_zero rfl (elemSize_integral true .w8) (by decide) (by decide) (by decide)
  exact absurd hzero (by decide)

theorem execute_exact_iff_lastEight :
    ExecuteExact aboveFour (fun x => CompareOp.gt.compare .int8 x (lit 4)) lastEight [255#8] 0 0 ↔
      lastEight.offset = 0 ∨ lastEight.length - 0 < 8 :=
  execute_exact_iff compile_aboveFour rfl (by decide) (by decide)

end Pefa
