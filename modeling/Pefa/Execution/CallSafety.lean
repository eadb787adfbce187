import Pefa.Execution.KernelCalls

/-!
# What the kernel calls touch

Two questions about the calls of a comparison, both about the accesses a call makes.

Which layouts keep every call inside its chunk and its bitmap? Exactly those in which a chunk that
starts inside a byte reaches the end of it (`calls_safe_iff`): for a shorter chunk the offset of
the first call lies past the chunk's end.

On such a layout, which calls may be reordered? All of them (`calls_any_order`): the calls for
whole bytes write bytes that no other call writes, and calls that share a byte only clear bits
of it.
-/

namespace Pefa

open Blocks

/-! ## Safe calls -/

namespace KernelCall

/-- The chunk a call is for. -/
def chunk : KernelCall → Nat
  | .execute chunk _ _ => chunk
  | .executeRemaining chunk _ _ _ => chunk

/-- The offset of the first element, as passed. -/
def offset : KernelCall → Nat
  | .execute _ _ offset => offset
  | .executeRemaining _ _ arrayOffset _ => arrayOffset

/-- The length handed to the generated loop, as the loop reads it, for a chunk of `len` rows. -/
def loopLength (len : Nat) : KernelCall → Int
  | .execute _ _ offset => (BitVec.ofNat 64 (sizeSub len offset)).toInt
  | .executeRemaining _ _ arrayOffset bitOffset =>
      (FilterKernel.remainingLen len arrayOffset bitOffset).toInt

def IsExecute : KernelCall → Prop
  | .execute _ _ _ => True
  | .executeRemaining _ _ _ _ => False

end KernelCall

/-- An access stays inside a chunk of `len` elements, a bitmap of `bytes` bytes and a byte. -/
def Access.InRange (len bytes : Nat) : Access → Prop
  | .loadElem index => index < len
  | .loadByte index => index < bytes
  | .storeByte index => index < bytes
  | .shift amount => amount < 8

section

variable {field : Field}

/-- A call that stays inside its chunk and its bitmap. Elements are counted from the front of the
value buffer, where the pointer that is passed points to; the offset of a slice is not
considered. -/
structure CallSafe (kernel : FilterKernel field) (column : ChunkedArray field.type.CType)
    (bitmap : Bitmap) (call : KernelCall) (chunk : ArrayData field.type.CType) : Prop where
  offset_le : call.offset ≤ chunk.length
  loopLength_nonneg : 0 ≤ call.loopLength chunk.length
  loopLength_le : call.loopLength chunk.length ≤ chunk.length - call.offset
  inRange : ∃ out trace, runCall kernel column bitmap call = .ok (out, trace) ∧
    ∀ a ∈ trace, a.InRange chunk.length bitmap.length

end

/-! ## The accesses of the loops -/

theorem mem_innerTrace {base j : Nat} {a : Access} (h : a ∈ innerTrace base j) :
    (∃ k < j, a = .loadElem (base + k)) ∨ ∃ k < j, a = .shift (7 - k) := by
  simp only [innerTrace, List.mem_flatMap, List.mem_range, List.mem_cons, List.not_mem_nil,
    or_false] at h
  obtain ⟨k, hk, rfl | rfl⟩ := h
  · exact Or.inl ⟨k, hk, rfl⟩
  · exact Or.inr ⟨k, hk, rfl⟩

theorem filterTrace_inRange {base dest count len bytes : Nat} (hlen : base + 8 * count ≤ len)
    (hbytes : dest + count ≤ bytes) :
    ∀ a ∈ filterTrace base dest count, a.InRange len bytes := by
  intro a ha
  simp only [filterTrace, List.mem_flatMap, List.mem_range, List.mem_append, List.mem_cons,
    List.not_mem_nil, or_false] at ha
  obtain ⟨i, hi, hinner | rfl | rfl⟩ := ha
  · rcases mem_innerTrace hinner with ⟨k, hk, rfl⟩ | ⟨k, hk, rfl⟩
    · show base + 8 * i + k < len
      omega
    · show 7 - k < 8
      omega
  · show dest + i < bytes
    omega
  · show dest + i < bytes
    omega

theorem remainingTrace_inRange {base dest bitOffset count len bytes : Nat}
    (hlen : base + count ≤ len) (hbytes : count = 0 ∨ dest < bytes) :
    ∀ a ∈ remainingTrace base dest bitOffset count, a.InRange len bytes := by
  intro a ha
  simp only [remainingTrace, List.mem_flatMap, List.mem_range, List.mem_cons, List.not_mem_nil,
    or_false] at ha
  obtain ⟨i, hi, rfl | rfl | rfl | rfl⟩ := ha
  · show base + i < len
    omega
  · show 7 - (i + bitOffset) < 8
    omega
  · show dest < bytes
    omega
  · show dest < bytes
    omega

/-- `filterFunc` writes the bytes it is called for. -/
theorem storeByte_mem_filterTrace {base dest count b : Nat}
    (h : Access.storeByte b ∈ filterTrace base dest count) : dest ≤ b ∧ b < dest + count := by
  simp only [filterTrace, List.mem_flatMap, List.mem_range, List.mem_append, List.mem_cons,
    List.not_mem_nil, or_false] at h
  obtain ⟨i, hi, hinner | hload | hstore⟩ := h
  · rcases mem_innerTrace hinner with ⟨k, -, hk⟩ | ⟨k, -, hk⟩ <;> cases hk
  · cases hload
  · cases hstore
    omega

/-- `filterRemainingFunc` writes one byte. -/
theorem storeByte_mem_remainingTrace {base dest bitOffset count b : Nat}
    (h : Access.storeByte b ∈ remainingTrace base dest bitOffset count) : b = dest := by
  simp only [remainingTrace, List.mem_flatMap, List.mem_range, List.mem_cons, List.not_mem_nil,
    or_false] at h
  obtain ⟨i, -, ha | ha | ha | ha⟩ := h <;> cases ha
  rfl

/-! ## Which layouts are safe -/

section

variable {field : Field} {kernel : FilterKernel field} {column : ChunkedArray field.type.CType}
  {chunk : ArrayData field.type.CType} {bitmap : Bitmap} {i s : Nat}

variable {predicate : field.type.CType → Bool} {size : Nat}

theorem callSafe_whole (hp : kernel.predicate = some predicate) (hsize : ElemSize field.type size)
    (hi : column.chunks[i]? = some chunk) (hhead : headRows s ≤ chunk.length)
    (hbytes : s + chunk.length ≤ 8 * bitmap.length) :
    CallSafe kernel column bitmap (wholeCall i s) chunk := by
  have hlt := chunk.length_lt
  have hdest := headRows_dest s
  have hlen : (wholeCall i s).loopLength chunk.length = (chunk.length - headRows s : Nat) := by
    rw [wholeCall, KernelCall.loopLength, sizeSub_of_le hhead (by omega), toInt_ofNat (by omega)]
  refine ⟨hhead, by omega, ?_, _, _, runCall_whole hp hsize hi hhead hbytes,
    filterTrace_inRange (by omega) (by omega)⟩
  rw [hlen]
  show ((chunk.length - headRows s : Nat) : Int) ≤ chunk.length - headRows s
  omega

theorem callSafe_head (hp : kernel.predicate = some predicate) (hsize : ElemSize field.type size)
    (hi : column.chunks[i]? = some chunk) (hs : s % 8 ≠ 0) (hhead : headRows s ≤ chunk.length)
    (hbytes : s + chunk.length ≤ 8 * bitmap.length) :
    CallSafe kernel column bitmap (headCall i s) chunk := by
  have hh := headRows_of_ne hs
  have hc : headCount s chunk.length ≤ headRows s := Nat.min_le_left _ _
  have hlen : (headCall i s).loopLength chunk.length = headCount s chunk.length := by
    rw [headCall, KernelCall.loopLength, remainingLen_head hs chunk.length_lt,
      toInt_ofNat (by omega)]
  refine ⟨Nat.zero_le _, by omega, ?_, _, _, runCall_head hp hsize hi hs hhead hbytes,
    remainingTrace_inRange (by omega) (by omega)⟩
  rw [hlen]
  show (headCount s chunk.length : Int) ≤ chunk.length - (0 : Nat)
  omega

theorem callSafe_tail (hp : kernel.predicate = some predicate) (hsize : ElemSize field.type size)
    (hi : column.chunks[i]? = some chunk) (hhead : headRows s ≤ chunk.length)
    (hbytes : s + chunk.length ≤ 8 * bitmap.length) :
    CallSafe kernel column bitmap (tailCall i s chunk.length) chunk := by
  have hlt := chunk.length_lt
  have htail := tail_le_of_covers hhead
  have hbase : tailBase size s chunk.length ≤ chunk.length - (s + chunk.length) % 8 :=
    elemIndex_le _ _
  have hoff : (tailCall i s chunk.length).offset = chunk.length - (s + chunk.length) % 8 := by
    rw [tailCall, KernelCall.offset, sizeSub_of_le htail (by omega)]
  have hlen : (tailCall i s chunk.length).loopLength chunk.length =
      ((s + chunk.length) % 8 : Nat) := by
    rw [tailCall, KernelCall.loopLength, sizeSub_of_le htail (by omega),
      remainingLen_tail htail hlt, toInt_ofNat (by omega)]
  exact ⟨by omega, by omega, by omega, _, _, runCall_tail hp hsize hi hhead hbytes,
    remainingTrace_inRange (by omega) (by omega)⟩

/-- All calls on a layout are safe, on a bitmap with a bit for each row. -/
def CallsSafe (kernel : FilterKernel field) (column : ChunkedArray field.type.CType) : Prop :=
  ∀ call ∈ kernelCalls column.lens, ∀ bitmap : Bitmap, bitmap.length = bytesForBits column.length →
    ∃ chunk, column.chunks[call.chunk]? = some chunk ∧ CallSafe kernel column bitmap call chunk

/-- **Which chunkings are safe**: every call stays inside its chunk and inside the bitmap exactly
when each chunk that starts inside a byte reaches the end of that byte. -/
theorem calls_safe_iff {expr : BooleanExpr}
    (hk : (FilterKernel.createCpu field expr).compile = .ok kernel) :
    CallsSafe kernel column ↔ CoversHead column.lens := by
  obtain ⟨⟨type, htype⟩, predicate, hp⟩ := FilterKernel.compile_eq_ok hk
  obtain ⟨size, hsize⟩ := exists_elemSize htype
  constructor
  · intro hsafe i len hi
    -- the call for the whole bytes has the rows of the shared byte as its offset
    have hcall : wholeCall i (start column.lens i) ∈ kernelCalls column.lens :=
      mem_kernelCalls.mpr ⟨i, len, hi, Or.inl rfl⟩
    obtain ⟨chunk, hchunk, hsafe⟩ := hsafe _ hcall (Bitmap.ones (bytesForBits column.length))
      (Bitmap.length_ones _)
    obtain ⟨c, hc, rfl⟩ := ChunkedArray.getElem?_lens hi
    obtain rfl : c = chunk := Option.some.inj (hc.symm.trans hchunk)
    exact hsafe.offset_le
  · intro hcov call hcall bitmap hbitmap
    obtain ⟨i, len, hi, hcase⟩ := mem_kernelCalls.mp hcall
    have hhead := hcov i len hi
    have hend : start column.lens i + len ≤ column.length := start_add_le_sum hi
    have hbytes := bytesForBits_le.mp hbitmap.ge
    obtain ⟨chunk, hchunk, rfl⟩ := ChunkedArray.getElem?_lens hi
    rcases hcase with rfl | ⟨hs, rfl⟩ | ⟨-, rfl⟩
    · exact ⟨chunk, hchunk, callSafe_whole hp hsize hchunk hhead (by omega)⟩
    · exact ⟨chunk, hchunk, callSafe_head hp hsize hchunk hs hhead (by omega)⟩
    · exact ⟨chunk, hchunk, callSafe_tail hp hsize hchunk hhead (by omega)⟩

end

/-- The rows 5 and 6 of an `int32` column, each in a chunk of its own. -/
def twoSingletons : ChunkedArray (DataType.int32).CType :=
  ⟨[.ofList [3#32] (by decide), .ofList [4#32] (by decide)], by decide⟩

/-- The kernel of `a > 0` on an `int32` column. -/
def positiveKernel : FilterKernel ⟨"a", .int32⟩ :=
  ⟨(col "a").gt (lit 0), some fun x => CompareOp.gt.compare .int32 x (lit 0)⟩

theorem compile_positiveKernel :
    (FilterKernel.createCpu ⟨"a", .int32⟩ ((col "a").gt (lit 0))).compile = .ok positiveKernel :=
  FilterKernel.compile_compare .gt rfl (by decide)

/-- The second chunk starts at row 1, so its first call gets the offset 7 and the length `1 - 7`. -/
theorem calls_unsafe_twoSingletons : ¬ CallsSafe positiveKernel twoSingletons := by
  intro hsafe
  obtain ⟨chunk, hchunk, h⟩ := hsafe (wholeCall 1 1) (by decide) (Bitmap.ones 1) rfl
  have hlen : chunk.length = 1 := by
    cases hchunk
    rfl
  have hoff : (7 : Nat) ≤ chunk.length := h.offset_le
  omega

theorem calls_safe_iff_twoSingletons :
    CallsSafe positiveKernel twoSingletons ↔ CoversHead twoSingletons.lens :=
  calls_safe_iff compile_positiveKernel

/-! ## Calls in any order -/

section

variable {field : Field} {kernel : FilterKernel field} {column : ChunkedArray field.type.CType}

/-- The bytes that a call writes, on some bitmap with a bit for each row. -/
def writtenBytes (kernel : FilterKernel field) (column : ChunkedArray field.type.CType)
    (call : KernelCall) : Set Nat :=
  {b | ∃ bitmap out trace, bitmap.length = bytesForBits column.length ∧
    runCall kernel column bitmap call = .ok (out, trace) ∧ .storeByte b ∈ trace}

variable {predicate : field.type.CType → Bool} {size : Nat}

/-- A call for whole bytes writes bytes all of whose rows are in the chunk. -/
theorem mem_writtenBytes_whole (hp : kernel.predicate = some predicate)
    (hsize : ElemSize field.type size) (hcov : CoversHead column.lens) {i len b : Nat}
    (hi : column.lens[i]? = some len)
    (hb : b ∈ writtenBytes kernel column (wholeCall i (start column.lens i))) :
    start column.lens i ≤ 8 * b ∧ 8 * b + 8 ≤ start column.lens i + len := by
  obtain ⟨bitmap, out, trace, hbitmap, hrun, hmem⟩ := hb
  have hhead := hcov i len hi
  have hend : start column.lens i + len ≤ column.length := start_add_le_sum hi
  have hbytes := bytesForBits_le.mp hbitmap.ge
  have hdest := headRows_dest (start column.lens i)
  obtain ⟨chunk, hchunk, rfl⟩ := ChunkedArray.getElem?_lens hi
  rw [runCall_whole hp hsize hchunk hhead (by omega)] at hrun
  cases hrun
  have := storeByte_mem_filterTrace hmem
  omega

/-- A call for a shared byte writes a byte that a chunk starts in the middle of, if only the empty
one behind the last. -/
theorem mem_writtenBytes_remaining (hp : kernel.predicate = some predicate)
    (hsize : ElemSize field.type size) (hcov : CoversHead column.lens) {call : KernelCall} {b : Nat}
    (hcall : call ∈ kernelCalls column.lens) (hrem : ¬ call.IsExecute)
    (hb : b ∈ writtenBytes kernel column call) :
    ∃ k, 8 * b < start column.lens k ∧ start column.lens k < 8 * b + 8 := by
  obtain ⟨bitmap, out, trace, hbitmap, hrun, hmem⟩ := hb
  obtain ⟨i, len, hi, hcase⟩ := mem_kernelCalls.mp hcall
  have hhead := hcov i len hi
  have hend : start column.lens i + len ≤ column.length := start_add_le_sum hi
  have hbytes := bytesForBits_le.mp hbitmap.ge
  obtain ⟨chunk, hchunk, rfl⟩ := ChunkedArray.getElem?_lens hi
  rcases hcase with rfl | ⟨hs, rfl⟩ | ⟨hs, rfl⟩
  · exact absurd trivial hrem
  · rw [runCall_head hp hsize hchunk hs hhead (by omega)] at hrun
    cases hrun
    have := storeByte_mem_remainingTrace hmem
    exact ⟨i, by omega, by omega⟩
  · -- the byte that a chunk ends in is the one that the next starts in
    rw [runCall_tail hp hsize hchunk hhead (by omega)] at hrun
    cases hrun
    have := storeByte_mem_remainingTrace hmem
    refine ⟨i + 1, ?_, ?_⟩ <;>
      · rw [start_succ hi]
        omega

theorem eq_wholeCall_of_isExecute {lens : List Nat} {call : KernelCall}
    (hcall : call ∈ kernelCalls lens) (hexec : call.IsExecute) :
    ∃ i len, lens[i]? = some len ∧ call = wholeCall i (start lens i) := by
  obtain ⟨i, len, hi, rfl | ⟨-, rfl⟩ | ⟨-, rfl⟩⟩ := mem_kernelCalls.mp hcall
  · exact ⟨i, len, hi, rfl⟩
  · exact hexec.elim
  · exact hexec.elim

/-- **No byte of a call for whole bytes is written by another call.** -/
theorem writtenBytes_disjoint (hp : kernel.predicate = some predicate)
    (hsize : ElemSize field.type size) (hcov : CoversHead column.lens) {call call' : KernelCall}
    (hcall : call ∈ kernelCalls column.lens) (hcall' : call' ∈ kernelCalls column.lens)
    (hexec : call.IsExecute) (hne : call' ≠ call) :
    Disjoint (writtenBytes kernel column call) (writtenBytes kernel column call') := by
  rw [Set.disjoint_left]
  intro b hb hb'
  obtain ⟨i, len, hi, rfl⟩ := eq_wholeCall_of_isExecute hcall hexec
  have hrows := mem_writtenBytes_whole hp hsize hcov hi hb
  by_cases hexec' : call'.IsExecute
  · -- the first row of the byte lies in one chunk only
    obtain ⟨j, len', hj, rfl⟩ := eq_wholeCall_of_isExecute hcall' hexec'
    have hrows' := mem_writtenBytes_whole hp hsize hcov hj hb'
    obtain rfl : i = j :=
      block_unique (r := 8 * b) hi (by omega) (by omega) hj (by omega) (by omega)
    exact hne rfl
  · -- no chunk starts inside the bytes of another one
    obtain ⟨k, hk⟩ := mem_writtenBytes_remaining hp hsize hcov hcall' hexec' hb'
    rcases start_not_inside hi k with h | h
    · omega
    · omega

/-- The calls on a layout do not depend on their order: a call for whole bytes has its bytes to
itself, and on a bitmap with a bit for each row every order of the calls leaves one bitmap. -/
structure CallsIndependent (kernel : FilterKernel field)
    (column : ChunkedArray field.type.CType) : Prop where
  disjoint : ∀ call ∈ kernelCalls column.lens, ∀ call' ∈ kernelCalls column.lens,
    call.IsExecute → call' ≠ call →
      Disjoint (writtenBytes kernel column call) (writtenBytes kernel column call')
  anyOrder : ∀ bitmap : Bitmap, bitmap.length = bytesForBits column.length →
    ∃ out, runCalls kernel column (kernelCalls column.lens) bitmap = .ok out ∧
      ∀ calls : List KernelCall, calls.Perm (kernelCalls column.lens) →
        runCalls kernel column calls bitmap = .ok out

/-- **The calls of a comparison may be made in any order**, when every chunk that starts inside a
byte reaches the end of that byte. -/
theorem calls_any_order {expr : BooleanExpr}
    (hk : (FilterKernel.createCpu field expr).compile = .ok kernel)
    (hcov : CoversHead column.lens) : CallsIndependent kernel column := by
  obtain ⟨⟨type, htype⟩, predicate, hp⟩ := FilterKernel.compile_eq_ok hk
  obtain ⟨size, hsize⟩ := exists_elemSize htype
  refine ⟨fun call hcall call' hcall' => writtenBytes_disjoint hp hsize hcov hcall hcall', ?_⟩
  intro bitmap hbitmap
  have hrun : ∀ calls : List KernelCall, calls.Perm (kernelCalls column.lens) →
      runCalls kernel column calls bitmap =
        .ok ((calls.map (callKeep predicate size column)).foldl Bitmap.mask bitmap) :=
    fun calls hperm => runCalls_eq_foldl hp hsize hcov (fun _ hcall => hperm.mem_iff.mp hcall)
      (bytesForBits_le.mp hbitmap.ge)
  refine ⟨_, hrun _ (List.Perm.refl _), fun calls hperm => ?_⟩
  rw [hrun calls hperm]
  -- masks commute
  refine congrArg Except.ok ((hperm.map _).foldl_eq' (fun f _ g _ b => ?_) bitmap)
  exact Bitmap.mask_comm b f g

end

/-- Seventeen rows of an `int32` column: a chunk of nine, and one of eight that starts and ends
inside a byte. -/
def nineAndEight : ChunkedArray (DataType.int32).CType :=
  ⟨[.ofList (List.replicate 9 5#32) (by decide), .ofList (List.replicate 8 0#32) (by decide)],
    by decide⟩

theorem calls_any_order_nineAndEight : CallsIndependent positiveKernel nineAndEight :=
  calls_any_order compile_positiveKernel (by decide)

end Pefa
