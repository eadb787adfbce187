import Pefa.Lib.Blocks
import Pefa.Kernels.FilterMask
import Pefa.Execution.FilterExpr

/-!
# The kernel calls of a comparison

For every chunk a comparison makes up to three calls: on the whole bytes inside the chunk, on the
byte the chunk starts in (`headCall`) and on the byte it ends in (`tailCall`). The offsets and
lengths passed are computed by differences that wrap when a chunk is too short, so everything
rests on one condition on the layout: a chunk that starts inside a byte reaches the end of that
byte (`CoversHead`). Under it every call is the mask of a range of rows (`runCall_whole`,
`runCall_head`, `runCall_tail`).
-/

namespace Pefa

open Blocks

/-! ## The calls of one chunk -/

/-- The rows of a chunk that lie in the byte shared with the chunks before it. -/
def headRows (s : Nat) : Nat := (8 - s % 8) % 8

/-- The call for the whole bytes of chunk `i`, which starts at row `s`. -/
def wholeCall (i s : Nat) : KernelCall := .execute i (s / 8) (headRows s)

/-- The call for the byte that chunk `i` starts in. -/
def headCall (i s : Nat) : KernelCall := .executeRemaining i (s / 8) 0 (BitVec.ofNat 8 (s % 8))

/-- The call for the byte that chunk `i`, of `len` rows, ends in. -/
def tailCall (i s len : Nat) : KernelCall :=
  .executeRemaining i ((s + len) / 8) (sizeSub len ((s + len) % 8)) 0#8

theorem mem_executeCalls {lens : List Nat} {call : KernelCall} :
    call ∈ executeCalls lens ↔
      ∃ i len, lens[i]? = some len ∧ call = wholeCall i (start lens i) := by
  unfold executeCalls
  simp only [List.mem_map, List.mem_range]
  constructor
  · rintro ⟨i, hi, rfl⟩
    exact ⟨i, lens[i], List.getElem?_eq_getElem hi, rfl⟩
  · rintro ⟨i, len, hi, rfl⟩
    exact ⟨i, (List.getElem?_eq_some_iff.mp hi).1, rfl⟩

theorem mem_remainingCallsFrom {call : KernelCall} :
    ∀ {lens : List Nat} {k offset : Nat}, call ∈ remainingCallsFrom k offset lens ↔
      ∃ i len, lens[i]? = some len ∧
        ((offset + start lens i) % 8 ≠ 0 ∧ call = headCall (k + i) (offset + start lens i) ∨
          (offset + start lens i + len) % 8 ≠ 0 ∧
            call = tailCall (k + i) (offset + start lens i) len) := by
  intro lens
  induction lens with
  | nil => intro k offset; simp [remainingCallsFrom]
  | cons len lens ih =>
      intro k offset
      have hhead : ∀ {p : Prop} [Decidable p] {c : KernelCall},
          call ∈ (if p then [c] else []) ↔ p ∧ call = c := by
        intro p _ c
        split <;> simp [*]
      rw [remainingCallsFrom, List.mem_append, List.mem_append, hhead, hhead, ih]
      -- the calls of the first chunk, or those of a later one with its number shifted
      constructor
      · rintro (h | ⟨i, l, hl, h⟩)
        · exact ⟨0, len, rfl, h⟩
        · refine ⟨i + 1, l, hl, ?_⟩
          rw [start_cons_succ, ← Nat.add_assoc offset, Nat.add_comm i 1, ← Nat.add_assoc k]
          exact h
      · rintro ⟨i, l, hl, h⟩
        cases i with
        | zero =>
            obtain rfl : len = l := by simpa using hl
            exact Or.inl h
        | succ i =>
            rw [start_cons_succ, ← Nat.add_assoc offset, Nat.add_comm i 1, ← Nat.add_assoc k] at h
            exact Or.inr ⟨i, l, by simpa using hl, h⟩

/-- **The calls of a comparison**, chunk by chunk. -/
theorem mem_kernelCalls {lens : List Nat} {call : KernelCall} :
    call ∈ kernelCalls lens ↔ ∃ i len, lens[i]? = some len ∧
      (call = wholeCall i (start lens i) ∨
        (start lens i % 8 ≠ 0 ∧ call = headCall i (start lens i)) ∨
        ((start lens i + len) % 8 ≠ 0 ∧ call = tailCall i (start lens i) len)) := by
  rw [kernelCalls, List.mem_append, mem_executeCalls, mem_remainingCallsFrom]
  simp only [Nat.zero_add]
  constructor
  · rintro (⟨i, len, hi, h⟩ | ⟨i, len, hi, h⟩)
    · exact ⟨i, len, hi, Or.inl h⟩
    · exact ⟨i, len, hi, Or.inr h⟩
  · rintro ⟨i, len, hi, h | h⟩
    · exact Or.inl ⟨i, len, hi, h⟩
    · exact Or.inr ⟨i, len, hi, h⟩

/-! ## The condition on the layout -/

/-- Every chunk that starts inside a byte reaches the end of that byte. -/
def CoversHead (lens : List Nat) : Prop :=
  ∀ i len, lens[i]? = some len → headRows (start lens i) ≤ len

instance (lens : List Nat) : Decidable (CoversHead lens) :=
  decidable_of_iff (∀ i : Fin lens.length, headRows (start lens i) ≤ lens[i]) <| by
    constructor
    · intro h i len hi
      obtain ⟨hlt, rfl⟩ := List.getElem?_eq_some_iff.mp hi
      exact h ⟨i, hlt⟩
    · intro h i
      exact h i lens[i] (List.getElem?_eq_getElem i.isLt)

theorem headRows_lt (s : Nat) : headRows s < 8 := Nat.mod_lt _ (by decide)

/-- The first whole byte of a chunk starts on a byte boundary. -/
theorem headRows_dest (s : Nat) :
    8 * (s / 8 + if headRows s ≠ 0 then 1 else 0) = s + headRows s := by
  unfold headRows
  split <;> omega

theorem headRows_of_ne {s : Nat} (h : s % 8 ≠ 0) : headRows s = 8 - s % 8 := by
  unfold headRows
  omega

/-- A chunk that reaches the end of its first byte has in it the rows of its last byte. -/
theorem tail_le_of_covers {s len : Nat} (h : headRows s ≤ len) : (s + len) % 8 ≤ len := by
  unfold headRows at h
  omega

/-- The rows after the shared head and before the shared tail fill whole bytes. -/
theorem whole_add_tail {s len : Nat} (h : headRows s ≤ len) :
    headRows s + 8 * ((len - headRows s) / 8) + (s + len) % 8 = len := by
  unfold headRows at *
  omega

/-! ## Pointers -/

/-- The element that the pointer `data + bit_width * offset / 8` points to: the product wraps. -/
def elemIndex (size offset : Nat) : Nat := offset % (2 ^ 61 / size)

theorem pointer_eq {size : Nat} (hdvd : size ∣ 2 ^ 61) (offset : Nat) :
    8 * size * offset % 2 ^ 64 / 8 = size * elemIndex size offset := by
  obtain ⟨m, hm⟩ := hdvd
  have hpos : 0 < size := by
    rcases Nat.eq_zero_or_pos size with h | h
    · rw [h] at hm
      simp at hm
    · exact h
  have hdiv : 2 ^ 61 / size = m := by rw [hm, Nat.mul_div_cancel_left _ hpos]
  have h64 : (2 : Nat) ^ 64 = 8 * (size * m) := by
    rw [← hm]
    norm_num
  rw [elemIndex, hdiv, h64, Nat.mul_assoc, Nat.mul_mod_mul_left,
    Nat.mul_div_cancel_left _ (by decide : 0 < 8), Nat.mul_mod_mul_left]

theorem elemIndex_le (size offset : Nat) : elemIndex size offset ≤ offset := Nat.mod_le _ _

theorem elemIndex_of_lt {size offset : Nat} (h : offset < 2 ^ 61 / size) :
    elemIndex size offset = offset := Nat.mod_eq_of_lt h

/-- The width of a type in bytes, for the types whose elements are found by pointer arithmetic. -/
structure ElemSize (type : DataType) (size : Nat) : Prop where
  bitWidth : type.bitWidth = some (8 * size)
  pos : 0 < size
  le : size ≤ 8
  dvd : size ∣ 2 ^ 61

theorem elemSize_integral (s : Bool) (w : Width) : ElemSize (.integral s w) w.bytes := by
  cases w <;> exact ⟨rfl, by decide, by decide, by decide⟩

/-- Every type a kernel can be compiled for has a width in bytes. -/
theorem exists_elemSize {type : DataType} {t : LlvmType} (h : fromArrow type = .ok t) :
    ∃ size, ElemSize type size := by
  cases type with
  | integral s w => exact ⟨_, elemSize_integral s w⟩
  | floating w =>
      cases w with
      | half => exact ⟨2, rfl, by decide, by decide, by decide⟩
      | single => exact ⟨4, rfl, by decide, by decide, by decide⟩
      | double => exact ⟨8, rfl, by decide, by decide, by decide⟩
  | string => cases h
  | bool => cases h
  | na => cases h
  | other => cases h

theorem elemIndex_of_lt_eight {size offset : Nat} (hpos : 0 < size) (hle : size ≤ 8)
    (h : offset < 8) : elemIndex size offset = offset := by
  apply elemIndex_of_lt
  have h8 : 2 ^ 61 / 8 ≤ 2 ^ 61 / size := Nat.div_le_div_left hle hpos
  omega

/-! ## Calls as masks -/

section Calls

variable {field : Field} {kernel : FilterKernel field} {predicate : field.type.CType → Bool}
  {size : Nat} {column : ChunkedArray field.type.CType} {chunk : ArrayData field.type.CType}
  {bitmap : Bitmap} {i s : Nat}

/-- **The call for the whole bytes** masks the rows between the shared head and the shared tail. -/
theorem runCall_whole (hp : kernel.predicate = some predicate) (hsize : ElemSize field.type size)
    (hi : column.chunks[i]? = some chunk) (hhead : headRows s ≤ chunk.length)
    (hbytes : s + chunk.length ≤ 8 * bitmap.length) :
    runCall kernel column bitmap (wholeCall i s) =
      .ok (bitmap.mask (rangeKeep predicate chunk.values (s + headRows s)
            (8 * ((chunk.length - headRows s) / 8)) (headRows s)),
        filterTrace (headRows s) (s / 8 + if headRows s ≠ 0 then 1 else 0)
          ((chunk.length - headRows s) / 8)) := by
  have hbounds := chunk.inBounds
  have hlt := chunk.length_lt
  have hh := headRows_lt s
  have hdest := headRows_dest s
  -- the offset is less than eight, so the pointer does not wrap
  have hptr : 8 * size * headRows s % 2 ^ 64 / 8 = size * headRows s := by
    rw [pointer_eq hsize.dvd, elemIndex_of_lt_eight hsize.pos hsize.le hh]
  have hlen : (BitVec.ofNat 64 (sizeSub chunk.length (headRows s))).toNat / 8 =
      (chunk.length - headRows s) / 8 := by
    rw [sizeSub_of_le hhead (by omega), BitVec.toNat_ofNat, Nat.mod_eq_of_lt (by omega)]
  have hrun := filterFunc_ok predicate chunk.values bitmap (headRows s)
    (s / 8 + if headRows s ≠ 0 then 1 else 0) hsize.pos hlen (by omega) (by omega)
  rw [hdest] at hrun
  simp only [runCall, wholeCall, hi, FilterKernel.execute, hp, hsize.bitWidth, hptr,
    Nat.mul_div_cancel_left _ (by decide : 0 < 8)]
  exact hrun

/-- The rows that `execute_remaining` looks at when it is called for the head of a chunk: the
length of the chunk is taken modulo 256 first. -/
def headCount (s len : Nat) : Nat := min (headRows s) (len % 256)

theorem remainingLen_head {s len : Nat} (hs : s % 8 ≠ 0) (hlen : len < 2 ^ 63) :
    FilterKernel.remainingLen len 0 (BitVec.ofNat 8 (s % 8)) =
      BitVec.ofNat 8 (headCount s len) := by
  -- what is left of the byte
  have h8 : (8#8 - BitVec.ofNat 8 (s % 8)).toNat = headRows s := by
    rw [headRows_of_ne hs]
    simp only [BitVec.toNat_sub, BitVec.toNat_ofNat]
    omega
  -- what is left of the chunk, as a `uint8_t`
  have hrest : (BitVec.ofNat 8 (sizeSub len 0)).toNat = len % 256 := by
    rw [sizeSub_of_le (Nat.zero_le _) (by omega), BitVec.toNat_ofNat]
    rfl
  have hh := headRows_lt s
  apply BitVec.eq_of_toNat_eq
  simp only [FilterKernel.remainingLen, if_true, BitVec.lt_def, h8, hrest, headCount,
    BitVec.toNat_ofNat]
  split
  · rw [hrest]
    omega
  · rw [h8]
    omega

/-- **The call for the head** masks the first rows of the chunk: as many as there are in the
shared byte, or as the length modulo 256 says if that is less. -/
theorem runCall_head (hp : kernel.predicate = some predicate) (hsize : ElemSize field.type size)
    (hi : column.chunks[i]? = some chunk) (hs : s % 8 ≠ 0) (hhead : headRows s ≤ chunk.length)
    (hbytes : s + chunk.length ≤ 8 * bitmap.length) :
    runCall kernel column bitmap (headCall i s) =
      .ok (bitmap.mask (rangeKeep predicate chunk.values s (headCount s chunk.length) 0),
        remainingTrace 0 (s / 8) (s % 8) (headCount s chunk.length)) := by
  have hbounds := chunk.inBounds
  have hh := headRows_of_ne hs
  have hc : headCount s chunk.length ≤ headRows s := Nat.min_le_left _ _
  have hrun := filterRemainingFunc_ok predicate chunk.values bitmap 0 (s / 8) (s % 8)
    (headCount s chunk.length) hsize.pos (by omega) (by omega) (by omega)
  rw [show 8 * (s / 8) + s % 8 = s by omega] at hrun
  simp only [runCall, headCall, hi, FilterKernel.executeRemaining, hp, hsize.bitWidth,
    remainingLen_head hs chunk.length_lt, Nat.mul_div_cancel_left _ (by decide : 0 < 8),
    Nat.mul_zero, Nat.zero_mod, Nat.zero_div]
  exact hrun

theorem remainingLen_tail {s len : Nat} (htail : (s + len) % 8 ≤ len)
    (hlen : len < 2 ^ 63) :
    FilterKernel.remainingLen len (len - (s + len) % 8) 0#8 = BitVec.ofNat 8 ((s + len) % 8) := by
  have h8 : (8#8 - 0#8).toNat = 8 := rfl
  have hrest : BitVec.ofNat 8 (sizeSub len (len - (s + len) % 8)) =
      BitVec.ofNat 8 ((s + len) % 8) := by
    rw [sizeSub_of_le (Nat.sub_le _ _) (by omega), Nat.sub_sub_self htail]
  have hlt : (BitVec.ofNat 8 ((s + len) % 8)).toNat < (8#8 - 0#8).toNat := by
    rw [h8, BitVec.toNat_ofNat]
    omega
  simp only [FilterKernel.remainingLen, hrest, BitVec.lt_def, if_pos hlt, ite_self]

/-- The element at which `execute_remaining` starts to read when it is called for the tail of a
chunk. -/
def tailBase (size s len : Nat) : Nat := elemIndex size (len - (s + len) % 8)

/-- **The call for the tail** masks the last rows of the chunk. -/
theorem runCall_tail (hp : kernel.predicate = some predicate) (hsize : ElemSize field.type size)
    (hi : column.chunks[i]? = some chunk)
    (hhead : headRows s ≤ chunk.length) (hbytes : s + chunk.length ≤ 8 * bitmap.length) :
    runCall kernel column bitmap (tailCall i s chunk.length) =
      .ok (bitmap.mask (rangeKeep predicate chunk.values
            (s + (chunk.length - (s + chunk.length) % 8)) ((s + chunk.length) % 8)
            (tailBase size s chunk.length)),
        remainingTrace (tailBase size s chunk.length) ((s + chunk.length) / 8) 0
          ((s + chunk.length) % 8)) := by
  have hbounds := chunk.inBounds
  have hlt := chunk.length_lt
  have htail := tail_le_of_covers hhead
  have hbase : tailBase size s chunk.length ≤ chunk.length - (s + chunk.length) % 8 :=
    elemIndex_le _ _
  have hrun := filterRemainingFunc_ok predicate chunk.values bitmap (tailBase size s chunk.length)
    ((s + chunk.length) / 8) 0 ((s + chunk.length) % 8) hsize.pos (by omega) (by omega) (by omega)
  rw [show 8 * ((s + chunk.length) / 8) + 0 = s + (chunk.length - (s + chunk.length) % 8) by omega]
    at hrun
  simp only [runCall, tailCall, hi, FilterKernel.executeRemaining, hp, hsize.bitWidth,
    sizeSub_of_le htail (by omega : chunk.length < 2 ^ 64), remainingLen_tail htail hlt,
    pointer_eq hsize.dvd, Nat.mul_div_cancel_left _ (by decide : 0 < 8)]
  exact hrun

end Calls

/-! ## All calls of a comparison -/

section AllCalls

variable {field : Field} {kernel : FilterKernel field} {predicate : field.type.CType → Bool}
  {size : Nat} {column : ChunkedArray field.type.CType} {bitmap : Bitmap}

variable (predicate size column) in
/-- The rows that a call keeps. -/
def callKeep : KernelCall → Nat → Bool
  | .execute i byte offset, r =>
      match column.chunks[i]? with
      | some c =>
          rangeKeep predicate c.values (8 * (byte + if offset ≠ 0 then 1 else 0))
            (8 * ((c.length - offset) / 8)) offset r
      | none => true
  | .executeRemaining i byte arrayOffset bitOffset, r =>
      match column.chunks[i]? with
      | some c =>
          rangeKeep predicate c.values (8 * byte + bitOffset.toNat)
            (FilterKernel.remainingLen c.length arrayOffset bitOffset).toNat
            (elemIndex size arrayOffset) r
      | none => true

variable {chunk : ArrayData field.type.CType} {i s : Nat}

theorem callKeep_whole (hi : column.chunks[i]? = some chunk) :
    callKeep predicate size column (wholeCall i s) =
      rangeKeep predicate chunk.values (s + headRows s) (8 * ((chunk.length - headRows s) / 8))
        (headRows s) := by
  funext r
  simp only [callKeep, wholeCall, hi, headRows_dest]

theorem callKeep_head (hi : column.chunks[i]? = some chunk) (hs : s % 8 ≠ 0) :
    callKeep predicate size column (headCall i s) =
      rangeKeep predicate chunk.values s (headCount s chunk.length) 0 := by
  have hh := headRows_lt s
  have hc : headCount s chunk.length ≤ headRows s := Nat.min_le_left _ _
  have hcount : (BitVec.ofNat 8 (headCount s chunk.length)).toNat = headCount s chunk.length := by
    rw [BitVec.toNat_ofNat]
    omega
  have hrow : 8 * (s / 8) + (BitVec.ofNat 8 (s % 8)).toNat = s := by
    rw [BitVec.toNat_ofNat]
    omega
  funext r
  simp only [callKeep, headCall, hi, remainingLen_head hs chunk.length_lt, hcount, hrow, elemIndex,
    Nat.zero_mod]

theorem callKeep_tail (hi : column.chunks[i]? = some chunk) (hhead : headRows s ≤ chunk.length) :
    callKeep predicate size column (tailCall i s chunk.length) =
      rangeKeep predicate chunk.values (s + (chunk.length - (s + chunk.length) % 8))
        ((s + chunk.length) % 8) (tailBase size s chunk.length) := by
  have hlt := chunk.length_lt
  have htail := tail_le_of_covers hhead
  have hcount : (BitVec.ofNat 8 ((s + chunk.length) % 8)).toNat = (s + chunk.length) % 8 := by
    rw [BitVec.toNat_ofNat]
    omega
  have hrow : 8 * ((s + chunk.length) / 8) + (0#8).toNat =
      s + (chunk.length - (s + chunk.length) % 8) := by
    show 8 * ((s + chunk.length) / 8) + 0 = _
    omega
  funext r
  simp only [callKeep, tailCall, hi, sizeSub_of_le htail (by omega : chunk.length < 2 ^ 64),
    remainingLen_tail htail hlt, hcount, hrow, tailBase]

/-- **Every call is a mask**, whatever the bitmap is at that time. -/
theorem runCall_eq_mask (hp : kernel.predicate = some predicate) (hsize : ElemSize field.type size)
    (hcov : CoversHead column.lens) (hbytes : column.length ≤ 8 * bitmap.length)
    {call : KernelCall} (hcall : call ∈ kernelCalls column.lens) :
    ∃ trace, runCall kernel column bitmap call =
      .ok (bitmap.mask (callKeep predicate size column call), trace) := by
  obtain ⟨k, len, hk, hcase⟩ := mem_kernelCalls.mp hcall
  have hhead := hcov k len hk
  have hend : start column.lens k + len ≤ column.length := start_add_le_sum hk
  obtain ⟨c, hc, rfl⟩ := ChunkedArray.getElem?_lens hk
  rcases hcase with rfl | ⟨hs, rfl⟩ | ⟨hs, rfl⟩
  · rw [callKeep_whole hc]
    exact ⟨_, runCall_whole hp hsize hc hhead (by omega)⟩
  · rw [callKeep_head hc hs]
    exact ⟨_, runCall_head hp hsize hc hs hhead (by omega)⟩
  · rw [callKeep_tail hc hhead]
    exact ⟨_, runCall_tail hp hsize hc hhead (by omega)⟩

/-- A sequence of calls masks one call after the other. -/
theorem runCalls_eq_foldl (hp : kernel.predicate = some predicate)
    (hsize : ElemSize field.type size) (hcov : CoversHead column.lens) :
    ∀ {calls : List KernelCall} {bitmap : Bitmap},
      (∀ call ∈ calls, call ∈ kernelCalls column.lens) →
      column.length ≤ 8 * bitmap.length →
      runCalls kernel column calls bitmap =
        .ok ((calls.map (callKeep predicate size column)).foldl Bitmap.mask bitmap) := by
  intro calls
  induction calls with
  | nil => intro bitmap _ _; rfl
  | cons call calls ih =>
      intro bitmap hmem hbytes
      obtain ⟨trace, hrun⟩ := runCall_eq_mask hp hsize hcov hbytes
        (hmem call List.mem_cons_self)
      rw [runCalls, hrun, bind_ok]
      exact ih (fun c hc => hmem c (List.mem_cons_of_mem _ hc)) (by simpa using hbytes)

end AllCalls

end Pefa
