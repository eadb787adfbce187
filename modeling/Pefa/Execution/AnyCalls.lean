import Pefa.Kernels.KernelBounds
import Pefa.Execution.CallSafety

/-!
# Calls of a kernel with any arguments

`KernelCalls` and `CallSafety` are about the calls that a comparison makes on a layout that suits
it. Here the chunk, the byte and the offsets are whatever the caller passes, on any layout. A call
goes through exactly where it fits (`CallFits`), which does not depend on what is in the bitmap, and
then it is a mask (`runCall_eq`). So a list of calls is worth no more than the set of its members:
neither their order nor making one of them again changes the outcome (`runCalls_sameCalls`).
-/

namespace Pefa

section

variable {field : Field} {kernel : FilterKernel field} {predicate : field.type.CType → Bool}
  {size : Nat} {column : ChunkedArray field.type.CType} {bitmap : Bitmap}

/-! ## One call -/

/-- The number of bytes that `execute` goes through: the difference wraps. -/
def execBytes (len offset : Nat) : Nat := (BitVec.ofNat 64 (sizeSub len offset)).toNat / 8

/-- The number of elements that `execute_remaining` goes through. -/
def remainingElems (len arrayOffset : Nat) (bitOffset : BitVec 8) : Nat :=
  remainingCount (FilterKernel.remainingLen len arrayOffset bitOffset)

variable (size column) in
/-- The call is for a chunk of the column and stays inside the chunk's buffer and inside a bitmap of
`bytes` bytes. -/
def CallFits (bytes : Nat) : KernelCall → Prop
  | .execute i byte offset =>
      ∃ c, column.chunks[i]? = some c ∧
        FilterFits c.values bytes (elemIndex size offset) (byte + if offset ≠ 0 then 1 else 0)
          (execBytes c.length offset)
  | .executeRemaining i byte arrayOffset bitOffset =>
      ∃ c, column.chunks[i]? = some c ∧
        RemainingFits c.values bytes (elemIndex size arrayOffset) byte bitOffset.toNat
          (remainingElems c.length arrayOffset bitOffset)

variable (predicate size column) in
/-- The rows that a call keeps, whatever its arguments are. -/
def anyCallKeep : KernelCall → Nat → Bool
  | .execute i byte offset, r =>
      match column.chunks[i]? with
      | some c =>
          rangeKeep predicate c.values (8 * (byte + if offset ≠ 0 then 1 else 0))
            (8 * execBytes c.length offset) (elemIndex size offset) r
      | none => true
  | .executeRemaining i byte arrayOffset bitOffset, r =>
      match column.chunks[i]? with
      | some c =>
          rangeKeep predicate c.values (8 * byte + bitOffset.toNat)
            (remainingElems c.length arrayOffset bitOffset) (elemIndex size arrayOffset) r
      | none => true

/-- A call outside the column fails. -/
theorem runCall_none {call : KernelCall} (h : column.chunks[call.chunk]? = none) :
    runCall kernel column bitmap call = .error .outOfBounds := by
  cases call with
  | execute i byte offset =>
      rw [KernelCall.chunk] at h
      rw [runCall, h]
  | executeRemaining i byte arrayOffset bitOffset =>
      rw [KernelCall.chunk] at h
      rw [runCall, h]

variable (column) in
/-- **A call goes through exactly where it fits**, and then it is a mask. -/
theorem runCall_eq (hp : kernel.predicate = some predicate) (hsize : ElemSize field.type size)
    (bitmap : Bitmap) (call : KernelCall) :
    (CallFits size column bitmap.length call →
      ∃ trace, runCall kernel column bitmap call =
        .ok (bitmap.mask (anyCallKeep predicate size column call), trace)) ∧
      (¬ CallFits size column bitmap.length call →
        ∃ e, runCall kernel column bitmap call = .error e) := by
  cases hi : column.chunks[call.chunk]? with
  | none =>
      refine ⟨fun hfits => ?_, fun _ => ⟨_, runCall_none hi⟩⟩
      cases call with
      | execute i byte offset =>
          obtain ⟨c, hc, -⟩ := hfits
          cases hi.symm.trans hc
      | executeRemaining i byte arrayOffset bitOffset =>
          obtain ⟨c, hc, -⟩ := hfits
          cases hi.symm.trans hc
  | some c =>
      cases call with
      | execute i byte offset =>
          have hi : column.chunks[i]? = some c := hi
          obtain ⟨hin, hout⟩ := filterFunc_eq predicate c.values hsize.pos
            (elemIndex size offset) (byte + if offset ≠ 0 then 1 else 0) bitmap
            (BitVec.ofNat 64 (sizeSub c.length offset))
          have hrun : runCall kernel column bitmap (.execute i byte offset) =
              filterFunc predicate c.values size (size * elemIndex size offset) bitmap
                (byte + if offset ≠ 0 then 1 else 0)
                (BitVec.ofNat 64 (sizeSub c.length offset)) := by
            simp only [runCall, hi, FilterKernel.execute, hp, hsize.bitWidth,
              pointer_eq hsize.dvd, Nat.mul_div_cancel_left _ (by decide : 0 < 8)]
          have hkeep : anyCallKeep predicate size column (.execute i byte offset) =
              rangeKeep predicate c.values (8 * (byte + if offset ≠ 0 then 1 else 0))
                (8 * execBytes c.length offset) (elemIndex size offset) := by
            funext r
            simp only [anyCallKeep, hi]
          have hfits : CallFits size column bitmap.length (.execute i byte offset) ↔
              FilterFits c.values bitmap.length (elemIndex size offset)
                (byte + if offset ≠ 0 then 1 else 0) (execBytes c.length offset) := by
            simp only [CallFits, hi, Option.some.injEq, exists_eq_left']
          rw [hrun, hkeep, hfits]
          exact ⟨hin, hout⟩
      | executeRemaining i byte arrayOffset bitOffset =>
          have hi : column.chunks[i]? = some c := hi
          obtain ⟨hin, hout⟩ := filterRemainingFunc_eq predicate c.values hsize.pos
            (elemIndex size arrayOffset) byte bitmap
            (FilterKernel.remainingLen c.length arrayOffset bitOffset) bitOffset
          have hrun : runCall kernel column bitmap
              (.executeRemaining i byte arrayOffset bitOffset) =
              filterRemainingFunc predicate c.values size (size * elemIndex size arrayOffset) bitmap
                byte (FilterKernel.remainingLen c.length arrayOffset bitOffset) bitOffset := by
            simp only [runCall, hi, FilterKernel.executeRemaining, hp, hsize.bitWidth,
              pointer_eq hsize.dvd, Nat.mul_div_cancel_left _ (by decide : 0 < 8)]
          have hkeep : anyCallKeep predicate size column
              (.executeRemaining i byte arrayOffset bitOffset) =
              rangeKeep predicate c.values (8 * byte + bitOffset.toNat)
                (remainingElems c.length arrayOffset bitOffset) (elemIndex size arrayOffset) := by
            funext r
            simp only [anyCallKeep, hi]
          have hfits : CallFits size column bitmap.length
              (.executeRemaining i byte arrayOffset bitOffset) ↔
              RemainingFits c.values bitmap.length (elemIndex size arrayOffset) byte
                bitOffset.toNat (remainingElems c.length arrayOffset bitOffset) := by
            simp only [CallFits, hi, Option.some.injEq, exists_eq_left']
          rw [hrun, hkeep, hfits]
          exact ⟨hin, hout⟩

/-! ## Lists of calls -/

/-- **A list of calls goes through exactly where each of them fits**, and then it is the mask that
keeps what all of them keep. -/
theorem runCalls_eq (hp : kernel.predicate = some predicate) (hsize : ElemSize field.type size) :
    ∀ {calls : List KernelCall} {bitmap out : Bitmap},
      runCalls kernel column calls bitmap = .ok out ↔
        (∀ call ∈ calls, CallFits size column bitmap.length call) ∧
          out = bitmap.mask fun r => calls.all fun call =>
            anyCallKeep predicate size column call r := by
  intro calls
  induction calls with
  | nil =>
      intro bitmap out
      have hself : bitmap.mask (fun r => ([] : List KernelCall).all fun call =>
          anyCallKeep predicate size column call r) = bitmap :=
        Bitmap.mask_eq_self fun _ _ => rfl
      rw [hself]
      constructor
      · intro h
        exact ⟨fun _ hcall => absurd hcall List.not_mem_nil, (Except.ok.inj h).symm⟩
      · rintro ⟨-, rfl⟩
        rfl
  | cons call calls ih =>
      intro bitmap out
      obtain ⟨hin, hout⟩ := runCall_eq column hp hsize bitmap call
      by_cases hfits : CallFits size column bitmap.length call
      · obtain ⟨trace, hrun⟩ := hin hfits
        rw [runCalls, hrun, bind_ok, ih, Bitmap.length_mask, Bitmap.mask_mask,
          List.forall_mem_cons]
        exact ⟨fun h => ⟨⟨hfits, h.1⟩, h.2⟩, fun h => ⟨h.1.2, h.2⟩⟩
      · obtain ⟨e, hrun⟩ := hout hfits
        rw [runCalls, hrun]
        exact iff_of_false (fun h => by cases h) fun h => hfits (h.1 call List.mem_cons_self)

/-- **What a list of calls does depends on the set of its members alone.** If the list goes through
on a bitmap, then there are rows such that every list of the same calls, in whatever order and
however often each is made, goes through on every bitmap of that size and clears exactly the bits of
these rows. -/
theorem runCalls_sameCalls {expr : BooleanExpr}
    (hk : (FilterKernel.createCpu field expr).compile = .ok kernel)
    {calls : List KernelCall} {bitmap out : Bitmap}
    (hrun : runCalls kernel column calls bitmap = .ok out) :
    ∃ keep : Nat → Bool, ∀ calls' : List KernelCall, (∀ call, call ∈ calls' ↔ call ∈ calls) →
      ∀ bitmap' : Bitmap, bitmap'.length = bitmap.length →
        runCalls kernel column calls' bitmap' = .ok (bitmap'.mask keep) := by
  obtain ⟨⟨type, htype⟩, predicate, hp⟩ := FilterKernel.compile_eq_ok hk
  obtain ⟨size, hsize⟩ := exists_elemSize htype
  obtain ⟨hfits, -⟩ := (runCalls_eq hp hsize).mp hrun
  refine ⟨fun r => calls.all fun call => anyCallKeep predicate size column call r, ?_⟩
  intro calls' hmem bitmap' hlen
  refine (runCalls_eq hp hsize).mpr ⟨fun call hcall => ?_, ?_⟩
  · rw [hlen]
    exact hfits call ((hmem call).mp hcall)
  · refine Bitmap.mask_congr fun r _ => ?_
    rw [Bool.eq_iff_iff, List.all_eq_true, List.all_eq_true]
    exact ⟨fun h call hcall => h call ((hmem call).mp hcall),
      fun h call hcall => h call ((hmem call).mpr hcall)⟩

end

/-- The calls of a comparison on a chunk of nine and a chunk of eight rows, made a second time from
the last to the first on a bitmap that is clear already. -/
theorem runCalls_sameCalls_nineAndEight :
    ∃ keep : Nat → Bool, ∀ calls' : List KernelCall,
      (∀ call, call ∈ calls' ↔ call ∈ kernelCalls nineAndEight.lens) →
      ∀ bitmap' : Bitmap, bitmap'.length = 3 →
        runCalls positiveKernel nineAndEight calls' bitmap' = .ok (bitmap'.mask keep) :=
  runCalls_sameCalls compile_positiveKernel
    (show runCalls positiveKernel nineAndEight (kernelCalls nineAndEight.lens) (Bitmap.ones 3) =
      .ok [255#8, 128#8, 127#8] by decide +kernel)

end Pefa
