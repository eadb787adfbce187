import Pefa.Codegen.PredicateCode
import Pefa.Codegen.LoopCode
import Pefa.Execution.Termination
import Pefa.Kernels.KernelBounds

/-!
# Running the code of the whole bytes

The blocks of `<field>_filter` are executed one by one, on a frame that belongs to a state of
`filterFunc`: `AtOuter` between two bytes, `AtInner` between two rows of a byte. A block that goes
through leads to the frame of the next state, and one that stops does so with the error of the
model. The two loops are then loops of blocks (`ControlFlow.Follows.whileLoop`).

The pointers of the code are signed and those of the model are not. They agree as long as the
elements that were loaded lie inside the value buffer, which is what the outer loop keeps.
-/

namespace Pefa

namespace Ir

open ControlFlow WhileLoop

/-! ## Operands -/

section Operands

variable {args : List Value} {regs : Nat → List Value} {block : Nat} {vals : List Value}

@[simp] theorem operand_arg (index : Nat) (t : IrType) :
    operand args regs block vals (.arg index t) =
      match args[index]? with
      | some v => .ok v
      | none => .error .brokenModule := rfl

@[simp] theorem operand_instr (b index : Nat) (t : IrType) :
    operand args regs block vals (.instr b index t) =
      match (if b = block then vals else regs b)[index]? with
      | some v => .ok v
      | none => .error .brokenModule := rfl

@[simp] theorem operand_i64val (x : BitVec 64) :
    operand args regs block vals (i64val x) = .ok (.int 64 x) := by
  show Except.ok (Value.int 64 (x.setWidth 64)) = _
  rw [BitVec.setWidth_eq]

@[simp] theorem operand_i8val (x : BitVec 8) :
    operand args regs block vals (i8val x) = .ok (.int 8 x) := by
  show Except.ok (Value.int 8 ((x.signExtend 64).setWidth 8)) = _
  congr 2
  apply BitVec.eq_of_getLsbD_eq
  intro i hi
  rw [BitVec.getLsbD_setWidth, BitVec.getLsbD_signExtend]
  simp [hi, show i < 64 by omega]

@[simp] theorem operand_constInt (bits : Nat) (x : BitVec bits) :
    operand args regs block vals (.constInt bits x) = .ok (.int bits x) := rfl

end Operands

theorem loadElem_map {α β : Type} (f : α → β) (values : List α) (size addr : Nat) :
    loadElem (values.map f) size addr = loadElem values size addr >>= fun x => .ok (f x) := by
  unfold loadElem
  split
  · rw [List.getElem?_map]
    cases values[addr / size]? <;> rfl
  · rfl

/-- A function that follows a computation to a block that returns is called with its result. -/
theorem Function.call_of_follows {τ : Type} {f : Function} {callee : Callee} {args : List Value}
    {memory : Memory} {x : Except Error τ} {result : τ → Value × Memory}
    (h : Follows (f.exec callee args) x
      (fun t l s => ∃ r s', f.exec callee args l s = .ok (.return r, s') ∧
        (r, s'.state.memory) = result t) 0 ⟨fun _ => [], ⟨[], memory⟩⟩) :
    ∃ n, ∀ fuel, n ≤ fuel → f.call callee fuel args memory = x.map result := by
  rcases h.ends with ⟨e, rfl, hends⟩ | ⟨t, r, s', rfl, hresult, hends⟩
  · obtain ⟨n, hn⟩ := hends.run .diverged
    refine ⟨n, fun fuel hfuel => ?_⟩
    rw [Function.call, hn fuel hfuel]
    rfl
  · obtain ⟨n, hn⟩ := hends.run .diverged
    refine ⟨n, fun fuel hfuel => ?_⟩
    rw [Function.call, hn fuel hfuel]
    exact congrArg Except.ok hresult

/-! ## Frames and memory -/

section Runs

variable {α : Type} (toVal : α → Value) (values : List α) (type : IrType) (source dest : Nat)

/-- The memory in which a loop runs. -/
def memoryOf (bitmap : Bitmap) (trace : List Access) : Memory :=
  ⟨type, values.map toVal, bitmap, trace⟩

/-- The values of the first block: the slots, and the pointer that was cast. -/
def entryVals (slots : List Value) : List Value :=
  slots ++ if type = .int 8 then [] else [.ptr (.value source)]

/-- The values of the first block of `<field>_filter`. -/
def filterEntry : List Value :=
  entryVals type source [.ptr (.slot 0), .ptr (.slot 1), .ptr (.slot 2), .void]

/-- The arguments: byte `source` of the value buffer and byte `dest` of the bitmap. -/
def filterArgs (len : BitVec 64) : List Value :=
  [.ptr (.value source), .ptr (.bitmap dest), .int 64 len]

/-- The frame between two bytes: `i` is in its slot. -/
structure AtOuter (t : OuterState) (s : Frame) : Prop where
  regs : s.regs 0 = filterEntry type source
  state : ∃ v w, s.state = ⟨[.int 64 t.i, v, w], memoryOf toVal values type t.bitmap t.trace⟩

/-- The frame between two rows of byte `i`, whose elements begin at byte `src`. -/
structure AtInner (i : BitVec 64) (bitmap : Bitmap) (src : Nat) (t : InnerState) (s : Frame) :
    Prop where
  regs : s.regs 0 = filterEntry type source
  src : (s.regs 2)[2]? = some (.ptr (.value src))
  state : s.state = ⟨[.int 64 i, .int 8 t.j, .int 8 t.tmpBitmap],
    memoryOf toVal values type bitmap t.trace⟩

variable {toVal values type source dest} {predicate : α → Bool} {len : BitVec 64}
variable {callee : Callee} {pname : String}

/-- Execute a block of `<field>_filter`. -/
abbrev filterExec (type : IrType) (predicate : String) (callee : Callee) (args : List Value) :
    Nat → Frame → Except Error (Next Nat Value × Frame) :=
  (Function.mk "" [] none (filterBlocks type predicate)).exec callee args

@[simp] theorem load_value (slots : List Value) (bitmap : Bitmap) (trace : List Access)
    (addr : Nat) :
    (State.mk slots (memoryOf toVal values type bitmap trace)).load type (.value addr) =
      loadElem values type.size addr >>= fun x => .ok (toVal x,
        ⟨slots, memoryOf toVal values type bitmap (trace ++ [.loadElem (addr / type.size)])⟩) := by
  have hcond : type = type ∧ (0 : Int) ≤ addr := ⟨rfl, Int.natCast_nonneg addr⟩
  rw [State.load, Memory.loadValue, memoryOf, if_pos hcond]
  simp only [loadElem_map, Int.toNat_natCast]
  cases loadElem values type.size addr <;> rfl

@[simp] theorem load_bitmap (slots : List Value) (bitmap : Bitmap) (trace : List Access)
    (index : Nat) :
    (State.mk slots (memoryOf toVal values type bitmap trace)).load (.int 8) (.bitmap index) =
      Pefa.loadByte bitmap index >>= fun x => .ok (.int 8 x,
        ⟨slots, memoryOf toVal values type bitmap (trace ++ [.loadByte index])⟩) := by
  simp only [State.load, Memory.loadByte, memoryOf, if_pos (Int.natCast_nonneg index), if_true,
    Int.toNat_natCast]
  cases Pefa.loadByte bitmap index <;> rfl

@[simp] theorem store_bitmap (slots : List Value) (bitmap : Bitmap) (trace : List Access)
    (index : Nat) (x : BitVec 8) :
    (State.mk slots (memoryOf toVal values type bitmap trace)).store (.int 8 x) (.bitmap index) =
      Pefa.storeByte bitmap index x >>= fun bitmap' => .ok
        ⟨slots, memoryOf toVal values type bitmap' (trace ++ [.storeByte index])⟩ := by
  simp only [State.store, Memory.storeByte, memoryOf, if_pos (Int.natCast_nonneg index),
    Int.toNat_natCast, Value.toInt_int, bind_ok]
  cases Pefa.storeByte bitmap index x <;> rfl

@[simp] theorem load_slot (slots : List Value) (memory : Memory) (t : IrType) (index : Nat) :
    (State.mk slots memory).load t (.slot index) =
      match slots[index]? with
      | some v => .ok (v, ⟨slots, memory⟩)
      | none => .error .outOfBounds := rfl

@[simp] theorem store_slot (slots : List Value) (memory : Memory) (v : Value) (index : Nat) :
    (State.mk slots memory).store v (.slot index) =
      if index < slots.length then .ok ⟨slots.set index v, memory⟩ else .error .outOfBounds := rfl

theorem memory_shift (bitmap : Bitmap) (trace : List Access) (n : Nat) :
    { memoryOf toVal values type bitmap trace with
      trace := (memoryOf toVal values type bitmap trace).trace ++ [.shift n] } =
      memoryOf toVal values type bitmap (trace ++ [.shift n]) := rfl

/-! ## The blocks -/

/-- What `filterOuterBody` does after the inner loop. -/
def filterOuterEnd (dest : Nat) (s : OuterState) (inner : InnerState) :
    Except Error OuterState := do
  let index := dest + s.i.toNat
  let destVal ← Pefa.loadByte s.bitmap index
  let bitmap ← Pefa.storeByte s.bitmap index (destVal &&& inner.tmpBitmap)
  .ok { i := s.i + 1#64
        bitmap := bitmap
        trace := inner.trace ++ [.loadByte index, .storeByte index] }

theorem operand_source (index block : Nat) (args vals : List Value) {regs : Nat → List Value}
    {slots : List Value} (hregs : regs 0 = entryVals type source slots)
    (hlen : slots.length = index) (hblock : 0 ≠ block)
    (hargs : args[0]? = some (.ptr (.value source))) :
    operand args regs block vals (sourceOperand type index) = .ok (.ptr (.value source)) := by
  unfold sourceOperand
  by_cases h : type = .int 8
  · rw [if_pos h, operand_arg, hargs]
  · rw [if_neg h, operand_instr, if_neg hblock, hregs, entryVals, if_neg h,
      List.getElem?_append_right (by omega), hlen, Nat.sub_self]
    rfl

variable (dest len callee pname)

/-- The test of the outer loop. -/
theorem outerCond_exec {t : OuterState} {s : Frame} (h : AtOuter toVal values type source t s) :
    ∃ s', filterExec type pname callee (filterArgs source dest len) 1 s =
      .ok (.goto (if t.i.slt (len / 8#64) then 2 else 5), s') ∧
        AtOuter toVal values type source t s' := by
  obtain ⟨regs, state⟩ := s
  obtain ⟨hregs, v, w, rfl⟩ := h
  dsimp only at hregs
  refine ⟨⟨Function.update regs 1
      [.int 64 t.i, .int 64 (len / 8#64), .int 1 (BitVec.ofBool (t.i.slt (len / 8#64)))],
    ⟨[.int 64 t.i, v, w], memoryOf toVal values type t.bitmap t.trace⟩⟩, ?_, ?_, ?_⟩
  · simp [Function.exec, filterBlocks, execInstrs, Instr.exec, Terminator.exec, bind_ok, hregs,
      filterEntry, entryVals, filterArgs, BinOp.apply_udiv, ICmp.apply]
    cases t.i.slt (len / 8#64) <;> rfl
  · simp [hregs]
  · exact ⟨v, w, rfl⟩

/-- The beginning of a byte. -/
theorem outerBody_exec {t : OuterState} {s : Frame} (h : AtOuter toVal values type source t s)
    {src : Nat} (hsrc : (source : Int) + type.size * (t.i * 8#64).toInt = src) :
    ∃ s', filterExec type pname callee (filterArgs source dest len) 2 s =
      .ok (.goto 3, s') ∧
        AtInner toVal values type source t.i t.bitmap src ⟨0#8, 0#8, t.trace⟩ s' := by
  obtain ⟨regs, state⟩ := s
  obtain ⟨hregs, v, w, rfl⟩ := h
  dsimp only at hregs
  have hsource := operand_source 4 2 (filterArgs source dest len)
    [.int 64 t.i, .int 64 (t.i * 8#64)] hregs rfl (by decide) rfl
  refine ⟨⟨Function.update regs 2
      [.int 64 t.i, .int 64 (t.i * 8#64), .ptr (.value src), .void, .void],
    ⟨[.int 64 t.i, .int 8 0#8, .int 8 0#8], memoryOf toVal values type t.bitmap t.trace⟩⟩,
    ?_, ?_, ?_, ?_⟩
  · simp [Function.exec, filterBlocks, execInstrs, Instr.exec, Terminator.exec, bind_ok, hregs,
      hsource, filterEntry, entryVals, Pointer.offset, hsrc, -BitVec.toInt_mul]
  · simp [hregs]
  · simp
  · rfl

/-- The test of the inner loop. -/
theorem innerCond_exec {i : BitVec 64} {bitmap : Bitmap} {src : Nat} {t : InnerState} {s : Frame}
    (h : AtInner toVal values type source i bitmap src t s) :
    ∃ s', filterExec type pname callee (filterArgs source dest len) 3 s =
      .ok (.goto (if t.j.slt 8#8 then 4 else 6), s') ∧
        AtInner toVal values type source i bitmap src t s' := by
  obtain ⟨regs, state⟩ := s
  obtain ⟨hregs, hsrc, rfl⟩ := h
  dsimp only at hregs
  refine ⟨⟨Function.update regs 3 [.int 8 t.j, .int 1 (BitVec.ofBool (t.j.slt 8#8))], _⟩,
    ?_, ?_, ?_, rfl⟩
  · simp [Function.exec, filterBlocks, execInstrs, Instr.exec, Terminator.exec, bind_ok, hregs,
      filterEntry, entryVals, ICmp.apply]
    cases t.j.slt 8#8 <;> rfl
  · simp [hregs]
  · simpa using hsrc

variable {callee pname}

/-- A row: its bit is put into `tmp_bitmap`. -/
theorem innerBody_exec
    (hcall : ∀ x memory,
      callee pname (toVal x) memory = .ok (.int 1 (BitVec.ofBool (predicate x)), memory))
    {i : BitVec 64} {bitmap : Bitmap} {src : Nat} {t : InnerState} {s : Frame} (hj : t.j.toNat < 8)
    (h : AtInner toVal values type source i bitmap src t s) :
    (∀ e, filterInnerBody predicate values type.size src t = .error e →
      filterExec type pname callee (filterArgs source dest len) 4 s = .error e) ∧
    (∀ t', filterInnerBody predicate values type.size src t = .ok t' →
      ∃ s', filterExec type pname callee (filterArgs source dest len) 4 s = .ok (.goto 3, s') ∧
          AtInner toVal values type source i bitmap src t' s') := by
  obtain ⟨regs, state⟩ := s
  obtain ⟨hregs, hsrc, rfl⟩ := h
  dsimp only at hregs hsrc
  obtain ⟨addr, haddr⟩ : ∃ addr, addr = src + type.size * t.j.toNat := ⟨_, rfl⟩
  have haddr' : (src : Int) + type.size * t.j.toInt = addr := by
    rw [BitVec.toInt_eq_toNat_of_lt (by omega), haddr]
    push_cast
    rfl
  have hbody : filterInnerBody predicate values type.size src t =
      loadElem values type.size addr >>= fun x =>
        shlByte ((BitVec.ofBool (predicate x)).setWidth 8) (7#8 - t.j) >>= fun y =>
          .ok ⟨t.j + 1#8, t.tmpBitmap ||| y, t.trace ++ [.loadElem (addr / type.size),
            .shift (7#8 - t.j).toNat]⟩ := by
    rw [haddr]
    rfl
  rw [hbody]
  cases hx : loadElem values type.size addr with
  | error e =>
      refine ⟨fun e' he => ?_, fun t' ht => by cases ht⟩
      cases he
      simp [Function.exec, filterBlocks, execInstrs, Instr.exec, bind_ok, bind_error, hregs, hsrc,
        filterEntry, entryVals, Pointer.offset, haddr', hx]
  | ok x =>
      rw [bind_ok]
      cases hy : shlByte ((BitVec.ofBool (predicate x)).setWidth 8) (7#8 - t.j) with
      | error e =>
          obtain ⟨rfl, hshl⟩ := BinOp.apply_shl_of_error hy
          refine ⟨fun e' he => ?_, fun t' ht => by cases ht⟩
          cases he
          simp [Function.exec, filterBlocks, execInstrs, Instr.exec, bind_ok, bind_error, hregs,
            hsrc, filterEntry, entryVals, Pointer.offset, haddr', hx, hcall, hshl]
      | ok y =>
          have hshl := BinOp.apply_shl_of_ok hy
          refine ⟨fun e' he => (by cases he), fun t' ht => ?_⟩
          cases ht
          refine ⟨⟨Function.update regs 4 [.int 8 t.j, .ptr (.value addr), toVal x,
              .int 1 (BitVec.ofBool (predicate x)),
              .int 8 ((BitVec.ofBool (predicate x)).setWidth 8), .int 8 t.j, .int 8 (7#8 - t.j),
              .int 8 y, .int 8 t.tmpBitmap, .int 8 (t.tmpBitmap ||| y), .void, .int 8 t.j,
              .int 8 (t.j + 1#8), .void],
            ⟨[.int 64 i, .int 8 (t.j + 1#8), .int 8 (t.tmpBitmap ||| y)],
              memoryOf toVal values type bitmap (t.trace ++ [.loadElem (addr / type.size),
                .shift (7#8 - t.j).toNat])⟩⟩, ?_, ?_, ?_, rfl⟩
          · simp [Function.exec, filterBlocks, execInstrs, Instr.exec, Terminator.exec, bind_ok,
              hregs, hsrc, filterEntry, entryVals, Pointer.offset, haddr', hx, hcall, hshl,
              memory_shift, -BitVec.toNat_sub]
          · simp [hregs]
          · simpa using hsrc

variable (callee pname)

/-- The block behind the inner loop: it stores the byte. -/
theorem outerEnd_exec {i : BitVec 64} (hi : i.toNat < 2 ^ 61) {bitmap : Bitmap} {src : Nat}
    {t : InnerState} {s : Frame} (h : AtInner toVal values type source i bitmap src t s) :
    (∀ e, filterOuterEnd dest ⟨i, bitmap, t.trace⟩ t = .error e →
      filterExec type pname callee (filterArgs source dest len) 6 s = .error e) ∧
    (∀ t', filterOuterEnd dest ⟨i, bitmap, t.trace⟩ t = .ok t' →
      ∃ s', filterExec type pname callee (filterArgs source dest len) 6 s = .ok (.goto 1, s') ∧
          AtOuter toVal values type source t' s') := by
  obtain ⟨regs, state⟩ := s
  obtain ⟨hregs, hsrc, rfl⟩ := h
  dsimp only at hregs hsrc
  unfold filterOuterEnd
  dsimp only
  obtain ⟨index, hindex⟩ : ∃ index, index = dest + i.toNat := ⟨_, rfl⟩
  have haddr : (dest : Int) + IrType.size (.int 8) * i.toInt = index := by
    rw [BitVec.toInt_eq_toNat_of_lt (by omega), hindex]
    simp [IrType.size]
  rw [← hindex]
  cases hx : Pefa.loadByte bitmap index with
  | error e =>
      refine ⟨fun e' he => ?_, fun t' ht => by cases ht⟩
      cases he
      simp [Function.exec, filterBlocks, execInstrs, Instr.exec, bind_ok, bind_error, hregs,
        filterEntry, entryVals, filterArgs, Pointer.offset, haddr, hx]
  | ok x =>
      rw [bind_ok]
      cases hy : Pefa.storeByte bitmap index (x &&& t.tmpBitmap) with
      | error e =>
          refine ⟨fun e' he => ?_, fun t' ht => by cases ht⟩
          cases he
          simp [Function.exec, filterBlocks, execInstrs, Instr.exec, bind_ok, bind_error, hregs,
            filterEntry, entryVals, filterArgs, Pointer.offset, haddr, hx, hy]
      | ok bitmap' =>
          refine ⟨fun e' he => (by cases he), fun t' ht => ?_⟩
          cases ht
          refine ⟨⟨Function.update regs 6 [.int 64 i, .ptr (.bitmap index), .int 8 x,
              .int 8 t.tmpBitmap, .int 8 (x &&& t.tmpBitmap), .int 64 i,
              .ptr (.bitmap index), .void, .int 64 i, .int 64 (i + 1#64), .void],
            ⟨[.int 64 (i + 1#64), .int 8 t.j, .int 8 t.tmpBitmap],
              memoryOf toVal values type bitmap' (t.trace ++ [.loadByte index,
                .storeByte index])⟩⟩, ?_, ?_, _, _, rfl⟩
          · simp [Function.exec, filterBlocks, execInstrs, Instr.exec, Terminator.exec, bind_ok,
              hregs, filterEntry, entryVals, filterArgs, Pointer.offset, haddr, hx, hy]
          · simp [hregs]

variable (toVal values type source)

/-- The first block: it makes the slots, and casts the pointer to the values. -/
theorem entry_exec (bitmap : Bitmap) :
    ∃ s', filterExec type pname callee (filterArgs source dest len) 0
        ⟨fun _ => [], ⟨[], memoryOf toVal values type bitmap []⟩⟩ =
      .ok (.goto 1, s') ∧ AtOuter toVal values type source ⟨0#64, bitmap, []⟩ s' := by
  refine ⟨⟨Function.update (fun _ => []) 0 (filterEntry type source),
    ⟨[.int 64 0#64, .void, .void], memoryOf toVal values type bitmap []⟩⟩, ?_, ?_, _, _, rfl⟩
  · by_cases h : type = .int 8
    · simp [Function.exec, filterBlocks, execInstrs, Instr.exec, Terminator.exec, bind_ok,
        filterEntry, entryVals, filterArgs, sourceCast, h]
    · simp [Function.exec, filterBlocks, execInstrs, Instr.exec, Terminator.exec, bind_ok,
        filterEntry, entryVals, filterArgs, sourceCast, h]
  · simp

variable {toVal values type source dest len callee pname}

/-! ## The loops -/

/-- The function does what the inner loop says, and comes to the block behind it. -/
theorem innerLoop_follows
    (hcall : ∀ x memory,
      callee pname (toVal x) memory = .ok (.int 1 (BitVec.ofBool (predicate x)), memory))
    {i : BitVec 64} {bitmap : Bitmap} {src : Nat} {t : InnerState} {s : Frame} (hj : t.j.toNat ≤ 8)
    (h : AtInner toVal values type source i bitmap src t s)
    (hhalts : Halts .diverged (whileLoop .diverged (fun t : InnerState => t.j.slt 8#8)
      (filterInnerBody predicate values type.size src) (2 ^ 8) t)) :
    Follows (filterExec type pname callee (filterArgs source dest len))
      (whileLoop .diverged (fun t : InnerState => t.j.slt 8#8)
        (filterInnerBody predicate values type.size src) (2 ^ 8) t)
      (fun t l s => l = 6 ∧ AtInner toVal values type source i bitmap src t s) 3 s := by
  refine Follows.whileLoop
    (fun t s => t.j.toNat ≤ 8 ∧ AtInner toVal values type source i bitmap src t s)
    (fun t s hinv hcond _ => ?_) (fun t s hinv hcond => ?_) ⟨hj, h⟩ hhalts
  · obtain ⟨hj, h⟩ := hinv
    have hlt : t.j.toNat < 8 := by
      rw [slt_iff (b := 8) (by omega) (by omega)] at hcond
      exact of_decide_eq_true hcond
    obtain ⟨s₁, hexec, h₁⟩ := innerCond_exec dest len callee pname h
    rw [hcond, if_pos rfl] at hexec
    obtain ⟨herror, hok⟩ := innerBody_exec dest len hcall hlt h₁
    refine .goto hexec (.block herror fun t' ht => ?_)
    obtain ⟨s', hexec', h'⟩ := hok t' ht
    refine ⟨3, s', hexec', rfl, ?_, h'⟩
    obtain ⟨x, -, ht⟩ := bind_eq_ok.mp ht
    obtain ⟨y, -, ht⟩ := bind_eq_ok.mp ht
    cases ht
    show (t.j + 1#8).toNat ≤ 8
    rw [BitVec.toNat_add]
    exact (Nat.mod_le _ _).trans hlt
  · obtain ⟨s₁, hexec, h₁⟩ := innerCond_exec dest len callee pname hinv.2
    rw [hcond] at hexec
    exact .goto hexec (.here rfl ⟨rfl, h₁⟩)

theorem filterOuterBody_eq (s : OuterState) :
    filterOuterBody predicate values type.size source dest s =
      whileLoop .diverged (fun t : InnerState => t.j.slt 8#8)
        (filterInnerBody predicate values type.size (source + type.size * (s.i * 8#64).toNat))
        (2 ^ 8) ⟨0#8, 0#8, s.trace⟩ >>= fun t => filterOuterEnd dest ⟨s.i, s.bitmap, t.trace⟩ t :=
  rfl

/-- **The function does what `filterFunc` says**, and comes to the block that returns. -/
theorem outerLoop_follows
    (hcall : ∀ x memory,
      callee pname (toVal x) memory = .ok (.int 1 (BitVec.ofBool (predicate x)), memory))
    (hvalues : values.length < 2 ^ 63) (hsize : 0 < type.size) {t : OuterState} {s : Frame}
    (ht : 8 * t.i.toNat ≤ values.length) (h : AtOuter toVal values type source t s)
    (hhalts : Halts .diverged (whileLoop .diverged (fun t : OuterState => t.i.slt (len / 8#64))
      (filterOuterBody predicate values type.size source dest) (2 ^ 64) t)) :
    Follows (filterExec type pname callee (filterArgs source dest len))
      (whileLoop .diverged (fun t : OuterState => t.i.slt (len / 8#64))
        (filterOuterBody predicate values type.size source dest) (2 ^ 64) t)
      (fun t l s => l = 5 ∧ AtOuter toVal values type source t s) 1 s := by
  refine Follows.whileLoop
    (fun t s => 8 * t.i.toNat ≤ values.length ∧ AtOuter toVal values type source t s)
    (fun t s hinv hcond hhalts => ?_) (fun t s hinv hcond => ?_) ⟨ht, h⟩ hhalts
  · obtain ⟨hi, h⟩ := hinv
    have hlt : t.i.toNat < 2 ^ 61 := by omega
    obtain ⟨s₁, hexec₁, h₁⟩ := outerCond_exec dest len callee pname h
    rw [hcond, if_pos rfl] at hexec₁
    have h8 : (t.i * 8#64).toNat = 8 * t.i.toNat := by
      rw [BitVec.toNat_mul]
      show t.i.toNat * 8 % 2 ^ 64 = _
      omega
    have hsrc : (source : Int) + type.size * (t.i * 8#64).toInt =
        (source + type.size * (t.i * 8#64).toNat : Nat) := by
      rw [BitVec.toInt_eq_toNat_of_lt (by omega)]
      push_cast
      rfl
    obtain ⟨s₂, hexec₂, h₂⟩ := outerBody_exec dest len callee pname h₁ hsrc
    -- a turn that goes through has loaded eight elements more
    have hinc : ∀ t', filterOuterBody predicate values type.size source dest t = .ok t' →
        8 * t'.i.toNat ≤ values.length := by
      intro t' ht'
      obtain ⟨base, hbase⟩ := Nat.dvd_of_mod_eq_zero (filterOuterBody_aligned ht')
      rw [hbase] at ht'
      obtain ⟨hi', -, hle, -⟩ := filterOuterBody_inBounds hsize hlt ht'
      rw [hi', BitVec.toNat_add]
      have := Nat.mod_le (t.i.toNat + (1#64).toNat) (2 ^ 64)
      have h1 : (1#64).toNat = 1 := rfl
      omega
    rw [filterOuterBody_eq] at hinc hhalts ⊢
    refine .goto hexec₁ (.goto hexec₂ ?_)
    refine (innerLoop_follows hcall (Nat.zero_le _) h₂ hhalts.of_bind).bind
      fun u l s₃ hu hpost => ?_
    obtain ⟨rfl, h₃⟩ := hpost
    obtain ⟨herror, hok⟩ := outerEnd_exec dest len callee pname hlt h₃
    refine .block herror fun t' ht' => ?_
    obtain ⟨s', hexec', h'⟩ := hok t' ht'
    refine ⟨1, s', hexec', rfl, hinc t' ?_, h'⟩
    rw [hu]
    exact ht'
  · obtain ⟨s₁, hexec, h₁⟩ := outerCond_exec dest len callee pname hinv.2
    rw [hcond] at hexec
    exact .goto hexec (.here rfl ⟨rfl, h₁⟩)

/-- **A call of `<field>_filter` does what `filterFunc` says**, if calls of the predicate do. -/
theorem filter_call
    (hcall : ∀ x memory,
      callee pname (toVal x) memory = .ok (.int 1 (BitVec.ofBool (predicate x)), memory))
    (hvalues : values.length < 2 ^ 63) (hsize : 0 < type.size) (bitmap : Bitmap)
    (name : String) (params : List IrType) :
    ∃ n, ∀ fuel, n ≤ fuel →
      (Function.mk name params none (filterBlocks type pname)).call callee fuel
          (filterArgs source dest len) (memoryOf toVal values type bitmap []) =
        (filterFunc predicate values type.size source bitmap dest len).map
          fun r => (.void, memoryOf toVal values type r.1 r.2) := by
  refine Function.call_of_follows ?_
  obtain ⟨s₀, hexec, h₀⟩ := entry_exec toVal values type source dest len callee pname bitmap
  refine .goto hexec ?_
  refine (outerLoop_follows hcall hvalues hsize (Nat.zero_le _) h₀
    (filterFunc_halts _ _ _ _).of_bind).bind fun t l s ht hpost => .here rfl ?_
  obtain ⟨rfl, -, v, w, hstate⟩ := hpost
  exact ⟨_, _, rfl, by rw [hstate]⟩

end Runs

end Ir

end Pefa
