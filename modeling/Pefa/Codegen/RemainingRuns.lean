import Pefa.Codegen.LoopRuns

/-!
# Running the loop over a shared byte

The loop that clears the bits of rows in a byte that belongs to two chunks. Its turn is one block;
it is executed in parts, between the accesses at which it can stop.
-/

namespace Pefa

namespace Ir

open ControlFlow WhileLoop

section Remaining

variable {α : Type} (toVal : α → Value) (values : List α) (type : IrType) (source dest : Nat)

/-- The values of the first block of `<field>_filter_remaining`. -/
def remainingEntry : List Value :=
  entryVals type source [.ptr (.slot 0), .void]

def remainingArgs (len bitOffset : BitVec 8) : List Value :=
  [.ptr (.value source), .ptr (.bitmap dest), .int 8 len, .int 8 bitOffset]

/-- The frame between two turns of the loop. -/
structure AtRemaining (t : RemainingState) (s : Frame) : Prop where
  regs : s.regs 0 = remainingEntry type source
  state : s.state = ⟨[.int 8 t.i], memoryOf toVal values type t.bitmap t.trace⟩

/-- Execute a block of `<field>_filter_remaining`. -/
abbrev remainingExec (type : IrType) (predicate : String) (callee : Callee) (args : List Value) :
    Nat → Frame → Except Error (Next Nat Value × Frame) :=
  (Function.mk "" [] none (filterRemainingBlocks type predicate)).exec callee args

variable {toVal values type source dest} {predicate : α → Bool} {len bitOffset : BitVec 8}
variable {callee : Callee} {pname : String}

variable (toVal values type source dest len bitOffset callee pname)

/-- The first block. -/
theorem remainingEntry_exec (bitmap : Bitmap) :
    ∃ s', remainingExec type pname callee (remainingArgs source dest len bitOffset) 0
        ⟨fun _ => [], ⟨[], memoryOf toVal values type bitmap []⟩⟩ =
      .ok (.goto 1, s') ∧ AtRemaining toVal values type source ⟨0#8, bitmap, []⟩ s' := by
  refine ⟨⟨Function.update (fun _ => []) 0 (remainingEntry type source),
    ⟨[.int 8 0#8], memoryOf toVal values type bitmap []⟩⟩, ?_, ?_, rfl⟩
  · by_cases h : type = .int 8
    · simp [Function.exec, filterRemainingBlocks, execInstrs, Instr.exec, Terminator.exec, bind_ok,
        remainingEntry, entryVals, remainingArgs, sourceCast, h]
    · simp [Function.exec, filterRemainingBlocks, execInstrs, Instr.exec, Terminator.exec, bind_ok,
        remainingEntry, entryVals, remainingArgs, sourceCast, h]
  · simp

variable {toVal values type source}

/-- The test of the loop. -/
theorem remainingCond_exec {t : RemainingState} {s : Frame}
    (h : AtRemaining toVal values type source t s) :
    ∃ s', remainingExec type pname callee (remainingArgs source dest len bitOffset) 1 s =
      .ok (.goto (if t.i.slt len then 2 else 3), s') ∧
        AtRemaining toVal values type source t s' := by
  obtain ⟨regs, state⟩ := s
  obtain ⟨hregs, rfl⟩ := h
  dsimp only at hregs
  refine ⟨⟨Function.update regs 1 [.int 8 t.i, .int 1 (BitVec.ofBool (t.i.slt len))], _⟩,
    ?_, ?_, rfl⟩
  · simp [Function.exec, filterRemainingBlocks, execInstrs, Instr.exec, Terminator.exec, bind_ok,
      hregs, remainingEntry, entryVals, remainingArgs, ICmp.apply]
    cases t.i.slt len <;> rfl
  · simp [hregs]

variable {dest len bitOffset callee pname}

theorem filterRemainingBody_eq {t : RemainingState} {addr : Nat}
    (haddr : addr = source + type.size * t.i.toNat) :
    filterRemainingBody predicate values type.size source dest bitOffset t =
      loadElem values type.size addr >>= fun x =>
        shlByte (~~~(BitVec.ofBool (predicate x)).setWidth 8 &&& 1#8) (7#8 - (t.i + bitOffset)) >>=
          fun y => Pefa.loadByte t.bitmap dest >>= fun d =>
            Pefa.storeByte t.bitmap dest (d &&& ~~~y) >>= fun bitmap =>
              .ok ⟨t.i + 1#8, bitmap, t.trace ++ [.loadElem (addr / type.size),
                .shift (7#8 - (t.i + bitOffset)).toNat, .loadByte dest, .storeByte dest]⟩ := by
  rw [haddr]
  rfl

/-! ## The body of the loop, in parts -/

/-- The address of the element, … -/
def addrInstrs (type : IrType) : List Instr :=
  [.load (.int 8) (.instr 0 0 (.ptr (.int 8))),
    .getElementPtr type (sourceOperand type 2) (.instr 2 0 (.int 8))]

/-- … the bit of the row and how far it is shifted, after the load of the element, … -/
def bitInstrs (type : IrType) (predicate : String) : List Instr :=
  [.call predicate (.instr 2 2 type),
    .zext 8 (.instr 2 3 (.int 1)),
    .binary .xor (.instr 2 4 (.int 8)) (.constInt 8 (BitVec.allOnes 8)),
    .binary .and (.instr 2 5 (.int 8)) (i8val 1),
    .load (.int 8) (.instr 0 0 (.ptr (.int 8))),
    .binary .add (.instr 2 7 (.int 8)) (.arg 3 (.int 8)),
    .binary .sub (i8val 7) (.instr 2 8 (.int 8))]

/-- … the mask, … -/
def maskInstrs : List Instr :=
  [.binary .shl (.instr 2 6 (.int 8)) (.instr 2 9 (.int 8)),
    .binary .xor (.instr 2 10 (.int 8)) (.constInt 8 (BitVec.allOnes 8))]

/-- … the byte of the bitmap, … -/
def byteInstrs : List Instr :=
  [.load (.int 8) (.arg 1 (.ptr (.int 8))),
    .binary .and (.instr 2 12 (.int 8)) (.instr 2 11 (.int 8))]

/-- … and after its store the counter. -/
def countInstrs : List Instr :=
  [.load (.int 8) (.instr 0 0 (.ptr (.int 8))),
    .binary .add (.instr 2 15 (.int 8)) (i8val 1),
    .store (.instr 2 16 (.int 8)) (.instr 0 0 (.ptr (.int 8)))]

def bodyInstrs (type : IrType) (predicate : String) : List Instr :=
  addrInstrs type ++ .load type (.instr 2 1 (.ptr type)) :: (bitInstrs type predicate ++
    (maskInstrs ++ (byteInstrs ++
      .store (.instr 2 13 (.int 8)) (.arg 1 (.ptr (.int 8))) :: countInstrs)))

/-- The body is its parts. -/
theorem remainingBody_eq (args : List Value) (regs : Nat → List Value) (state : State) :
    remainingExec type pname callee args 2 ⟨regs, state⟩ =
      execInstrs callee args regs 2 (bodyInstrs type pname) [] state >>= fun r =>
        .ok (.goto 1, ⟨Function.update regs 2 r.1, r.2⟩) := rfl

/-- The values of the body's instructions, up to the amount of the shift. -/
def remainingVals (i bitOffset : BitVec 8) (addr : Nat) (v : Value) (bit : Bool) : List Value :=
  [.int 8 i, .ptr (.value addr), v, .int 1 (BitVec.ofBool bit),
    .int 8 ((BitVec.ofBool bit).setWidth 8), .int 8 (~~~(BitVec.ofBool bit).setWidth 8),
    .int 8 (~~~(BitVec.ofBool bit).setWidth 8 &&& 1#8), .int 8 i, .int 8 (i + bitOffset),
    .int 8 (7#8 - (i + bitOffset))]

section Body

variable {regs : Nat → List Value} {bitmap : Bitmap} {trace : List Access} {i : BitVec 8}
variable {addr : Nat}

/-- The address of the element. -/
theorem remainingAddr_exec (hregs : regs 0 = remainingEntry type source)
    (haddr : (source : Int) + type.size * i.toInt = addr) :
    execInstrs callee (remainingArgs source dest len bitOffset) regs 2
        (addrInstrs type) []
        ⟨[.int 8 i], memoryOf toVal values type bitmap trace⟩ =
      .ok ([.int 8 i, .ptr (.value addr)],
        ⟨[.int 8 i], memoryOf toVal values type bitmap trace⟩) := by
  have hsource := operand_source 2 2
    [.ptr (.value source), .ptr (.bitmap dest), .int 8 len, .int 8 bitOffset] [.int 8 i] hregs rfl
    (by decide) rfl
  simp [addrInstrs, execInstrs, Instr.exec, bind_ok, hregs, hsource, remainingEntry, remainingArgs,
    entryVals, Pointer.offset, haddr]

/-- The bit of the row, and how far it is shifted. -/
theorem remainingBit_exec (hregs : regs 0 = remainingEntry type source)
    (hcall : ∀ x memory,
      callee pname (toVal x) memory = .ok (.int 1 (BitVec.ofBool (predicate x)), memory)) (x : α) :
    execInstrs callee (remainingArgs source dest len bitOffset) regs 2
        (bitInstrs type pname) ([.int 8 i, .ptr (.value addr)] ++ [toVal x])
        ⟨[.int 8 i], memoryOf toVal values type bitmap trace⟩ =
      .ok (remainingVals i bitOffset addr (toVal x) (predicate x),
        ⟨[.int 8 i], memoryOf toVal values type bitmap trace⟩) := by
  simp [bitInstrs, execInstrs, Instr.exec, bind_ok, hregs, hcall, remainingEntry, remainingArgs,
    entryVals, remainingVals, -BitVec.reduceAllOnes]

/-- The bit in its place, turned around, and the byte of the bitmap. -/
theorem remainingMask_exec (v : Value) (bit : Bool)
    {y : BitVec 8} (hy : shlByte (~~~(BitVec.ofBool bit).setWidth 8 &&& 1#8)
      (7#8 - (i + bitOffset)) = .ok y) :
    execInstrs callee (remainingArgs source dest len bitOffset) regs 2
        maskInstrs (remainingVals i bitOffset addr v bit)
        ⟨[.int 8 i], memoryOf toVal values type bitmap trace⟩ =
      .ok (remainingVals i bitOffset addr v bit ++ [.int 8 y, .int 8 (~~~y)],
        ⟨[.int 8 i], memoryOf toVal values type bitmap
          (trace ++ [.shift (7#8 - (i + bitOffset)).toNat])⟩) := by
  have hshl := BinOp.apply_shl_of_ok hy
  simp only [maskInstrs, execInstrs, Instr.exec, operand_instr, operand_constInt, bind_ok,
    remainingVals, hshl, List.getElem?_cons_succ, List.getElem?_cons_zero, List.cons_append,
    List.nil_append, reduceIte, Value.toInt_int, BinOp.apply_xor, BitVec.xor_allOnes, reduceCtorEq,
    memory_shift]

/-- The byte of the bitmap, with the bit cleared or not. -/
theorem remainingLoad_exec (v : Value) (bit : Bool) {y d : BitVec 8}
    (hd : Pefa.loadByte bitmap dest = .ok d) :
    execInstrs callee (remainingArgs source dest len bitOffset) regs 2
        byteInstrs (remainingVals i bitOffset addr v bit ++ [.int 8 y, .int 8 (~~~y)])
        ⟨[.int 8 i], memoryOf toVal values type bitmap trace⟩ =
      .ok (remainingVals i bitOffset addr v bit ++
          [.int 8 y, .int 8 (~~~y), .int 8 d, .int 8 (d &&& ~~~y)],
        ⟨[.int 8 i], memoryOf toVal values type bitmap (trace ++ [.loadByte dest])⟩) := by
  simp [byteInstrs, execInstrs, Instr.exec, bind_ok, remainingVals, remainingArgs, hd]

/-- The counter. -/
theorem remainingCount_exec (hregs : regs 0 = remainingEntry type source) (v : Value) (bit : Bool)
    (y d : BitVec 8) :
    execInstrs callee (remainingArgs source dest len bitOffset) regs 2
        countInstrs (remainingVals i bitOffset addr v bit ++
          [.int 8 y, .int 8 (~~~y), .int 8 d, .int 8 (d &&& ~~~y)] ++ [.void])
        ⟨[.int 8 i], memoryOf toVal values type bitmap trace⟩ =
      .ok (remainingVals i bitOffset addr v bit ++
          [.int 8 y, .int 8 (~~~y), .int 8 d, .int 8 (d &&& ~~~y), .void, .int 8 i,
            .int 8 (i + 1#8), .void],
        ⟨[.int 8 (i + 1#8)], memoryOf toVal values type bitmap trace⟩) := by
  simp [countInstrs, execInstrs, Instr.exec, bind_ok, remainingVals, hregs, remainingEntry,
    entryVals]

end Body

variable (dest len bitOffset)

/-- A row: its bit in the byte is cleared or not. -/
theorem remainingBody_exec
    (hcall : ∀ x memory,
      callee pname (toVal x) memory = .ok (.int 1 (BitVec.ofBool (predicate x)), memory))
    {t : RemainingState} {s : Frame} (hi : t.i.toNat < 127)
    (h : AtRemaining toVal values type source t s) :
    (∀ e, filterRemainingBody predicate values type.size source dest bitOffset t = .error e →
      remainingExec type pname callee (remainingArgs source dest len bitOffset) 2 s = .error e) ∧
    (∀ t', filterRemainingBody predicate values type.size source dest bitOffset t = .ok t' →
      ∃ s', remainingExec type pname callee (remainingArgs source dest len bitOffset) 2 s =
          .ok (.goto 1, s') ∧ AtRemaining toVal values type source t' s') := by
  obtain ⟨regs, state⟩ := s
  obtain ⟨hregs, rfl⟩ := h
  dsimp only at hregs
  obtain ⟨addr, haddr⟩ : ∃ addr, addr = source + type.size * t.i.toNat := ⟨_, rfl⟩
  have haddr' : (source : Int) + type.size * t.i.toInt = addr := by
    rw [BitVec.toInt_eq_toNat_of_lt (by omega), haddr]
    push_cast
    rfl
  rw [filterRemainingBody_eq haddr, remainingBody_eq, bodyInstrs,
    execInstrs_trans (remainingAddr_exec hregs haddr')]
  cases hx : loadElem values type.size addr with
  | error e =>
      have hload : (Instr.load type (.instr 2 1 (.ptr type))).exec callee
          (operand (remainingArgs source dest len bitOffset) regs 2
            [.int 8 t.i, .ptr (.value addr)])
          ⟨[.int 8 t.i], memoryOf toVal values type t.bitmap t.trace⟩ = .error e := by
        simp [Instr.exec, hx, bind_ok, bind_error]
      rw [execInstrs_error hload, bind_error, bind_error]
      exact ⟨fun e' he => (by cases he; rfl), fun t' ht => (by cases ht)⟩
  | ok x =>
      have hload : (Instr.load type (.instr 2 1 (.ptr type))).exec callee
          (operand (remainingArgs source dest len bitOffset) regs 2
            [.int 8 t.i, .ptr (.value addr)])
          ⟨[.int 8 t.i], memoryOf toVal values type t.bitmap t.trace⟩ =
            .ok (toVal x, ⟨[.int 8 t.i], memoryOf toVal values type t.bitmap
              (t.trace ++ [.loadElem (addr / type.size)])⟩) := by
        simp [Instr.exec, hx, bind_ok]
      rw [execInstrs_ok hload, execInstrs_trans (remainingBit_exec hregs hcall x), bind_ok]
      cases hy : shlByte (~~~(BitVec.ofBool (predicate x)).setWidth 8 &&& 1#8)
          (7#8 - (t.i + bitOffset)) with
      | error e =>
          rw [maskInstrs, List.cons_append, execInstrs_error (exec_shl_error rfl rfl hy),
            bind_error, bind_error]
          exact ⟨fun e' he => (by cases he; rfl), fun t' ht => (by cases ht)⟩
      | ok y =>
          rw [execInstrs_trans (remainingMask_exec (toVal x) (predicate x) hy), bind_ok]
          cases hd : Pefa.loadByte t.bitmap dest with
          | error e =>
              have hload : (Instr.load (.int 8) (.arg 1 (.ptr (.int 8)))).exec callee
                  (operand (remainingArgs source dest len bitOffset) regs 2
                    (remainingVals t.i bitOffset addr (toVal x) (predicate x) ++
                      [.int 8 y, .int 8 (~~~y)]))
                  ⟨[.int 8 t.i], memoryOf toVal values type t.bitmap
                    (t.trace ++ [.loadElem (addr / type.size)] ++
                      [.shift (7#8 - (t.i + bitOffset)).toNat])⟩ = .error e := by
                simp [Instr.exec, remainingArgs, hd, bind_ok, bind_error]
              rw [byteInstrs, List.cons_append, execInstrs_error hload, bind_error, bind_error]
              exact ⟨fun e' he => (by cases he; rfl), fun t' ht => (by cases ht)⟩
          | ok d =>
              rw [execInstrs_trans (remainingLoad_exec (toVal x) (predicate x) hd), bind_ok]
              cases hb : Pefa.storeByte t.bitmap dest (d &&& ~~~y) with
              | error e =>
                  have hstore : (Instr.store (.instr 2 13 (.int 8)) (.arg 1 (.ptr (.int 8)))).exec
                      callee (operand (remainingArgs source dest len bitOffset) regs 2
                        (remainingVals t.i bitOffset addr (toVal x) (predicate x) ++
                          [.int 8 y, .int 8 (~~~y), .int 8 d, .int 8 (d &&& ~~~y)]))
                      ⟨[.int 8 t.i], memoryOf toVal values type t.bitmap
                        (t.trace ++ [.loadElem (addr / type.size)] ++
                          [.shift (7#8 - (t.i + bitOffset)).toNat] ++ [.loadByte dest])⟩ =
                        .error e := by
                    simp [Instr.exec, remainingArgs, remainingVals, hb, bind_ok, bind_error]
                  rw [execInstrs_error hstore, bind_error, bind_error]
                  exact ⟨fun e' he => (by cases he; rfl), fun t' ht => (by cases ht)⟩
              | ok bitmap =>
                  have hstore : (Instr.store (.instr 2 13 (.int 8)) (.arg 1 (.ptr (.int 8)))).exec
                      callee (operand (remainingArgs source dest len bitOffset) regs 2
                        (remainingVals t.i bitOffset addr (toVal x) (predicate x) ++
                          [.int 8 y, .int 8 (~~~y), .int 8 d, .int 8 (d &&& ~~~y)]))
                      ⟨[.int 8 t.i], memoryOf toVal values type t.bitmap
                        (t.trace ++ [.loadElem (addr / type.size)] ++
                          [.shift (7#8 - (t.i + bitOffset)).toNat] ++ [.loadByte dest])⟩ =
                        .ok (.void, ⟨[.int 8 t.i], memoryOf toVal values type bitmap
                          (t.trace ++ [.loadElem (addr / type.size)] ++
                            [.shift (7#8 - (t.i + bitOffset)).toNat] ++ [.loadByte dest] ++
                            [.storeByte dest])⟩) := by
                    simp [Instr.exec, remainingArgs, remainingVals, hb, bind_ok]
                  rw [execInstrs_ok hstore, remainingCount_exec hregs (toVal x) (predicate x) y d,
                    bind_ok, bind_ok]
                  refine ⟨fun e' he => (by cases he), fun t' ht => ?_⟩
                  cases ht
                  refine ⟨_, rfl, ?_, ?_⟩
                  · simp [hregs]
                  · simp

variable {dest len bitOffset}

/-! ## The loop -/

/-- **The function does what `filterRemainingFunc` says**, and comes to the block that returns. -/
theorem remainingLoop_follows
    (hcall : ∀ x memory,
      callee pname (toVal x) memory = .ok (.int 1 (BitVec.ofBool (predicate x)), memory))
    {t : RemainingState} {s : Frame} (ht : t.i.toNat ≤ 127)
    (h : AtRemaining toVal values type source t s)
    (hhalts : Halts .diverged (whileLoop .diverged (fun t : RemainingState => t.i.slt len)
      (filterRemainingBody predicate values type.size source dest bitOffset) (2 ^ 8) t)) :
    Follows (remainingExec type pname callee (remainingArgs source dest len bitOffset))
      (whileLoop .diverged (fun t : RemainingState => t.i.slt len)
        (filterRemainingBody predicate values type.size source dest bitOffset) (2 ^ 8) t)
      (fun t l s => l = 3 ∧ AtRemaining toVal values type source t s) 1 s := by
  refine Follows.whileLoop
    (fun t s => t.i.toNat ≤ 127 ∧ AtRemaining toVal values type source t s)
    (fun t s hinv hcond _ => ?_) (fun t s hinv hcond => ?_) ⟨ht, h⟩ hhalts
  · obtain ⟨hi, h⟩ := hinv
    -- the counter is signed, so it is below the bound only up to 126
    have hlt : t.i.toNat < 127 := by
      have hslt := BitVec.slt_iff_toInt_lt.mp hcond
      rw [BitVec.toInt_eq_toNat_of_lt (by omega)] at hslt
      have := BitVec.two_mul_toInt_lt (x := len)
      omega
    obtain ⟨s₁, hexec, h₁⟩ := remainingCond_exec dest len bitOffset callee pname h
    rw [hcond, if_pos rfl] at hexec
    obtain ⟨herror, hok⟩ := remainingBody_exec dest len bitOffset hcall hlt h₁
    refine .goto hexec (.block herror fun t' ht => ?_)
    obtain ⟨s', hexec', h'⟩ := hok t' ht
    refine ⟨1, s', hexec', rfl, ?_, h'⟩
    obtain ⟨x, -, ht⟩ := bind_eq_ok.mp ht
    obtain ⟨y, -, ht⟩ := bind_eq_ok.mp ht
    obtain ⟨d, -, ht⟩ := bind_eq_ok.mp ht
    obtain ⟨b, -, ht⟩ := bind_eq_ok.mp ht
    cases ht
    show (t.i + 1#8).toNat ≤ 127
    rw [BitVec.toNat_add]
    exact (Nat.mod_le _ _).trans hlt
  · obtain ⟨s₁, hexec, h₁⟩ := remainingCond_exec dest len bitOffset callee pname hinv.2
    rw [hcond] at hexec
    exact .goto hexec (.here rfl ⟨rfl, h₁⟩)

/-- **A call of `<field>_filter_remaining` does what `filterRemainingFunc` says**, if calls of the
predicate do. -/
theorem filterRemaining_call
    (hcall : ∀ x memory,
      callee pname (toVal x) memory = .ok (.int 1 (BitVec.ofBool (predicate x)), memory))
    (bitmap : Bitmap) (name : String) (params : List IrType) :
    ∃ n, ∀ fuel, n ≤ fuel →
      (Function.mk name params none (filterRemainingBlocks type pname)).call callee fuel
          (remainingArgs source dest len bitOffset) (memoryOf toVal values type bitmap []) =
        (filterRemainingFunc predicate values type.size source bitmap dest len bitOffset).map
          fun r => (.void, memoryOf toVal values type r.1 r.2) := by
  refine Function.call_of_follows ?_
  obtain ⟨s₀, hexec, h₀⟩ := remainingEntry_exec toVal values type source dest len bitOffset callee
    pname bitmap
  refine .goto hexec ?_
  refine (remainingLoop_follows hcall (Nat.zero_le _) h₀
    (filterRemainingFunc_halts _ _ _ _ _).of_bind).bind fun t l s ht hpost => .here rfl ?_
  obtain ⟨rfl, -, hstate⟩ := hpost
  exact ⟨_, _, rfl, by rw [hstate]⟩

end Remaining

end Ir

end Pefa
