import Pefa.Codegen.FilterCode

/-!
# The code of the loops

The two loops do not depend on the expression, and on the field only through its type: an argument
that points to bytes is cast to a pointer to values, unless the values are bytes. Here is what their
generators emit, as it is printed of a module; the generators are run on the builder to see that it
is what they emit.
-/

namespace Pefa

namespace Ir

open ControlFlow

/-! ## The generated functions -/

/-- The pointer to the elements of the value buffer: the argument, or the argument cast. -/
def sourceOperand (type : IrType) (index : Nat) : Operand :=
  if type = .int 8 then .arg 0 (.ptr (.int 8)) else .instr 0 index (.ptr type)

/-- The cast of the argument, where it has another type. -/
def sourceCast (type : IrType) : List Instr :=
  if type = .int 8 then [] else [.bitcast (.ptr type) (.arg 0 (.ptr (.int 8)))]

/-- The blocks of `<field>_filter`. -/
def filterBlocks (type : IrType) (predicate : String) : List BasicBlock :=
  let i := .instr 0 0 (.ptr (.int 64))
  let j := .instr 0 1 (.ptr (.int 8))
  let tmpBitmap := .instr 0 2 (.ptr (.int 8))
  [⟨"body",
      [.alloca (.int 64), .alloca (.int 8), .alloca (.int 8), .store (i64val 0) i] ++
        sourceCast type,
      some (.br 1)⟩,
    ⟨"outerloop.cond",
      [.load (.int 64) i,
        .binary .udiv (.arg 2 (.int 64)) (i64val 8),
        .icmp .slt (.instr 1 0 (.int 64)) (.instr 1 1 (.int 64))],
      some (.condBr (.instr 1 2 (.int 1)) 2 5)⟩,
    ⟨"outerloop.body",
      [.load (.int 64) i,
        .binary .mul (.instr 2 0 (.int 64)) (i64val 8),
        .getElementPtr type (sourceOperand type 4) (.instr 2 1 (.int 64)),
        .store (i8val 0) tmpBitmap,
        .store (i8val 0) j],
      some (.br 3)⟩,
    ⟨"innerloop.cond",
      [.load (.int 8) j,
        .icmp .slt (.instr 3 0 (.int 8)) (i8val 8)],
      some (.condBr (.instr 3 1 (.int 1)) 4 6)⟩,
    ⟨"innedloop.body",
      [.load (.int 8) j,
        .getElementPtr type (.instr 2 2 (.ptr type)) (.instr 4 0 (.int 8)),
        .load type (.instr 4 1 (.ptr type)),
        .call predicate (.instr 4 2 type),
        .zext 8 (.instr 4 3 (.int 1)),
        .load (.int 8) j,
        .binary .sub (i8val 7) (.instr 4 5 (.int 8)),
        .binary .shl (.instr 4 4 (.int 8)) (.instr 4 6 (.int 8)),
        .load (.int 8) tmpBitmap,
        .binary .or (.instr 4 8 (.int 8)) (.instr 4 7 (.int 8)),
        .store (.instr 4 9 (.int 8)) tmpBitmap,
        .load (.int 8) j,
        .binary .add (.instr 4 11 (.int 8)) (i8val 1),
        .store (.instr 4 12 (.int 8)) j],
      some (.br 3)⟩,
    ⟨"outerloop.end", [], some (.ret none)⟩,
    ⟨"innerloop.end",
      [.load (.int 64) i,
        .getElementPtr (.int 8) (.arg 1 (.ptr (.int 8))) (.instr 6 0 (.int 64)),
        .load (.int 8) (.instr 6 1 (.ptr (.int 8))),
        .load (.int 8) tmpBitmap,
        .binary .and (.instr 6 2 (.int 8)) (.instr 6 3 (.int 8)),
        .load (.int 64) i,
        .getElementPtr (.int 8) (.arg 1 (.ptr (.int 8))) (.instr 6 5 (.int 64)),
        .store (.instr 6 4 (.int 8)) (.instr 6 6 (.ptr (.int 8))),
        .load (.int 64) i,
        .binary .add (.instr 6 8 (.int 64)) (i64val 1),
        .store (.instr 6 9 (.int 64)) i],
      some (.br 1)⟩]

/-- The blocks of `<field>_filter_remaining`. -/
def filterRemainingBlocks (type : IrType) (predicate : String) : List BasicBlock :=
  let i := .instr 0 0 (.ptr (.int 8))
  [⟨"body", [.alloca (.int 8), .store (i8val 0) i] ++ sourceCast type, some (.br 1)⟩,
    ⟨"loop.cond",
      [.load (.int 8) i,
        .icmp .slt (.instr 1 0 (.int 8)) (.arg 2 (.int 8))],
      some (.condBr (.instr 1 1 (.int 1)) 2 3)⟩,
    ⟨"loop.body",
      [.load (.int 8) i,
        .getElementPtr type (sourceOperand type 2) (.instr 2 0 (.int 8)),
        .load type (.instr 2 1 (.ptr type)),
        .call predicate (.instr 2 2 type),
        .zext 8 (.instr 2 3 (.int 1)),
        .binary .xor (.instr 2 4 (.int 8)) (.constInt 8 (BitVec.allOnes 8)),
        .binary .and (.instr 2 5 (.int 8)) (i8val 1),
        .load (.int 8) i,
        .binary .add (.instr 2 7 (.int 8)) (.arg 3 (.int 8)),
        .binary .sub (i8val 7) (.instr 2 8 (.int 8)),
        .binary .shl (.instr 2 6 (.int 8)) (.instr 2 9 (.int 8)),
        .binary .xor (.instr 2 10 (.int 8)) (.constInt 8 (BitVec.allOnes 8)),
        .load (.int 8) (.arg 1 (.ptr (.int 8))),
        .binary .and (.instr 2 12 (.int 8)) (.instr 2 11 (.int 8)),
        .store (.instr 2 13 (.int 8)) (.arg 1 (.ptr (.int 8))),
        .load (.int 8) i,
        .binary .add (.instr 2 15 (.int 8)) (i8val 1),
        .store (.instr 2 16 (.int 8)) i],
      some (.br 1)⟩,
    ⟨"loop.end", [], some (.ret none)⟩]

/-! ## What is generated -/

theorem emit_bind {α β : Type} (m : Emit α) (f : α → Emit β) (b : Builder) :
    (m >>= f) b = m b >>= fun r => f r.1 r.2 := rfl

theorem emit_pure {α : Type} (a : α) (b : Builder) : (pure a : Emit α) b = .ok (a, b) := rfl

theorem emit_lift {α : Type} (a : α) : (liftM (Except.ok a : Except Error α) : Emit α) = pure a :=
  rfl

theorem createBasicBlock_apply (name : String) (b : Builder) : createBasicBlock name b =
    .ok (b.blocks.length, { b with blocks := b.blocks ++ [⟨name, [], none⟩] }) := rfl

theorem setInsertPoint_apply (label : Nat) (b : Builder) :
    setInsertPoint label b = .ok ((), { b with insertBlock := label }) := rfl

theorem insert_apply (i : Instr) (t : IrType) (b : Builder) : insert i t b =
    .ok (.instr b.insertBlock b.nextIndex t,
      b.modifyBlock fun block => { block with instrs := block.instrs ++ [i] }) := rfl

theorem terminate_apply (t : Terminator) (b : Builder) : terminate t b =
    .ok ((), b.modifyBlock fun block => { block with terminator := some t }) := rfl

theorem type_arg (index : Nat) (t : IrType) : (Operand.arg index t).type = t := rfl

theorem type_instr (block index : Nat) (t : IrType) : (Operand.instr block index t).type = t := rfl

theorem createIntCast_instr (block index : Nat) : createIntCast (.instr block index (.int 1)) 8 =
    insert (.zext 8 (.instr block index (.int 1))) (.int 8) := rfl

theorem type_i8val (x : BitVec 8) : (i8val x).type = .int 8 := rfl

theorem type_sourceOperand (type : IrType) (index : Nat) :
    (sourceOperand type index).type = .ptr type := by
  unfold sourceOperand
  split
  · next h =>
      rw [h]
      rfl
  · rfl

/-- The cast of the first argument, at the end of the first block. -/
theorem createPointerCast_source (type : IrType) (name : String) (instrs : List Instr)
    (terminator : Option Terminator) (blocks : List BasicBlock) :
    createPointerCast (.arg 0 (.ptr (.int 8))) (.ptr type)
        ⟨⟨name, instrs, terminator⟩ :: blocks, 0⟩ =
      .ok (sourceOperand type instrs.length,
        ⟨⟨name, instrs ++ sourceCast type, terminator⟩ :: blocks, 0⟩) := by
  unfold createPointerCast sourceOperand sourceCast
  by_cases h : type = .int 8
  · subst h
    simp only [if_true, List.append_nil]
    rfl
  · have hne : ¬ (Operand.arg 0 (.ptr (.int 8))).type = .ptr type := by
      intro heq
      cases heq
      exact h rfl
    rw [if_neg hne, if_neg h, if_neg h]
    rfl

section Generated

variable {field : Field} {type : IrType} {m : Module} {predicate : Function}

/-- **What `gen_filter_func` emits.** -/
theorem genFilterFunc_eq (htype : fromArrow field.type = .ok type)
    (hget : m.getFunction (predicateName field) = some predicate)
    (hret : predicate.returnType = some (.int 1)) :
    genFilterFunc field m = .ok { m with
      functions := m.functions ++ [⟨filterName field, [.ptr (.int 8), .ptr (.int 8), .int 64],
        none, filterBlocks type predicate.name⟩] } := by
  simp only [genFilterFunc, ptrFromArrow, htype, hget, Except.map_ok, emit_lift, pure_bind,
    createFunction, filterBlocks, hret, emit_bind, emit_pure, createBasicBlock_apply,
    setInsertPoint_apply, insert_apply, terminate_apply, type_i8val, createPointerCast_source,
    type_sourceOperand,
    createAlloca, createLoad, createStore, createInBoundsGEP, createBinary, createICmp,
    createIntCast_instr, createCall, createBr, createCondBr, createRetVoid, pointee, type_arg,
    type_instr, Builder.modifyBlock, Builder.nextIndex, bind_ok, deref, List.nil_append,
    List.cons_append, List.length_cons, List.length_nil, List.modify_zero_cons,
    List.modify_succ_cons, List.getElem?_cons_zero, List.getElem?_cons_succ, Nat.reduceAdd]

/-- **What `gen_filter_remaining_func` emits.** -/
theorem genFilterRemainingFunc_eq (htype : fromArrow field.type = .ok type)
    (hget : m.getFunction (predicateName field) = some predicate)
    (hret : predicate.returnType = some (.int 1)) :
    genFilterRemainingFunc field m = .ok { m with
      functions := m.functions ++ [⟨filterRemainingName field,
        [.ptr (.int 8), .ptr (.int 8), .int 8, .int 8], none,
        filterRemainingBlocks type predicate.name⟩] } := by
  simp only [genFilterRemainingFunc, ptrFromArrow, htype, hget, Except.map_ok, emit_lift, pure_bind,
    createFunction, filterRemainingBlocks, hret, emit_bind, emit_pure, createBasicBlock_apply,
    setInsertPoint_apply, insert_apply, terminate_apply, type_i8val, createPointerCast_source,
    type_sourceOperand,
    createAlloca, createLoad, createStore, createInBoundsGEP, createBinary, createNot, createICmp,
    createIntCast_instr, createCall, createBr, createCondBr, createRetVoid, pointee, type_arg,
    type_instr, Builder.modifyBlock, Builder.nextIndex, bind_ok, deref, List.nil_append,
    List.cons_append, List.length_cons, List.length_nil, List.modify_zero_cons,
    List.modify_succ_cons, List.getElem?_cons_zero, List.getElem?_cons_succ, Nat.reduceAdd]

end Generated

end Ir

end Pefa
