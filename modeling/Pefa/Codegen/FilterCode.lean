import Pefa.Codegen.Ir
import Pefa.Jit.Jit

/-!
# Generating the code of a kernel

`FitlerKernelImpl::compile` fills a module with three functions: the predicate, which the visitor of
the expression emits instruction by instruction, and the two loops around it. The generators are
translated line by line; what they call of `llvm::IRBuilder` comes first.

Where the arguments of a call are themselves calls of the builder, C++ leaves open which is made
first. Here it is the one on the left; nothing that such calls emit depends on another.
-/

namespace Pefa

namespace Ir

/-! ## `llvm::IRBuilder` -/

/-- The blocks of the function that is generated, and the one that instructions are appended to. -/
structure Builder where
  blocks : List BasicBlock
  insertBlock : Nat

abbrev Emit := StateT Builder (Except Error)

namespace Builder

def modifyBlock (b : Builder) (f : BasicBlock → BasicBlock) : Builder :=
  { b with blocks := b.blocks.modify b.insertBlock f }

/-- The place of the next instruction in its block. -/
def nextIndex (b : Builder) : Nat :=
  match b.blocks[b.insertBlock]? with
  | some block => block.instrs.length
  | none => 0

end Builder

/-- `llvm::BasicBlock::Create` -/
def createBasicBlock (name : String) : Emit Nat := fun b =>
  .ok (b.blocks.length, { b with blocks := b.blocks ++ [⟨name, [], none⟩] })

def setInsertPoint (label : Nat) : Emit Unit := fun b => .ok ((), { b with insertBlock := label })

/-- Append an instruction whose value has a type. -/
def insert (i : Instr) (type : IrType) : Emit Operand := fun b =>
  .ok (.instr b.insertBlock b.nextIndex type,
    b.modifyBlock fun block => { block with instrs := block.instrs ++ [i] })

def terminate (t : Terminator) : Emit Unit := fun b =>
  .ok ((), b.modifyBlock fun block => { block with terminator := some t })

/-- `getPointerElementType` -/
def pointee : IrType → Emit IrType
  | .ptr type => pure type
  | _ => fun _ => .error .assertFailed

def createAlloca (type : IrType) : Emit Operand := insert (.alloca type) (.ptr type)

def createLoad (ptr : Operand) : Emit Operand := do
  let type ← pointee ptr.type
  insert (.load type ptr) type

def createStore (value ptr : Operand) : Emit Unit := do
  let _ ← insert (.store value ptr) value.type

def createInBoundsGEP (ptr index : Operand) : Emit Operand := do
  let type ← pointee ptr.type
  insert (.getElementPtr type ptr index) ptr.type

def createBinary (op : BinOp) (lhs rhs : Operand) : Emit Operand :=
  insert (.binary op lhs rhs) lhs.type

/-- The exclusive or with all ones. -/
def createNot (value : Operand) : Emit Operand :=
  match value.type with
  | .int bits => createBinary .xor value (.constInt bits (BitVec.allOnes bits))
  | _ => fun _ => .error .assertFailed

def createICmp (pred : ICmp) (lhs rhs : Operand) : Emit Operand :=
  insert (.icmp pred lhs rhs) (.int 1)

def createFCmp (pred : FCmp) (lhs rhs : Operand) : Emit Operand :=
  insert (.fcmp pred lhs rhs) (.int 1)

/-- `CreateIntCast` without a sign, to a type that is not narrower. -/
def createIntCast (value : Operand) (bits : Nat) : Emit Operand :=
  if value.type = .int bits then pure value else insert (.zext bits value) (.int bits)

/-- A cast to the type that the pointer has emits nothing. -/
def createPointerCast (ptr : Operand) (type : IrType) : Emit Operand :=
  if ptr.type = type then pure ptr else insert (.bitcast type ptr) type

/-- A call of a function, which is null if the module has none of the name. -/
def createCall (function : Option Function) (arg : Operand) : Emit Operand := do
  let f ← deref function
  match f.returnType with
  | some type => insert (.call f.name arg) type
  | none => fun _ => .error .assertFailed

def createBr (label : Nat) : Emit Unit := terminate (.br label)

def createCondBr (cond : Operand) (ifTrue ifFalse : Nat) : Emit Unit :=
  terminate (.condBr cond ifTrue ifFalse)

/-- A null value is returned as no value. -/
def createRet (value : Option Operand) : Emit Unit := terminate (.ret value)

def createRetVoid : Emit Unit := terminate (.ret none)

/-- `llvm::Function::Create`, and then the code that fills its blocks. -/
def createFunction (module : Module) (name : String) (params : List IrType)
    (returnType : Option IrType) (code : Emit Unit) : Except Error Module := do
  let (_, b) ← code ⟨[], 0⟩
  .ok { module with functions := module.functions ++ [⟨name, params, returnType, b.blocks⟩] }

/-! ## Types and constants -/

def irType : LlvmType → IrType
  | .i8 => .int 8
  | .i16 => .int 16
  | .i32 => .int 32
  | .i64 => .int 64
  | .f16 => .float .half
  | .f32 => .float .single
  | .f64 => .float .double

/-- `from_arrow` -/
def fromArrow (type : DataType) : Except Error IrType := irType <$> Pefa.fromArrow type

/-- `ptr_from_arrow` -/
def ptrFromArrow (type : DataType) : Except Error IrType := .ptr <$> fromArrow type

/-- A value of a column, as generated code has it. -/
def toValue : (type : DataType) → type.CType → Value
  | .integral _ w, x => .int w.bits x
  | .floating w, x => .float w x
  | .string, _ | .bool, _ | .na, _ | .other _ _ _, _ => .void

/-- `const_from_variant` -/
def constFromVariant (type : DataType) (variant : LiteralExpr) : Except Error Operand := do
  let x ← Pefa.constFromVariant type variant
  match type, x with
  | .integral _ w, x => .ok (.constInt w.bits x)
  | .floating w, x => .ok (.constFloat w x)
  | _, _ => .error .unreachable

def i8val (val : BitVec 8) : Operand := .constInt 8 (Pefa.i8val val)

def i64val (val : BitVec 64) : Operand := .constInt 64 (Pefa.i64val val)

/-! ## `IrEmitVisitor` -/

/-- `__PEFA_CREATE_CMP_FUNC` -/
def createCmpFunc (icmp ucmp : ICmp) (fcmp : FCmp) (type : DataType) (lhs rhs : Operand) :
    Emit Operand :=
  match type with
  | .integral true _ => createICmp icmp lhs rhs
  | .integral false _ => createICmp ucmp lhs rhs
  | .floating _ => createFCmp fcmp lhs rhs
  | type => fun _ => .error (.notImplemented
      ("Comparing elements of type" ++ type.toString ++ " is not supported yet"))

def createCmpGt := createCmpFunc .sgt .ugt .ogt
def createCmpLt := createCmpFunc .slt .ult .olt
def createCmpGe := createCmpFunc .sge .uge .oge
def createCmpLe := createCmpFunc .sle .ule .ole
def createCmpEq := createCmpFunc .eq .eq .oeq
def createCmpNe := createCmpFunc .ne .ne .one

/-- The switch over `expr.op` of `IrEmitVisitor::visit(const CompareExpr &)`. -/
def createCmp : CompareOp → DataType → Operand → Operand → Emit Operand
  | .gt => createCmpGt
  | .lt => createCmpLt
  | .ge => createCmpGe
  | .le => createCmpLe
  | .eq => createCmpEq
  | .neq => createCmpNe

/-- The switch over `expr.op` of `IrEmitVisitor::visit(const PredicateExpr &)`. -/
def createPredicate : PredicateOp → Operand → Operand → Emit Operand
  | .or => createBinary .or
  | .and => createBinary .and

/-- `IrEmitVisitor::visit`. The last argument and the result are `m_result`. -/
def irEmitVisitor (field : Field) (input : Operand) :
    BooleanExpr → Option Operand → Emit (Option Operand)
  | .booleanConst _, result => pure result
  | .predicateExpr lhs rhs op, result => do
      let lhs ← irEmitVisitor field input lhs result
      let rhs ← irEmitVisitor field input rhs lhs
      let l ← deref lhs
      let r ← deref rhs
      some <$> createPredicate op l r
  | .compareExpr lhs rhs op, _ =>
      if lhs.name = field.name then do
        let constant ← constFromVariant field.type rhs
        some <$> createCmp op field.type input constant
      else fun _ => .error .assertFailed

/-! ## `FitlerKernelImpl` -/

def predicateName (field : Field) : String := field.name ++ "_predicate"

/-- `FitlerKernelImpl::gen_predicate_func` -/
def genPredicateFunc (field : Field) (expr : BooleanExpr) (module : Module) :
    Except Error Module := do
  let type ← fromArrow field.type
  createFunction module (predicateName field) [type] (some (.int 1)) do
    let body ← createBasicBlock "body"
    let val := .arg 0 type
    setInsertPoint body
    let result ← irEmitVisitor field val expr none
    createRet result

/-- `FitlerKernelImpl::gen_filter_func` -/
def genFilterFunc (field : Field) (module : Module) : Except Error Module :=
  createFunction module (filterName field) [.ptr (.int 8), .ptr (.int 8), .int 64] none do
    let body ← createBasicBlock "body"
    let cond1 ← createBasicBlock "outerloop.cond"
    let for1 ← createBasicBlock "outerloop.body"
    let cond2 ← createBasicBlock "innerloop.cond"
    let for2 ← createBasicBlock "innedloop.body"
    let endFor1 ← createBasicBlock "outerloop.end"
    let endFor2 ← createBasicBlock "innerloop.end"

    let argSource := .arg 0 (.ptr (.int 8))
    let argDest := .arg 1 (.ptr (.int 8))
    let argLen := .arg 2 (.int 64)

    setInsertPoint body
    let i ← createAlloca (.int 64)
    let j ← createAlloca (.int 8)
    let tmpBitmap ← createAlloca (.int 8)
    createStore (i64val 0) i
    let source ← createPointerCast argSource (← ptrFromArrow field.type)
    createBr cond1

    setInsertPoint cond1
    let condition ← createICmp .slt (← createLoad i) (← createBinary .udiv argLen (i64val 8))
    createCondBr condition for1 endFor1

    setInsertPoint for1
    let li ← createLoad i
    let src ← createInBoundsGEP source (← createBinary .mul li (i64val 8))
    createStore (i8val 0) tmpBitmap
    createStore (i8val 0) j
    createBr cond2

    setInsertPoint cond2
    createCondBr (← createICmp .slt (← createLoad j) (i8val 8)) for2 endFor2

    setInsertPoint for2
    let bit ← createIntCast
      (← createCall (module.getFunction (predicateName field))
        (← createLoad (← createInBoundsGEP src (← createLoad j)))) 8
    let bitWithShift ← createBinary .shl bit (← createBinary .sub (i8val 7) (← createLoad j))
    let updatedTmpBitmap ← createBinary .or (← createLoad tmpBitmap) bitWithShift
    createStore updatedTmpBitmap tmpBitmap
    createStore (← createBinary .add (← createLoad j) (i8val 1)) j
    createBr cond2

    setInsertPoint endFor2
    let destVal ← createLoad (← createInBoundsGEP argDest (← createLoad i))
    let updatedBitmap ← createBinary .and destVal (← createLoad tmpBitmap)
    createStore updatedBitmap (← createInBoundsGEP argDest (← createLoad i))
    createStore (← createBinary .add (← createLoad i) (i64val 1)) i
    createBr cond1

    setInsertPoint endFor1
    createRetVoid

/-- `FitlerKernelImpl::gen_filter_remaining_func` -/
def genFilterRemainingFunc (field : Field) (module : Module) : Except Error Module :=
  createFunction module (filterRemainingName field)
      [.ptr (.int 8), .ptr (.int 8), .int 8, .int 8] none do
    let body ← createBasicBlock "body"
    let cond ← createBasicBlock "loop.cond"
    let loop ← createBasicBlock "loop.body"
    let endLoop ← createBasicBlock "loop.end"

    let argSource := .arg 0 (.ptr (.int 8))
    let argDest := .arg 1 (.ptr (.int 8))
    let argLen := .arg 2 (.int 8)
    let argBitOffset := .arg 3 (.int 8)

    setInsertPoint body
    let i ← createAlloca (.int 8)
    createStore (i8val 0) i
    let source ← createPointerCast argSource (← ptrFromArrow field.type)
    createBr cond

    setInsertPoint cond
    let condition ← createICmp .slt (← createLoad i) argLen
    createCondBr condition loop endLoop

    setInsertPoint loop
    let bit ← createIntCast
      (← createCall (module.getFunction (predicateName field))
        (← createLoad (← createInBoundsGEP source (← createLoad i)))) 8
    let maskedBit ← createNot (← createBinary .shl
      (← createBinary .and (← createNot bit) (i8val 1))
      (← createBinary .sub (i8val 7) (← createBinary .add (← createLoad i) argBitOffset)))
    createStore (← createBinary .and (← createLoad argDest) maskedBit) argDest
    createStore (← createBinary .add (← createLoad i) (i8val 1)) i
    createBr cond

    setInsertPoint endLoop
    createRetVoid

/-- The module that `FitlerKernelImpl::compile` generates. -/
def genModule (field : Field) (expr : BooleanExpr) : Except Error Module := do
  let module := ⟨field.name ++ "_filter_mod", []⟩
  let module ← genPredicateFunc field expr module
  let module ← genFilterFunc field module
  genFilterRemainingFunc field module

end Ir

end Pefa
