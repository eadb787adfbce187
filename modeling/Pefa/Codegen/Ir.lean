import Pefa.Lib.ControlFlow
import Pefa.Kernels.Filter

/-!
# The language of the generated code

The part of LLVM's intermediate representation that kernels are generated in. A function is a list
of basic blocks; a block is a list of instructions, each of which has a value, and ends with a
terminator. What is counted up in a loop is kept in stack slots, so there are no phi nodes, and an
instruction is named by its block and its place in it.

A value is an integer of some width, a floating-point number or a pointer: to a stack slot of the
running function, to a byte of the value buffer, or to a byte of the bitmap. Pointers are computed
with in signed offsets. An instruction on values of the wrong types is one that the verifier
rejects (`Error.brokenModule`).

## Sections

* Types, values and instructions
* Memory
* Instructions
* Functions and modules
-/

namespace Pefa

namespace Ir

open ControlFlow

/-! ## Types, values and instructions -/

inductive IrType where
  | int (bits : Nat)
  | float (width : FloatWidth)
  | ptr (pointee : IrType)
  deriving DecidableEq, Repr

/-- The size in memory, in bytes. -/
def IrType.size : IrType → Nat
  | .int bits => (bits + 7) / 8
  | .float .half => 2
  | .float .single => 4
  | .float .double => 8
  | .ptr _ => 8

/-- What a pointer points to. -/
inductive Pointer where
  /-- a stack slot -/
  | slot (index : Nat)
  /-- a byte of the value buffer -/
  | value (addr : Int)
  /-- a byte of the bitmap -/
  | bitmap (index : Int)
  deriving DecidableEq, Repr

/-- The value of an instruction; a store has none, and a slot that was not stored to has none. -/
inductive Value where
  | void
  | int (bits : Nat) (x : BitVec bits)
  | float (width : FloatWidth) (x : FloatValue)
  | ptr (p : Pointer)
  deriving DecidableEq

/-- An `llvm::Value`: an argument, an instruction or a constant. -/
inductive Operand where
  | arg (index : Nat) (type : IrType)
  | instr (block index : Nat) (type : IrType)
  | constInt (bits : Nat) (x : BitVec bits)
  | constFloat (width : FloatWidth) (x : FloatValue)
  deriving DecidableEq

/-- `llvm::Value::getType` -/
def Operand.type : Operand → IrType
  | .arg _ type => type
  | .instr _ _ type => type
  | .constInt bits _ => .int bits
  | .constFloat width _ => .float width

inductive BinOp where
  | add | sub | mul | udiv | shl | and | or | xor
  deriving DecidableEq, Repr

inductive ICmp where
  | eq | ne | sgt | sge | slt | sle | ugt | uge | ult | ule
  deriving DecidableEq, Repr

inductive FCmp where
  | oeq | ogt | oge | olt | ole | one
  deriving DecidableEq, Repr

inductive Instr where
  | alloca (type : IrType)
  | load (type : IrType) (ptr : Operand)
  | store (value ptr : Operand)
  | getElementPtr (type : IrType) (ptr index : Operand)
  | binary (op : BinOp) (lhs rhs : Operand)
  | icmp (pred : ICmp) (lhs rhs : Operand)
  | fcmp (pred : FCmp) (lhs rhs : Operand)
  | zext (bits : Nat) (value : Operand)
  | bitcast (type : IrType) (ptr : Operand)
  | call (function : String) (arg : Operand)
  deriving DecidableEq

inductive Terminator where
  | br (label : Nat)
  | condBr (cond : Operand) (ifTrue ifFalse : Nat)
  | ret (value : Option Operand)
  deriving DecidableEq

structure BasicBlock where
  name : String
  instrs : List Instr
  terminator : Option Terminator
  deriving DecidableEq

/-- A function; the entry is the first block. -/
structure Function where
  name : String
  params : List IrType
  returnType : Option IrType
  blocks : List BasicBlock
  deriving DecidableEq

structure Module where
  name : String
  functions : List Function
  deriving DecidableEq

/-- `llvm::Module::getFunction` -/
def Module.getFunction (m : Module) (name : String) : Option Function :=
  m.functions.find? fun f => f.name = name

/-! ## Memory -/

/-- The two buffers that generated code works on: values of one type, and a bitmap. -/
structure Memory where
  elem : IrType
  values : List Value
  bitmap : Bitmap
  trace : List Access

/-- Load a value of a type from a byte of the value buffer. -/
def Memory.loadValue (m : Memory) (type : IrType) (addr : Int) : Except Error (Value × Memory) :=
  if type = m.elem ∧ 0 ≤ addr then do
    let x ← loadElem m.values type.size addr.toNat
    .ok (x, { m with trace := m.trace ++ [.loadElem (addr.toNat / type.size)] })
  else .error .outOfBounds

/-- Load a byte of the bitmap. -/
def Memory.loadByte (m : Memory) (index : Int) : Except Error (BitVec 8 × Memory) :=
  if 0 ≤ index then do
    let x ← Pefa.loadByte m.bitmap index.toNat
    .ok (x, { m with trace := m.trace ++ [.loadByte index.toNat] })
  else .error .outOfBounds

/-- Store a byte of the bitmap. -/
def Memory.storeByte (m : Memory) (index : Int) (x : BitVec 8) : Except Error Memory :=
  if 0 ≤ index then do
    let bitmap ← Pefa.storeByte m.bitmap index.toNat x
    .ok { m with bitmap := bitmap, trace := m.trace ++ [.storeByte index.toNat] }
  else .error .outOfBounds

/-- The memory of a running function. -/
structure State where
  slots : List Value
  memory : Memory

def State.load (s : State) (type : IrType) : Pointer → Except Error (Value × State)
  | .slot index =>
      match s.slots[index]? with
      | some v => .ok (v, s)
      | none => .error .outOfBounds
  | .value addr => do
      let (v, memory) ← s.memory.loadValue type addr
      .ok (v, { s with memory := memory })
  | .bitmap index =>
      if type = .int 8 then do
        let (x, memory) ← s.memory.loadByte index
        .ok (.int 8 x, { s with memory := memory })
      else .error .outOfBounds

/-! ## Instructions -/

namespace Value

/-- The value as an integer of a width. -/
def toInt (bits : Nat) : Value → Except Error (BitVec bits)
  | .int w x => if h : w = bits then .ok (h ▸ x) else .error .brokenModule
  | _ => .error .brokenModule

def toPtr : Value → Except Error Pointer
  | .ptr p => .ok p
  | _ => .error .brokenModule

@[simp] theorem toInt_int (bits : Nat) (x : BitVec bits) : (int bits x).toInt bits = .ok x :=
  dif_pos rfl

@[simp] theorem toPtr_ptr (p : Pointer) : (ptr p).toPtr = .ok p := rfl

end Value

/-- The bitmap holds bytes, and the value buffer is not written. -/
def State.store (s : State) (v : Value) : Pointer → Except Error State
  | .slot index =>
      if index < s.slots.length then .ok { s with slots := s.slots.set index v }
      else .error .outOfBounds
  | .value _ => .error .outOfBounds
  | .bitmap index => do
      let x ← v.toInt 8
      let memory ← s.memory.storeByte index x
      .ok { s with memory := memory }

/-- Arithmetic; `none` where the result is not defined. -/
def BinOp.apply {w : Nat} : BinOp → BitVec w → BitVec w → Option (BitVec w)
  | .add, x, y => some (x + y)
  | .sub, x, y => some (x - y)
  | .mul, x, y => some (x * y)
  | .udiv, x, y => if y = 0#w then none else some (x / y)
  | .shl, x, y => if y.toNat < w then some (x <<< y.toNat) else none
  | .and, x, y => some (x &&& y)
  | .or, x, y => some (x ||| y)
  | .xor, x, y => some (x ^^^ y)

section BinOp

variable {w : Nat} (x y : BitVec w)

@[simp] theorem BinOp.apply_add : BinOp.add.apply x y = some (x + y) := rfl

@[simp] theorem BinOp.apply_sub : BinOp.sub.apply x y = some (x - y) := rfl

@[simp] theorem BinOp.apply_mul : BinOp.mul.apply x y = some (x * y) := rfl

@[simp] theorem BinOp.apply_and : BinOp.and.apply x y = some (x &&& y) := rfl

@[simp] theorem BinOp.apply_or : BinOp.or.apply x y = some (x ||| y) := rfl

@[simp] theorem BinOp.apply_xor : BinOp.xor.apply x y = some (x ^^^ y) := rfl

theorem BinOp.apply_udiv {x y : BitVec w} (h : ¬ y = 0#w) : BinOp.udiv.apply x y = some (x / y) :=
  if_neg h

end BinOp

/-- A shift of bytes is the one of the generated loops. -/
theorem BinOp.apply_shl_of_ok {x y z : BitVec 8} (h : shlByte x y = .ok z) :
    BinOp.shl.apply x y = some z := by
  unfold shlByte at h
  split at h
  · next hlt =>
      cases h
      exact if_pos hlt
  · cases h

theorem BinOp.apply_shl_of_error {x y : BitVec 8} {e : Error} (h : shlByte x y = .error e) :
    e = .badShift ∧ BinOp.shl.apply x y = none := by
  unfold shlByte at h
  split at h
  · cases h
  · next hge =>
      cases h
      exact ⟨rfl, if_neg hge⟩

def ICmp.apply {w : Nat} : ICmp → BitVec w → BitVec w → Bool
  | .eq, x, y => x == y
  | .ne, x, y => x != y
  | .sgt, x, y => y.slt x
  | .sge, x, y => y.sle x
  | .slt, x, y => x.slt y
  | .sle, x, y => x.sle y
  | .ugt, x, y => y.ult x
  | .uge, x, y => y.ule x
  | .ult, x, y => x.ult y
  | .ule, x, y => x.ule y

def FCmp.apply : FCmp → FloatValue → FloatValue → Bool
  | .oeq => FloatValue.fcmpOeq
  | .ogt => FloatValue.fcmpOgt
  | .oge => FloatValue.fcmpOge
  | .olt => FloatValue.fcmpOlt
  | .ole => FloatValue.fcmpOle
  | .one => FloatValue.fcmpOne

/-- The pointer to the element that is `index` elements of `size` bytes further. -/
def Pointer.offset (size : Nat) (index : Int) : Pointer → Except Error Pointer
  | .slot _ => .error .outOfBounds
  | .value addr => .ok (.value (addr + size * index))
  | .bitmap i => .ok (.bitmap (i + size * index))

/-- A function that may be called: its name and its argument. -/
abbrev Callee := String → Value → Memory → Except Error (Value × Memory)

/-- Execute an instruction. The amounts of shifts are recorded with the accesses. -/
def Instr.exec (callee : Callee) (get : Operand → Except Error Value) (s : State) :
    Instr → Except Error (Value × State)
  | .alloca _ => .ok (.ptr (.slot s.slots.length), { s with slots := s.slots ++ [.void] })
  | .load type ptr => do
      let ptr ← get ptr
      let p ← ptr.toPtr
      s.load type p
  | .store value ptr => do
      let v ← get value
      let ptr ← get ptr
      let p ← ptr.toPtr
      let s ← s.store v p
      .ok (.void, s)
  | .getElementPtr type ptr index => do
      let ptr ← get ptr
      let p ← ptr.toPtr
      let index ← get index
      match index with
      | .int _ x => do
          let p ← p.offset type.size x.toInt
          .ok (.ptr p, s)
      | _ => .error .brokenModule
  | .binary op lhs rhs => do
      let lhs ← get lhs
      let rhs ← get rhs
      match lhs with
      | .int w x => do
          let y ← rhs.toInt w
          match op.apply x y with
          | none => .error .badShift
          | some z =>
              .ok (.int w z, if op = .shl then
                { s with memory.trace := s.memory.trace ++ [.shift y.toNat] } else s)
      | _ => .error .brokenModule
  | .icmp pred lhs rhs => do
      let lhs ← get lhs
      let rhs ← get rhs
      match lhs with
      | .int w x => do
          let y ← rhs.toInt w
          .ok (.int 1 (BitVec.ofBool (pred.apply x y)), s)
      | _ => .error .brokenModule
  | .fcmp pred lhs rhs => do
      let lhs ← get lhs
      let rhs ← get rhs
      match lhs, rhs with
      | .float _ x, .float _ y => .ok (.int 1 (BitVec.ofBool (pred.apply x y)), s)
      | _, _ => .error .brokenModule
  | .zext bits value => do
      let v ← get value
      match v with
      | .int _ x => .ok (.int bits (x.setWidth bits), s)
      | _ => .error .brokenModule
  | .bitcast _ ptr => do
      let ptr ← get ptr
      let p ← ptr.toPtr
      .ok (.ptr p, s)
  | .call function arg => do
      let v ← get arg
      let (v, memory) ← callee function v s.memory
      .ok (v, { s with memory := memory })

/-! ## Functions and modules -/

/-- The value of an operand, in block `block`: `vals` are the values of the instructions of the
block that were executed, and `regs` those of the other blocks. -/
def operand (args : List Value) (regs : Nat → List Value) (block : Nat) (vals : List Value) :
    Operand → Except Error Value
  | .arg index _ =>
      match args[index]? with
      | some v => .ok v
      | none => .error .brokenModule
  | .instr b index _ =>
      match (if b = block then vals else regs b)[index]? with
      | some v => .ok v
      | none => .error .brokenModule
  | .constInt bits x => .ok (.int bits x)
  | .constFloat width x => .ok (.float width x)

/-- Execute instructions one after another, after those that have the values `vals`. -/
def execInstrs (callee : Callee) (args : List Value) (regs : Nat → List Value) (block : Nat) :
    List Instr → List Value → State → Except Error (List Value × State)
  | [], vals, s => .ok (vals, s)
  | i :: is, vals, s => do
      let (v, s) ← i.exec callee (operand args regs block vals) s
      execInstrs callee args regs block is (vals ++ [v]) s

/-- The values of each block's instructions when it was last executed, and the memory. -/
structure Frame where
  regs : Nat → List Value
  state : State

/-- Where control goes. -/
def Terminator.exec (get : Operand → Except Error Value) :
    Terminator → Except Error (Next Nat Value)
  | .br label => .ok (.goto label)
  | .condBr cond ifTrue ifFalse => do
      let v ← get cond
      let c ← v.toInt 1
      .ok (.goto (if c = 1#1 then ifTrue else ifFalse))
  | .ret none => .ok (.return .void)
  | .ret (some value) => do
      let v ← get value
      .ok (.return v)

/-- Execute a block of a function. -/
def Function.exec (f : Function) (callee : Callee) (args : List Value) (label : Nat) (s : Frame) :
    Except Error (Next Nat Value × Frame) :=
  match f.blocks[label]? with
  | none => .error .brokenModule
  | some block => do
      let (vals, state) ← execInstrs callee args s.regs label block.instrs [] s.state
      match block.terminator with
      | none => .error .brokenModule
      | some t => do
          let next ← t.exec (operand args s.regs label vals)
          .ok (next, ⟨Function.update s.regs label vals, state⟩)

/-- Call a function with arguments, for at most `fuel` blocks. -/
def Function.call (f : Function) (callee : Callee) (fuel : Nat) (args : List Value)
    (memory : Memory) : Except Error (Value × Memory) := do
  let (v, s) ← run .diverged (f.exec callee args) fuel 0 ⟨fun _ => [], ⟨[], memory⟩⟩
  .ok (v, s.state.memory)

/-- Call a function of the module. `fuel` has the number of blocks a call may go through, for each
depth of calls. -/
def Module.call (m : Module) : List Nat → String → List Value → Memory →
    Except Error (Value × Memory)
  | [], _, _, _ => .error .diverged
  | n :: fuel, name, args, memory =>
      match m.getFunction name with
      | none => .error .brokenModule
      | some f => f.call (fun name arg => m.call fuel name [arg]) n args memory

end Ir

end Pefa
