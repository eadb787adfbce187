import Pefa.Kernels.Filter
import Pefa.Execution.ExecutionContext

/-!
# Evaluating a filter expression

`FilterExprExecutor` walks the tree and leaves its answer in one member, `m_buffer`. A comparison
allocates a bitmap with every bit set and has a kernel clear the bits of the rows that fail; AND
and OR combine the right bitmap into the left one in place.

Buffers are shared pointers, so the executor is modelled with a store of buffers: `m_buffer` is a
place in it, and two pointers may name one buffer.

The kernel calls of a comparison depend on the lengths of the chunks alone. They are listed by
`kernelCalls` in the order in which they are made: one `execute` for every chunk, and then the
calls of `execute_remaining`, for the byte in which a chunk starts and the byte in which it ends.
-/

namespace Pefa

open WhileLoop

/-- `arrow::AllocateBitmap` and `memset` to 255. -/
def allocateFullBitmap (bits : Nat) : Bitmap := Bitmap.ones (bytesForBits bits)

/-! ## Kernel calls -/

/-- A call of a kernel on one chunk, with the bitmap pointer at byte `byte`. -/
inductive KernelCall where
  | execute (chunk byte offset : Nat)
  | executeRemaining (chunk byte arrayOffset : Nat) (bitOffset : BitVec 8)
  deriving DecidableEq, Repr

/-- The first loop of `visit(const CompareExpr &)`. -/
def executeCalls (lens : List Nat) : List KernelCall :=
  (List.range lens.length).map fun chunkNum =>
    let offset := (lens.take chunkNum).sum
    let prevBits := offset % 8
    let remainingBits := (8 - prevBits) % 8
    .execute chunkNum (offset / 8) remainingBits

/-- The second loop of `visit(const CompareExpr &)`, at chunk `chunkNum` and row `offset`. -/
def remainingCallsFrom (chunkNum offset : Nat) : List Nat → List KernelCall
  | [] => []
  | len :: lens =>
      let head := if offset % 8 ≠ 0 then
        [KernelCall.executeRemaining chunkNum (offset / 8) 0 (BitVec.ofNat 8 (offset % 8))] else []
      let offset := offset + len
      let tail := if offset % 8 ≠ 0 then
        [KernelCall.executeRemaining chunkNum (offset / 8) (sizeSub len (offset % 8)) 0#8] else []
      head ++ tail ++ remainingCallsFrom (chunkNum + 1) offset lens

/-- All kernel calls of a comparison on a column with chunks of these lengths, in order. -/
def kernelCalls (lens : List Nat) : List KernelCall :=
  executeCalls lens ++ remainingCallsFrom 0 0 lens

section

variable {field : Field}

/-- Make one call. -/
def runCall (kernel : FilterKernel field) (column : ChunkedArray field.type.CType)
    (bitmap : Bitmap) : KernelCall → Except Error (Bitmap × List Access)
  | .execute chunk byte offset =>
      match column.chunks[chunk]? with
      | some c => kernel.execute c bitmap byte offset
      | none => .error .outOfBounds
  | .executeRemaining chunk byte arrayOffset bitOffset =>
      match column.chunks[chunk]? with
      | some c => kernel.executeRemaining c bitmap byte arrayOffset bitOffset
      | none => .error .outOfBounds

/-- Make the calls one after another. -/
def runCalls (kernel : FilterKernel field) (column : ChunkedArray field.type.CType) :
    List KernelCall → Bitmap → Except Error Bitmap
  | [], bitmap => .ok bitmap
  | call :: calls, bitmap => do
      let (bitmap, _) ← runCall kernel column bitmap call
      runCalls kernel column calls bitmap

end

/-- The buffer that `FilterExprExecutor::visit(const CompareExpr &)` fills. A null field is
followed when the kernel is compiled. -/
def compareBuffer (table : Table) (lhs : ColumnRef) (rhs : LiteralExpr) (op : CompareOp) :
    Except Error Bitmap :=
  let buffer := allocateFullBitmap table.numRows
  match table.getColumnByName lhs.name with
  | none => .error .nullDeref
  | some column => do
      let kernel ← (FilterKernel.createCpu column.field (.compareExpr lhs rhs op)).compile
      runCalls kernel column.data (kernelCalls column.data.lens) buffer

/-! ## `FilterExprExecutor` -/

/-- The buffers allocated so far, and `m_buffer`. -/
structure FilterExprExecutor where
  buffers : List Bitmap
  mBuffer : Option Nat

/-- Follow a pointer to a buffer. -/
def getBuffer (buffers : List Bitmap) : Option Nat → Except Error Bitmap
  | none => .error .nullDeref
  | some a =>
      match buffers[a]? with
      | some b => .ok b
      | none => .error .outOfBounds

def PredicateOp.applyByte : PredicateOp → BitVec 8 → BitVec 8 → BitVec 8
  | .and => (· &&& ·)
  | .or => (· ||| ·)

structure CombineState where
  i : Nat
  buffers : List Bitmap

/-- `lhs_buf->mutable_data()[i] op= rhs_buf->mutable_data()[i]; i++` -/
def combineBody (op : PredicateOp) (lhsBuf rhsBuf : Option Nat) (s : CombineState) :
    Except Error CombineState := do
  let rhs ← getBuffer s.buffers rhsBuf
  let y ← loadByte rhs s.i
  let lhs ← getBuffer s.buffers lhsBuf
  let x ← loadByte lhs s.i
  let lhs ← storeByte lhs s.i (op.applyByte x y)
  let i ← intAdd s.i 1
  .ok ⟨i, match lhsBuf with | some a => s.buffers.set a lhs | none => s.buffers⟩

/-- `for (int i = 0; i < lhs_buf->size(); i++) …` -/
def combine (op : PredicateOp) (lhsBuf rhsBuf : Option Nat) (buffers : List Bitmap) :
    Except Error (List Bitmap) := do
  let lhs ← getBuffer buffers lhsBuf
  let s ← whileLoop .diverged (fun s : CombineState => decide (s.i < lhs.length))
    (combineBody op lhsBuf rhsBuf) intFuel ⟨0, buffers⟩
  .ok s.buffers

namespace FilterExprExecutor

/-- `FilterExprExecutor::visit`; a constant is left to `ExprVisitor`, which does nothing. -/
def visit (table : Table) : BooleanExpr → FilterExprExecutor → Except Error FilterExprExecutor
  | .booleanConst _, s => .ok s
  | .predicateExpr lhs rhs op, s => do
      let s ← visit table lhs s
      let lhsBuf := s.mBuffer
      let s ← visit table rhs s
      let rhsBuf := s.mBuffer
      let buffers ← combine op lhsBuf rhsBuf s.buffers
      .ok ⟨buffers, lhsBuf⟩
  | .compareExpr lhs rhs op, s => do
      let buffer ← compareBuffer table lhs rhs op
      .ok ⟨s.buffers ++ [buffer], some s.buffers.length⟩

/-- `FilterExprExecutor::result` -/
def result (s : FilterExprExecutor) : Option Bitmap := s.mBuffer.bind fun a => s.buffers[a]?

end FilterExprExecutor

/-- `execution::generate_filter_bitmap` -/
def generateFilterBitmap (ctx : ExecutionContext) (expr : BooleanExpr) :
    Except Error ExecutionContext :=
  match ctx.table.columns with
  | [] => ExecutionContext.create ctx.table
  | c :: _ =>
      if c.data.numChunks = 0 then ExecutionContext.create ctx.table
      else do
        let s ← FilterExprExecutor.visit ctx.table expr ⟨[], none⟩
        let res ← ExecutionContext.create ctx.table
        .ok { res with metadata := { res.metadata with filterBitmap := s.result } }

end Pefa
