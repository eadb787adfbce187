import Pefa.Lib.WhileLoop
import Pefa.Execution.ExecutionContext

/-!
# Materializing a filter

`materializeColumn` copies the rows whose bit is set into chunks of `chunkSize` elements. Three
nested loops share four counters: `currentChunk` and `currentChunkPos` say where the column is
read, `totalElementsPos` is the row, and `newChunkPos` is where the output chunk is written. Every
element is written, and the write position moves on only after one that is kept.

An output buffer is a capacity and the elements written so far; what lies behind them is
uninitialized, and reading or skipping it is an error.
-/

namespace Pefa

open WhileLoop

/-- `2 << 13` -/
def chunkSize : Nat := 2 <<< 13

/-- `data_out[index] = x` in a buffer of `chunkSize` elements. -/
def storeElem {α : Type} (dataOut : List α) (index : Nat) (x : α) : Except Error (List α) :=
  if index < chunkSize then
    if index < dataOut.length then .ok (dataOut.set index x)
    else if index = dataOut.length then .ok (dataOut ++ [x])
    else .error .outOfBounds
  else .error .outOfBounds

/-- `(bitmap[row / 8] >> (7 - row % 8)) & 1` -/
def loadBit (bitmap : Bitmap) (row : Nat) : Except Error Nat :=
  match bitmap[row / 8]? with
  | some x => .ok ((x >>> (7 - row % 8)) &&& 1#8).toNat
  | none => .error .outOfBounds

section

variable {α : Type}

/-- The counters and the output chunk, inside the two inner loops. -/
structure CopyState (α : Type) where
  currentChunk : Nat
  currentChunkPos : Nat
  totalElementsPos : Nat
  newChunkPos : Nat
  dataOut : List α

/-- The body and the step of the innermost loop. -/
def copyElem (chunk : ArrayData α) (bitmap : Bitmap) (s : CopyState α) :
    Except Error (CopyState α) := do
  let x ← match chunk.values[s.currentChunkPos]? with
    | some x => Except.ok x
    | none => .error .outOfBounds
  let dataOut ← storeElem s.dataOut s.newChunkPos x
  let bit ← loadBit bitmap s.totalElementsPos
  let newChunkPos ← intAdd s.newChunkPos bit
  let currentChunkPos ← intAdd s.currentChunkPos 1
  let totalElementsPos ← intAdd s.totalElementsPos 1
  .ok { s with
    currentChunkPos := currentChunkPos
    totalElementsPos := totalElementsPos
    newChunkPos := newChunkPos
    dataOut := dataOut }

/-- `for (; new_chunk_pos < chunk_size && current_chunk_pos < chunk.length(); …)` -/
def copyChunk (chunk : ArrayData α) (bitmap : Bitmap) (s : CopyState α) :
    Except Error (CopyState α) :=
  whileLoop .diverged
    (fun s => decide (s.newChunkPos < chunkSize) && decide (s.currentChunkPos < chunk.length))
    (copyElem chunk bitmap) intFuel s

/-- The body of the middle loop. -/
def fillBody (column : ChunkedArray α) (bitmap : Bitmap) (s : CopyState α) :
    Except Error (CopyState α) := do
  let chunk ← match column.chunks[s.currentChunk]? with
    | some chunk => Except.ok chunk
    | none => .error .outOfBounds
  let s ← copyChunk chunk bitmap s
  if s.currentChunkPos = chunk.length then do
    let currentChunk ← intAdd s.currentChunk 1
    .ok { s with currentChunk := currentChunk, currentChunkPos := 0 }
  else .ok s

/-- `while (new_chunk_pos < chunk_size && total_elements_pos < total_length)` -/
def fillChunk (column : ChunkedArray α) (bitmap : Bitmap) (s : CopyState α) :
    Except Error (CopyState α) :=
  whileLoop .diverged
    (fun s => decide (s.newChunkPos < chunkSize) && decide (s.totalElementsPos < column.length))
    (fillBody column bitmap) intFuel s

/-- `arrow::MakeArray` over the output buffer, with no validity buffer. -/
def makeArray (dataOut : List α) (length : Nat) : Except Error (ArrayData α) :=
  if h : length ≤ dataOut.length ∧ length < 2 ^ 63 then
    .ok ⟨dataOut, 0, length, none, by simpa using h.1, h.2⟩
  else .error .outOfBounds

/-- The counters that live across output chunks, and the chunks made so far. -/
structure MaterializeState (α : Type) where
  currentChunk : Nat
  currentChunkPos : Nat
  totalElementsPos : Nat
  newColumn : List (ArrayData α)

/-- The body of the outer loop: one output chunk. -/
def materializeBody (column : ChunkedArray α) (bitmap : Bitmap) (s : MaterializeState α) :
    Except Error (MaterializeState α) := do
  let t ← fillChunk column bitmap
    ⟨s.currentChunk, s.currentChunkPos, s.totalElementsPos, 0, []⟩
  let array ← makeArray t.dataOut t.newChunkPos
  .ok ⟨t.currentChunk, t.currentChunkPos, t.totalElementsPos, s.newColumn ++ [array]⟩

/-- `materialize_column` -/
def materializeColumn (column : ChunkedArray α) (bitmap : Bitmap) :
    Except Error (ChunkedArray α) := do
  let s ← doWhile .diverged
    (fun s : MaterializeState α => decide (s.totalElementsPos < column.length))
    (materializeBody column bitmap) intFuel ⟨0, 0, 0, []⟩
  ChunkedArray.create s.newColumn

end

/-- The cases of the switch in `materialize_filter`. -/
def DataType.isMaterializable : DataType → Bool
  | .integral _ _ => true
  | .float => true
  | .double => true
  | _ => false

/-- One turn of the loop over the columns in `materialize_filter`. -/
def materializeTableColumn (bitmap : Bitmap) (c : Column) : Except Error Column :=
  if c.type.isMaterializable then do
    let data ← materializeColumn c.data bitmap
    .ok { c with data := data }
  else .error (.notImplemented ("Type " ++ c.type.toString ++ " is not supported yet"))

/-- `execution::materialize_filter` -/
def materializeFilter (ctx : ExecutionContext) : Except Error ExecutionContext :=
  match ctx.filterBitmap with
  | none => .error .unreachable
  | some bitmap => do
      let newColumns ← ctx.table.columns.mapM (materializeTableColumn bitmap)
      ExecutionContext.create ⟨newColumns⟩

end Pefa
