import Pefa.Execution.MaterializeCounters
import Pefa.QueryCompiler.QueryCompiler

/-!
# Every query comes to an end

The loops of the program count in machine integers up to a bound that they read from the data: the
generated loops in an `i8` or an `i64`, AND and OR over the bytes of a bitmap, and three nested
loops of a materialization over rows, chunks and output chunks. Each of them comes to an end, with
a result or with an error, and so does every query (`execute_ne_diverged`).

Of the loops one is not counted. The outermost loop of a materialization goes on until all rows are
read, so what has to be seen is that it reads one in each turn: a turn ends with an output chunk
that is full, or with no row left.
-/

namespace Pefa

open WhileLoop

/-! ## Steps without a loop -/

theorem intAdd_halts (a b : Nat) : Halts .diverged (intAdd a b) := by
  unfold intAdd
  split
  · exact .ok _
  · exact .error (by decide)

theorem loadElem_halts {α : Type} (values : List α) (size addr : Nat) :
    Halts .diverged (loadElem values size addr) := by
  unfold loadElem
  split
  · split
    · exact .ok _
    · exact .error (by decide)
  · exact .error (by decide)

theorem loadByte_halts (bitmap : Bitmap) (index : Nat) :
    Halts .diverged (loadByte bitmap index) := by
  unfold loadByte
  split
  · exact .ok _
  · exact .error (by decide)

theorem storeByte_halts (bitmap : Bitmap) (index : Nat) (x : BitVec 8) :
    Halts .diverged (storeByte bitmap index x) := by
  unfold storeByte
  split
  · exact .ok _
  · exact .error (by decide)

theorem shlByte_halts (x amount : BitVec 8) : Halts .diverged (shlByte x amount) := by
  unfold shlByte
  split
  · exact .ok _
  · exact .error (by decide)

/-! ## The generated loops -/

/-- A counter below a bound is not the largest number of its type. -/
theorem toInt_succ {w : Nat} {i n : BitVec w} (h : i.slt n = true) :
    (i + 1#w).toInt = i.toInt + 1 := by
  have hlt : i.toInt < n.toInt := BitVec.slt_iff_toInt_lt.mp h
  have hn := BitVec.two_mul_toInt_lt (x := n)
  have hi := BitVec.le_two_mul_toInt (x := i)
  cases w with
  | zero =>
      rw [BitVec.toInt_of_zero_length rfl, BitVec.toInt_of_zero_length rfl] at hlt
      omega
  | succ w =>
      have hbmod : (((i.toNat + (1#(w + 1)).toNat : Nat) : Int)).bmod ↑(2 ^ (w + 1)) =
          (i.toInt + 1).bmod ↑(2 ^ (w + 1)) := by
        rw [BitVec.toInt_eq_toNat_bmod, Int.bmod_add_bmod]
        simp
      rw [BitVec.toInt_eq_toNat_bmod, BitVec.toNat_add, Int.natCast_mod, Int.emod_bmod, hbmod]
      apply Int.bmod_eq_of_le_mul_two
      · push_cast at *
        omega
      · push_cast at *
        omega

section

variable {α : Type} {predicate : α → Bool} {values : List α} {size : Nat}

/-- **A loop over a machine integer** comes to an end if its body adds one to it. -/
theorem countingLoop_halts {σ : Type} {w : Nat} (i : σ → BitVec w) (n : BitVec w)
    {body : σ → Except Error σ} (hbody : ∀ s, Halts .diverged (body s))
    (hstep : ∀ s s', body s = .ok s' → i s' = i s + 1#w) (s : σ) (h : i s = 0#w) :
    Halts .diverged (whileLoop .diverged (fun s => (i s).slt n) body (2 ^ w) s) := by
  refine Halts.whileLoop (fun _ => True) (fun s => (n.toInt - (i s).toInt).toNat)
    (fun s _ hc => ?_) (fun s _ _ => hbody s) (fun s s' _ hc hs' => ⟨trivial, ?_⟩) trivial ?_
  · have := BitVec.slt_iff_toInt_lt.mp hc
    omega
  · have := BitVec.slt_iff_toInt_lt.mp hc
    rw [hstep s s' hs', toInt_succ hc]
    omega
  · have hlt : 2 * n.toInt < ((2 ^ w : Nat) : Int) := by
      push_cast
      exact BitVec.two_mul_toInt_lt
    have hpos : 0 ≤ ((2 ^ w : Nat) : Int) := Int.natCast_nonneg _
    rw [h, BitVec.toInt_zero]
    omega

theorem filterInnerBody_halts (src : Nat) (s : InnerState) :
    Halts .diverged (filterInnerBody predicate values size src s) :=
  (loadElem_halts _ _ _).bind fun _ _ => (shlByte_halts _ _).bind fun _ _ => .ok _

theorem filterOuterBody_halts (source dest : Nat) (s : OuterState) :
    Halts .diverged (filterOuterBody predicate values size source dest s) := by
  refine Halts.bind (countingLoop_halts InnerState.j 8#8 (filterInnerBody_halts _) ?_ _ rfl)
    fun inner _ => ?_
  · intro t t' ht
    obtain ⟨x, -, ht⟩ := bind_eq_ok.mp ht
    obtain ⟨y, -, ht⟩ := bind_eq_ok.mp ht
    cases ht
    rfl
  · exact (loadByte_halts _ _).bind fun _ _ => (storeByte_halts _ _ _).bind fun _ _ => .ok _

theorem filterFunc_halts (source : Nat) (bitmap : Bitmap) (dest : Nat) (len : BitVec 64) :
    Halts .diverged (filterFunc predicate values size source bitmap dest len) := by
  refine Halts.bind (countingLoop_halts OuterState.i (len / 8#64)
    (filterOuterBody_halts source dest) ?_ _ rfl) fun s _ => .ok _
  intro s s' hs
  obtain ⟨inner, -, hs⟩ := bind_eq_ok.mp hs
  obtain ⟨x, -, hs⟩ := bind_eq_ok.mp hs
  obtain ⟨b, -, hs⟩ := bind_eq_ok.mp hs
  cases hs
  rfl

theorem filterRemainingBody_halts (source dest : Nat) (bitOffset : BitVec 8) (s : RemainingState) :
    Halts .diverged (filterRemainingBody predicate values size source dest bitOffset s) :=
  (loadElem_halts _ _ _).bind fun _ _ => (shlByte_halts _ _).bind fun _ _ =>
    (loadByte_halts _ _).bind fun _ _ => (storeByte_halts _ _ _).bind fun _ _ => .ok _

theorem filterRemainingFunc_halts (source : Nat) (bitmap : Bitmap) (dest : Nat)
    (len bitOffset : BitVec 8) :
    Halts .diverged
      (filterRemainingFunc predicate values size source bitmap dest len bitOffset) := by
  refine Halts.bind (countingLoop_halts RemainingState.i len
    (filterRemainingBody_halts source dest bitOffset) ?_ _ rfl) fun s _ => .ok _
  intro s s' hs
  obtain ⟨x, -, hs⟩ := bind_eq_ok.mp hs
  obtain ⟨y, -, hs⟩ := bind_eq_ok.mp hs
  obtain ⟨z, -, hs⟩ := bind_eq_ok.mp hs
  obtain ⟨b, -, hs⟩ := bind_eq_ok.mp hs
  cases hs
  rfl

end

section

variable {field : Field}

theorem FilterKernel.execute_halts (kernel : FilterKernel field)
    (column : ArrayData field.type.CType) (bitmap : Bitmap) (byte offset : Nat) :
    Halts .diverged (kernel.execute column bitmap byte offset) := by
  unfold FilterKernel.execute
  split
  · exact .error (by decide)
  · split
    · exact filterFunc_halts _ _ _ _
    · exact .error nofun

theorem FilterKernel.executeRemaining_halts (kernel : FilterKernel field)
    (column : ArrayData field.type.CType) (bitmap : Bitmap) (byte arrayOffset : Nat)
    (bitOffset : BitVec 8) :
    Halts .diverged (kernel.executeRemaining column bitmap byte arrayOffset bitOffset) := by
  unfold FilterKernel.executeRemaining
  split
  · exact .error (by decide)
  · split
    · exact filterRemainingFunc_halts _ _ _ _ _
    · exact .error nofun

theorem runCall_halts (kernel : FilterKernel field) (column : ChunkedArray field.type.CType)
    (bitmap : Bitmap) (call : KernelCall) :
    Halts .diverged (runCall kernel column bitmap call) := by
  cases call with
  | execute chunk byte offset =>
      cases hchunk : column.chunks[chunk]? with
      | none =>
          simp only [runCall, hchunk]
          exact .error (by decide)
      | some c =>
          simp only [runCall, hchunk]
          exact kernel.execute_halts _ _ _ _
  | executeRemaining chunk byte arrayOffset bitOffset =>
      cases hchunk : column.chunks[chunk]? with
      | none =>
          simp only [runCall, hchunk]
          exact .error (by decide)
      | some c =>
          simp only [runCall, hchunk]
          exact kernel.executeRemaining_halts _ _ _ _ _

theorem runCalls_halts (kernel : FilterKernel field) (column : ChunkedArray field.type.CType)
    (calls : List KernelCall) (bitmap : Bitmap) :
    Halts .diverged (runCalls kernel column calls bitmap) := by
  induction calls generalizing bitmap with
  | nil => exact .ok bitmap
  | cons call calls ih => exact (runCall_halts kernel column bitmap call).bind fun _ _ => ih _

/-! ## Compiling a kernel -/

theorem fromArrow_halts (type : DataType) : Halts .diverged (fromArrow type) := by
  unfold fromArrow
  split <;> first | exact .ok _ | exact .error nofun

theorem getInt_halts (l : LiteralExpr) : Halts .diverged l.getInt := by
  cases l <;> first | exact .ok _ | exact .error (by decide)

theorem getDouble_halts (l : LiteralExpr) : Halts .diverged l.getDouble := by
  cases l <;> first | exact .ok _ | exact .error (by decide)

theorem arrowTypedConstInt_halts (type : DataType) (val : BitVec 32) :
    Halts .diverged (arrowTypedConstInt type val) := by
  unfold arrowTypedConstInt
  split <;> first | exact .ok _ | exact .error (by decide)

theorem arrowTypedConstDouble_halts (type : DataType) (val : FloatValue) :
    Halts .diverged (arrowTypedConstDouble type val) := by
  unfold arrowTypedConstDouble
  split <;> first | exact .ok _ | exact .error nofun

theorem constFromVariant_halts (type : DataType) (l : LiteralExpr) :
    Halts .diverged (constFromVariant type l) := by
  unfold constFromVariant
  split
  · exact (getInt_halts l).bind fun _ _ => arrowTypedConstInt_halts _ _
  · exact (getDouble_halts l).bind fun _ _ => arrowTypedConstDouble_halts _ _
  · exact (getDouble_halts l).bind fun _ _ => arrowTypedConstDouble_halts _ _
  · exact .error (by decide)

theorem createCmp_halts (op : CompareOp) (type : DataType) :
    Halts .diverged (createCmp op type) := by
  have hfunc : ∀ icmp ucmp fcmp, Halts .diverged (createCmpFunc icmp ucmp fcmp type) := by
    intro icmp ucmp fcmp
    unfold createCmpFunc
    split <;> first | exact .ok _ | exact .error nofun
  cases op with
  | gt => exact hfunc (fun _ x y => y.slt x) (fun _ x y => y.ult x) FloatValue.fcmpOgt
  | lt => exact hfunc (fun _ x y => x.slt y) (fun _ x y => x.ult y) FloatValue.fcmpOlt
  | ge => exact hfunc (fun _ x y => y.sle x) (fun _ x y => y.ule x) FloatValue.fcmpOge
  | le => exact hfunc (fun _ x y => x.sle y) (fun _ x y => x.ule y) FloatValue.fcmpOle
  | eq => exact hfunc (fun _ x y => x == y) (fun _ x y => x == y) FloatValue.fcmpOeq
  | neq => exact hfunc (fun _ x y => x != y) (fun _ x y => x != y) FloatValue.fcmpOne

theorem irEmitVisit_halts (e : BooleanExpr) (result : Option (field.type.CType → Bool)) :
    Halts .diverged (irEmitVisit field e result) := by
  induction e generalizing result with
  | booleanConst value => exact .ok result
  | predicateExpr lhs rhs op ihl ihr =>
      refine (ihl result).bind fun p _ => (ihr p).bind fun q _ => ?_
      split
      · exact .ok _
      · exact .error (by decide)
  | compareExpr lhs rhs op =>
      unfold irEmitVisit
      split
      · exact (constFromVariant_halts _ _).bind fun _ _ => (createCmp_halts _ _).bind fun _ _ =>
          .ok _
      · exact .error (by decide)

theorem FilterKernel.compile_halts (kernel : FilterKernel field) :
    Halts .diverged kernel.compile := by
  refine Halts.bind ((fromArrow_halts _).bind fun _ _ => (irEmitVisit_halts _ _).bind
    fun p _ => ?_) fun _ _ => .ok _
  split
  · exact .ok _
  · exact .error (by decide)

end

/-! ## Filters -/

theorem compareBuffer_halts (table : Table) (lhs : ColumnRef) (rhs : LiteralExpr)
    (op : CompareOp) : Halts .diverged (compareBuffer table lhs rhs op) := by
  cases hcolumn : table.getColumnByName lhs.name with
  | none =>
      simp only [compareBuffer, hcolumn]
      exact .error (by decide)
  | some column =>
      simp only [compareBuffer, hcolumn]
      exact (FilterKernel.compile_halts _).bind fun _ _ => runCalls_halts _ _ _ _

theorem getBuffer_halts (buffers : List Bitmap) (buf : Option Nat) :
    Halts .diverged (getBuffer buffers buf) := by
  cases buf with
  | none => exact .error (by decide)
  | some a =>
      cases hb : buffers[a]? with
      | none =>
          simp only [getBuffer, hb]
          exact .error (by decide)
      | some b =>
          simp only [getBuffer, hb]
          exact .ok b

theorem combine_halts (op : PredicateOp) (lhsBuf rhsBuf : Option Nat) (buffers : List Bitmap) :
    Halts .diverged (combine op lhsBuf rhsBuf buffers) := by
  refine (getBuffer_halts _ _).bind fun lhs _ => Halts.bind ?_ fun _ _ => .ok _
  -- the counter is an `int`, however long the bitmap is
  refine Halts.whileLoop (fun s : CombineState => s.i < 2 ^ 31) (fun s => 2 ^ 31 - s.i)
    (fun s hs _ => by omega) (fun s _ _ => ?_) (fun s s' hs _ hs' => ?_)
    (by show 0 < 2 ^ 31; decide) (by unfold intFuel; exact Nat.sub_le _ _)
  · exact (getBuffer_halts _ _).bind fun _ _ => (loadByte_halts _ _).bind fun _ _ =>
      (getBuffer_halts _ _).bind fun _ _ => (loadByte_halts _ _).bind fun _ _ =>
        (storeByte_halts _ _ _).bind fun _ _ => (intAdd_halts _ _).bind fun _ _ => .ok _
  · obtain ⟨_, -, hs'⟩ := bind_eq_ok.mp hs'
    obtain ⟨_, -, hs'⟩ := bind_eq_ok.mp hs'
    obtain ⟨_, -, hs'⟩ := bind_eq_ok.mp hs'
    obtain ⟨_, -, hs'⟩ := bind_eq_ok.mp hs'
    obtain ⟨_, -, hs'⟩ := bind_eq_ok.mp hs'
    obtain ⟨i, hi, hs'⟩ := bind_eq_ok.mp hs'
    obtain ⟨rfl, hlt⟩ := intAdd_eq_ok hi
    cases hs'
    exact ⟨hlt, by show 2 ^ 31 - (s.i + 1) < 2 ^ 31 - s.i; omega⟩

theorem visit_halts (table : Table) (e : BooleanExpr) (s : FilterExprExecutor) :
    Halts .diverged (FilterExprExecutor.visit table e s) := by
  induction e generalizing s with
  | booleanConst value => exact .ok s
  | predicateExpr lhs rhs op ihl ihr =>
      exact (ihl s).bind fun s₁ _ => (ihr s₁).bind fun _ _ => (combine_halts _ _ _ _).bind
        fun _ _ => .ok _
  | compareExpr lhs rhs op => exact (compareBuffer_halts _ _ _ _).bind fun _ _ => .ok _

theorem create_halts (table : Table) : Halts .diverged (ExecutionContext.create table) := by
  refine (Halts.mapM fun c _ => Halts.mapM fun _ _ => ?_).bind fun _ _ => .ok _
  unfold createEmptyChunkMetadata
  split <;> first | exact .ok _ | exact .error nofun

theorem generateFilterBitmap_halts (ctx : ExecutionContext) (e : BooleanExpr) :
    Halts .diverged (generateFilterBitmap ctx e) := by
  unfold generateFilterBitmap
  split
  · exact create_halts _
  · split
    · exact create_halts _
    · exact (visit_halts _ _ _).bind fun _ _ => (create_halts _).bind fun _ _ => .ok _

/-! ## The loops of a materialization -/

section

variable {α : Type} {column : ChunkedArray α} {bitmap : Bitmap}

theorem storeElem_halts (dataOut : List α) (index : Nat) (x : α) :
    Halts .diverged (storeElem dataOut index x) := by
  unfold storeElem
  split
  · split
    · exact .ok _
    · split
      · exact .ok _
      · exact .error (by decide)
  · exact .error (by decide)

theorem loadBit_halts (bitmap : Bitmap) (row : Nat) : Halts .diverged (loadBit bitmap row) := by
  unfold loadBit
  split
  · exact .ok _
  · exact .error (by decide)

/-- A bit is at most one. -/
theorem loadBit_le {row bit : Nat} (h : loadBit bitmap row = .ok bit) : bit ≤ 1 := by
  unfold loadBit at h
  split at h
  · cases h
    rw [BitVec.toNat_and]
    exact Nat.and_le_right
  · cases h

theorem copyElem_halts (chunk : ArrayData α) (bitmap : Bitmap) (s : CopyState α) :
    Halts .diverged (copyElem chunk bitmap s) := by
  cases hx : chunk.values[s.currentChunkPos]? with
  | none =>
      simp only [copyElem, hx, bind_error]
      exact .error (by decide)
  | some x =>
      simp only [copyElem, hx, bind_ok]
      exact (storeElem_halts _ _ _).bind fun _ _ => (loadBit_halts _ _).bind fun _ _ =>
        (intAdd_halts _ _).bind fun _ _ => (intAdd_halts _ _).bind fun _ _ =>
          (intAdd_halts _ _).bind fun _ _ => .ok _

/-- A row more is read, and at most one more is written. -/
structure ReadsOne (s s' : CopyState α) : Prop where
  chunk : s'.currentChunk = s.currentChunk
  pos : s'.currentChunkPos = s.currentChunkPos + 1
  row : s'.totalElementsPos = s.totalElementsPos + 1
  written : s'.newChunkPos ≤ s.newChunkPos + 1

theorem copyElem_readsOne {chunk : ArrayData α} {s s' : CopyState α}
    (h : copyElem chunk bitmap s = .ok s') : ReadsOne s s' := by
  obtain ⟨x, hx⟩ : ∃ x, chunk.values[s.currentChunkPos]? = some x := by
    cases hx : chunk.values[s.currentChunkPos]? with
    | some x => exact ⟨x, rfl⟩
    | none =>
        simp only [copyElem, hx, bind_error] at h
        cases h
  simp only [copyElem, hx, bind_ok] at h
  obtain ⟨dataOut, -, h⟩ := bind_eq_ok.mp h
  obtain ⟨bit, hbit, h⟩ := bind_eq_ok.mp h
  obtain ⟨newChunkPos, hnew, h⟩ := bind_eq_ok.mp h
  obtain ⟨pos, hpos, h⟩ := bind_eq_ok.mp h
  obtain ⟨row, hrow, h⟩ := bind_eq_ok.mp h
  obtain ⟨rfl, -⟩ := intAdd_eq_ok hnew
  obtain ⟨rfl, -⟩ := intAdd_eq_ok hpos
  obtain ⟨rfl, -⟩ := intAdd_eq_ok hrow
  cases h
  exact ⟨rfl, rfl, rfl, Nat.add_le_add_left (loadBit_le hbit) _⟩

/-- Each row that is written since row `r` was read since then. -/
def ReadSince (r : Nat) (s : CopyState α) : Prop := s.newChunkPos + r ≤ s.totalElementsPos

theorem copyChunk_readSince {chunk : ArrayData α} {r : Nat} {s s' : CopyState α}
    (h : copyChunk chunk bitmap s = .ok s') (hs : ReadSince r s) : ReadSince r s' := by
  refine (whileLoop_inv (ReadSince r) (fun t t' ht _ hbody => ?_) hs h).1
  have hone := copyElem_readsOne hbody
  have hwritten := hone.written
  have hrow := hone.row
  unfold ReadSince at ht ⊢
  omega

theorem copyChunk_halts {chunk : ArrayData α} {i : Nat} {s : CopyState α}
    (hchunk : column.chunks[i]? = some chunk) (hs : CountingIn column i s) :
    Halts .diverged (copyChunk chunk bitmap s) := by
  refine Halts.whileLoop (CountingIn column i) (fun s => 2 ^ 31 - s.currentChunkPos)
    (fun t ht _ => ?_) (fun t _ _ => copyElem_halts chunk bitmap t) (fun t t' ht hc ht' => ?_) hs
    (Nat.sub_le _ _)
  · have := ht.row_lt
    have := ht.atRow.row
    omega
  · rw [Bool.and_eq_true, decide_eq_true_eq, decide_eq_true_eq] at hc
    have hcounting := copyElem_counts hchunk ht hc.2 ht'
    have hlt := hcounting.row_lt
    have hrow := hcounting.atRow.row
    have hpos := (copyElem_readsOne ht').pos
    exact ⟨hcounting, by omega⟩

/-- The output chunk is full, or the next chunk is read. -/
theorem fillBody_moves {s s' : CopyState α}
    (hs : Counting column s.currentChunk s.currentChunkPos s.totalElementsPos)
    (h : fillBody column bitmap s = .ok s') :
    (∀ r, ReadSince r s → ReadSince r s') ∧
      (chunkSize ≤ s'.newChunkPos ∨ s'.currentChunk = s.currentChunk + 1) := by
  cases hchunk : column.chunks[s.currentChunk]? with
  | none =>
      simp only [fillBody, hchunk, bind_error] at h
      cases h
  | some chunk =>
      simp only [fillBody, hchunk, bind_ok] at h
      obtain ⟨t, hcopy, h⟩ := bind_eq_ok.mp h
      have ht := copyChunk_counts hchunk ⟨hs.atRow, rfl, hs.row_lt⟩ hcopy
      have hread := fun r => copyChunk_readSince (r := r) hcopy
      split at h
      · next hend =>
          obtain ⟨currentChunk, hadd, h⟩ := bind_eq_ok.mp h
          obtain ⟨rfl, -⟩ := intAdd_eq_ok hadd
          cases h
          exact ⟨hread, .inr (by show t.currentChunk + 1 = _; rw [ht.chunk_eq])⟩
      · next hend =>
          cases h
          -- the copying stopped, and not at the end of the chunk
          have hstop := (whileLoop_inv (fun _ => True) (fun _ _ _ _ _ => trivial) trivial hcopy).2
          have hle := ht.atRow.pos_le chunk (by rw [ht.chunk_eq, hchunk])
          simp only [Bool.and_eq_false_iff, decide_eq_false_iff_not] at hstop
          exact ⟨hread, .inl (by omega)⟩

theorem fillBody_halts {s : CopyState α}
    (hs : Counting column s.currentChunk s.currentChunkPos s.totalElementsPos) :
    Halts .diverged (fillBody column bitmap s) := by
  cases hchunk : column.chunks[s.currentChunk]? with
  | none =>
      simp only [fillBody, hchunk, bind_error]
      exact .error (by decide)
  | some chunk =>
      simp only [fillBody, hchunk, bind_ok]
      refine (copyChunk_halts hchunk ⟨hs.atRow, rfl, hs.row_lt⟩).bind fun t _ => ?_
      split
      · exact (intAdd_halts _ _).bind fun _ _ => .ok _
      · exact .ok t

theorem fillChunk_halts {s : CopyState α}
    (hs : Counting column s.currentChunk s.currentChunkPos s.totalElementsPos) :
    Halts .diverged (fillChunk column bitmap s) := by
  -- the chunks that are left, as long as there is room for a row
  refine Halts.whileLoop
    (fun s => Counting column s.currentChunk s.currentChunkPos s.totalElementsPos)
    (fun s => if s.newChunkPos < chunkSize then 2 ^ 31 - s.currentChunk else 0)
    (fun t ht hc => ?_) (fun t ht _ => fillBody_halts ht) (fun t t' ht hc ht' => ?_) hs ?_
  · rw [Bool.and_eq_true, decide_eq_true_eq] at hc
    rw [if_pos hc.1]
    have := ht.chunk_lt
    omega
  · rw [Bool.and_eq_true, decide_eq_true_eq] at hc
    refine ⟨fillBody_counts ht ht', ?_⟩
    have hlt := ht.chunk_lt
    rw [if_pos hc.1]
    -- the chunk that is read, or the room in the chunk that is written
    rcases (fillBody_moves ht ht').2 with hfull | hnext
    · rw [if_neg (by omega)]
      omega
    · split <;> omega
  · split
    · exact Nat.sub_le _ _
    · exact Nat.zero_le _

/-- **A turn of the outermost loop reads a row**, if there is one left. -/
theorem fillChunk_reads {s s' : CopyState α}
    (hs : Counting column s.currentChunk s.currentChunkPos s.totalElementsPos)
    (hnew : s.newChunkPos = 0) (hleft : s.totalElementsPos < column.length)
    (h : fillChunk column bitmap s = .ok s') : s.totalElementsPos < s'.totalElementsPos := by
  obtain ⟨⟨-, hread⟩, hstop⟩ := whileLoop_inv
    (fun t : CopyState α => Counting column t.currentChunk t.currentChunkPos t.totalElementsPos ∧
      ReadSince s.totalElementsPos t)
    (fun t t' ht _ hbody => ⟨fillBody_counts ht.1 hbody, (fillBody_moves ht.1 hbody).1 _ ht.2⟩)
    ⟨hs, by unfold ReadSince; omega⟩ h
  simp only [Bool.and_eq_false_iff, decide_eq_false_iff_not] at hstop
  have hpos := chunkSize_pos
  unfold ReadSince at hread
  omega

theorem materializeBody_halts {s : MaterializeState α}
    (hs : Counting column s.currentChunk s.currentChunkPos s.totalElementsPos) :
    Halts .diverged (materializeBody column bitmap s) := by
  refine (fillChunk_halts (s := ⟨_, _, _, _, _⟩) hs).bind fun t _ => Halts.bind ?_ fun _ _ => .ok _
  unfold makeArray
  split
  · exact .ok _
  · exact .error (by decide)

theorem materializeColumn_halts (column : ChunkedArray α) (bitmap : Bitmap) :
    Halts .diverged (materializeColumn column bitmap) := by
  have hstart : Counting column 0 0 0 := counting_zero column
  refine Halts.bind ((materializeBody_halts hstart).bind fun s hs => ?_) fun s _ => ?_
  · refine Halts.whileLoop (fun s : MaterializeState α =>
        Counting column s.currentChunk s.currentChunkPos s.totalElementsPos)
      (fun s => 2 ^ 31 - s.totalElementsPos) (fun t ht _ => ?_)
      (fun t ht _ => materializeBody_halts ht) (fun t t' ht hc ht' => ?_)
      (materializeBody_counts hstart hs).1 (Nat.sub_le _ _)
    · have := ht.row_lt
      omega
    · have hcounts := (materializeBody_counts ht ht').1
      have hlt := hcounts.row_lt
      obtain ⟨u, hfill, ht'⟩ := bind_eq_ok.mp ht'
      obtain ⟨array, -, ht'⟩ := bind_eq_ok.mp ht'
      cases ht'
      have hreads := fillChunk_reads (s := ⟨_, _, _, _, _⟩) ht rfl (of_decide_eq_true hc) hfill
      refine ⟨hcounts, ?_⟩
      show 2 ^ 31 - u.totalElementsPos < 2 ^ 31 - t.totalElementsPos
      have hlt' : u.totalElementsPos < 2 ^ 31 := hlt
      have hreads' : t.totalElementsPos < u.totalElementsPos := hreads
      omega
  · unfold ChunkedArray.create
    split
    · exact .ok _
    · exact .error (by decide)

end

/-! ## Queries -/

theorem materializeFilter_halts (ctx : ExecutionContext) :
    Halts .diverged (materializeFilter ctx) := by
  unfold materializeFilter
  split
  · exact .error (by decide)
  · refine (Halts.mapM fun c _ => ?_).bind fun _ _ => create_halts _
    unfold materializeTableColumn
    split
    · exact (materializeColumn_halts _ _).bind fun _ _ => .ok _
    · exact .error nofun

theorem project_halts (ctx : ExecutionContext) (names : List String) :
    Halts .diverged (project ctx names) := by
  refine (Halts.mapM fun name _ => ?_).bind fun _ _ => create_halts _
  unfold deref
  split
  · exact .ok _
  · exact .error (by decide)

/-- **What every node does comes to an end, and so does what every plan does.** -/
theorem PlanVisitor.start_halts {σ : Type} {v : PlanVisitor σ}
    (hproject : ∀ fields s, Halts .diverged (v.onVisitProjection fields s))
    (hfilter : ∀ expr s, Halts .diverged (v.onVisitFilter expr s))
    (hmaterialize : ∀ s, Halts .diverged (v.onVisitMaterialize s)) (plan : LogicalPlan) (s : σ) :
    Halts .diverged (v.start plan s) := by
  have hvisit : ∀ plan, Halts .diverged (v.visit plan s) := by
    intro plan
    induction plan with
    | nullptr => exact .ok s
    | projectionNode input fields ih => exact ih.bind fun t _ => hproject fields t
    | filterNode input expr ih => exact ih.bind fun t _ => hfilter expr t
    | materializeFilterNode input ih => exact ih.bind fun t _ => hmaterialize t
  cases plan with
  | nullptr => exact .error (by decide)
  | projectionNode input fields => exact hvisit _
  | filterNode input expr => exact hvisit _
  | materializeFilterNode input => exact hvisit _

theorem optimize_halts (plan : LogicalPlan) : Halts .diverged (optimize plan) :=
  PlanVisitor.start_halts (fun _ _ => .ok _) (fun _ _ => .ok _) (fun _ => .ok _) plan _

/-- **Every query comes to an end**: on every plan and every table, with a table or with an
error. -/
theorem execute_ne_diverged (plan : LogicalPlan) (t : Table) : execute plan t ≠ .error .diverged :=
  (optimize_halts plan).bind fun plan' _ => (create_halts t).bind fun ctx _ =>
    (PlanVisitor.start_halts (fun fields ctx => project_halts ctx fields)
      (fun expr ctx => generateFilterBitmap_halts ctx expr) materializeFilter_halts plan' ctx).bind
      fun _ _ => .ok _

end Pefa
