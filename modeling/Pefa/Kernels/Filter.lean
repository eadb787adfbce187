import Pefa.Lib.WhileLoop
import Pefa.Lib.Bitmap
import Pefa.Kernels.LlvmHelpers

/-!
# The filter kernel

A kernel is compiled for one field and one expression. Its predicate is generated by
`irEmitVisit`; around it stand two generated loops, `filterFunc` for the bytes of the bitmap that
lie inside the array and `filterRemainingFunc` for a byte that is shared with a neighbour.

The loops are the generated LLVM code, register by register: `i` is an `i64` or `i8`, the shifts
are shifts of an `i8`, and pointers are byte offsets into the value buffer and indices into the
bitmap. A run ends in an error at the first access outside of its buffer, and otherwise returns
the bitmap together with the list of everything it accessed.
-/

namespace Pefa

open WhileLoop

/-! ## The predicate -/

/-- `IrEmitVisitor`: the generated `i1` as a function of the predicate's argument. The state is
`m_result`, null until something is emitted; a constant emits nothing. -/
def irEmitVisit (field : Field) : BooleanExpr → Option (field.type.CType → Bool) →
    Except Error (Option (field.type.CType → Bool))
  | .booleanConst _, result => .ok result
  | .predicateExpr lhs rhs op, result => do
      let lhs ← irEmitVisit field lhs result
      let rhs ← irEmitVisit field rhs lhs
      match lhs, rhs with
      | some p, some q => .ok (some fun x => op.apply (p x) (q x))
      | _, _ => .error .nullDeref
  | .compareExpr lhs rhs op, _ =>
      if lhs.name = field.name then do
        let constant ← constFromVariant field.type rhs
        let cmp ← createCmp op field.type
        .ok (some fun x => cmp x constant)
      else .error .assertFailed

/-- `gen_predicate_func`: without a value to return, the function is not well formed. -/
def genPredicateFunc (field : Field) (expr : BooleanExpr) :
    Except Error (field.type.CType → Bool) := do
  let _ ← fromArrow field.type
  match ← irEmitVisit field expr none with
  | some p => .ok p
  | none => .error .brokenModule

/-! ## Memory accesses -/

/-- One access of the generated code: an element of the value buffer, a byte of the bitmap, or
the amount of a shift. -/
inductive Access where
  | loadElem (index : Nat)
  | loadByte (index : Nat)
  | storeByte (index : Nat)
  | shift (amount : Nat)
  deriving DecidableEq, Repr

/-- Load the element of `size` bytes at byte `addr` of the value buffer. -/
def loadElem {α : Type} (values : List α) (size addr : Nat) : Except Error α :=
  if addr % size = 0 then
    match values[addr / size]? with
    | some x => .ok x
    | none => .error .outOfBounds
  else .error .outOfBounds

def loadByte (bitmap : Bitmap) (index : Nat) : Except Error (BitVec 8) :=
  match bitmap[index]? with
  | some x => .ok x
  | none => .error .outOfBounds

def storeByte (bitmap : Bitmap) (index : Nat) (x : BitVec 8) : Except Error Bitmap :=
  if index < bitmap.length then .ok (bitmap.set index x) else .error .outOfBounds

/-- `shl i8`: poison when the amount is not below the width. -/
def shlByte (x amount : BitVec 8) : Except Error (BitVec 8) :=
  if amount.toNat < 8 then .ok (x <<< amount.toNat) else .error .badShift

/-! ## `gen_filter_func` -/

section Generated

variable {α : Type} (predicate : α → Bool) (values : List α) (size : Nat)

structure InnerState where
  j : BitVec 8
  tmpBitmap : BitVec 8
  trace : List Access

/-- `tmp_bitmap |= predicate(src[j]) << (7 - j); j++` -/
def filterInnerBody (src : Nat) (s : InnerState) : Except Error InnerState := do
  let addr := src + size * s.j.toNat
  let x ← loadElem values size addr
  let bit := (BitVec.ofBool (predicate x)).setWidth 8
  let amount := 7#8 - s.j
  let bitWithShift ← shlByte bit amount
  .ok { j := s.j + 1#8
        tmpBitmap := s.tmpBitmap ||| bitWithShift
        trace := s.trace ++ [.loadElem (addr / size), .shift amount.toNat] }

structure OuterState where
  i : BitVec 64
  bitmap : Bitmap
  trace : List Access

/-- `src = source + i * 8; tmp_bitmap = 0; for (j = 0; j < 8; j++) …; dest[i] &= tmp_bitmap; i++` -/
def filterOuterBody (source dest : Nat) (s : OuterState) : Except Error OuterState := do
  let src := source + size * (s.i * 8#64).toNat
  let inner ← whileLoop .diverged (fun t : InnerState => t.j.slt 8#8)
    (filterInnerBody predicate values size src) (2 ^ 8) ⟨0#8, 0#8, s.trace⟩
  let index := dest + s.i.toNat
  let destVal ← loadByte s.bitmap index
  let bitmap ← storeByte s.bitmap index (destVal &&& inner.tmpBitmap)
  .ok { i := s.i + 1#64
        bitmap := bitmap
        trace := inner.trace ++ [.loadByte index, .storeByte index] }

/-- The generated `<field>_filter(in, out, len)`: `in` points to byte `source` of the value
buffer, `out` to byte `dest` of the bitmap. -/
def filterFunc (source : Nat) (bitmap : Bitmap) (dest : Nat) (len : BitVec 64) :
    Except Error (Bitmap × List Access) := do
  let s ← whileLoop .diverged (fun s : OuterState => s.i.slt (len / 8#64))
    (filterOuterBody predicate values size source dest) (2 ^ 64) ⟨0#64, bitmap, []⟩
  .ok (s.bitmap, s.trace)

/-! ## `gen_filter_remaining_func` -/

structure RemainingState where
  i : BitVec 8
  bitmap : Bitmap
  trace : List Access

/-- `*dest &= ~((~predicate(source[i]) & 1) << (7 - (i + bit_offset))); i++` -/
def filterRemainingBody (source dest : Nat) (bitOffset : BitVec 8) (s : RemainingState) :
    Except Error RemainingState := do
  let addr := source + size * s.i.toNat
  let x ← loadElem values size addr
  let bit := (BitVec.ofBool (predicate x)).setWidth 8
  let amount := 7#8 - (s.i + bitOffset)
  let shifted ← shlByte (~~~bit &&& 1#8) amount
  let destVal ← loadByte s.bitmap dest
  let bitmap ← storeByte s.bitmap dest (destVal &&& ~~~shifted)
  .ok { i := s.i + 1#8
        bitmap := bitmap
        trace := s.trace ++
          [.loadElem (addr / size), .shift amount.toNat, .loadByte dest, .storeByte dest] }

/-- The generated `<field>_filter_remaining(in, out, len, bit_offset)`. -/
def filterRemainingFunc (source : Nat) (bitmap : Bitmap) (dest : Nat) (len bitOffset : BitVec 8) :
    Except Error (Bitmap × List Access) := do
  let s ← whileLoop .diverged (fun s : RemainingState => s.i.slt len)
    (filterRemainingBody predicate values size source dest bitOffset) (2 ^ 8) ⟨0#8, bitmap, []⟩
  .ok (s.bitmap, s.trace)

end Generated

/-! ## `FitlerKernelImpl` -/

/-- A kernel for a field; `predicate` is null until the kernel is compiled (`m_is_compiled`), and
then both generated functions are built around it. -/
structure FilterKernel (field : Field) where
  expr : BooleanExpr
  predicate : Option (field.type.CType → Bool)

namespace FilterKernel

variable {field : Field}

/-- `FilterKernel::create_cpu` -/
def createCpu (field : Field) (expr : BooleanExpr) : FilterKernel field := ⟨expr, none⟩

/-- `FitlerKernelImpl::compile`. The names of the functions begin with the name of the field; names
that LLVM keeps for itself (`llvm.*`, `.L*`) are not considered. -/
def compile (kernel : FilterKernel field) : Except Error (FilterKernel field) := do
  let predicate ← genPredicateFunc field kernel.expr
  .ok { kernel with predicate := some predicate }

/-- `FitlerKernelImpl::execute`; `bitmap` points to byte `byte` of the buffer. -/
def execute (kernel : FilterKernel field) (column : ArrayData field.type.CType) (bitmap : Bitmap)
    (byte offset : Nat) : Except Error (Bitmap × List Access) :=
  match kernel.predicate with
  | none => .error .kernelNotCompiled
  | some predicate =>
      match field.type.bitWidth with
      | some bitWidth =>
          filterFunc predicate column.values (bitWidth / 8) (bitWidth * offset % 2 ^ 64 / 8)
            bitmap (byte + if offset ≠ 0 then 1 else 0)
            (BitVec.ofNat 64 (sizeSub column.length offset))
      | none =>
          .error (.notImplemented "Variable length type filtering does not implemented yet")

/-- The number of elements `execute_remaining` passes to the generated loop, as a `uint8_t`. -/
def remainingLen (length arrayOffset : Nat) (bitOffset : BitVec 8) : BitVec 8 :=
  let rest := BitVec.ofNat 8 (sizeSub length arrayOffset)
  if arrayOffset = 0 then
    -- beginning of chunk
    if rest < 8#8 - bitOffset then rest else 8#8 - bitOffset
  else
    -- end of chunk
    rest

/-- `FitlerKernelImpl::execute_remaining` -/
def executeRemaining (kernel : FilterKernel field) (column : ArrayData field.type.CType)
    (bitmap : Bitmap) (byte arrayOffset : Nat) (bitOffset : BitVec 8) :
    Except Error (Bitmap × List Access) :=
  match kernel.predicate with
  | none => .error .kernelNotCompiled
  | some predicate =>
      match field.type.bitWidth with
      | some bitWidth =>
          filterRemainingFunc predicate column.values (bitWidth / 8)
            (bitWidth * arrayOffset % 2 ^ 64 / 8) bitmap byte
            (remainingLen column.length arrayOffset bitOffset) bitOffset
      | none =>
          .error (.notImplemented "Variable length type filtering does not implemented yet")

/-- A compiled kernel has a predicate, and its type is one that LLVM code can load. -/
theorem compile_eq_ok {kernel kernel' : FilterKernel field} (h : kernel.compile = .ok kernel') :
    (∃ type, fromArrow field.type = .ok type) ∧
      ∃ predicate, kernel'.predicate = some predicate := by
  obtain ⟨predicate, hgen, hk⟩ := bind_eq_ok.mp h
  obtain ⟨type, htype, -⟩ := bind_eq_ok.mp hgen
  refine ⟨⟨type, htype⟩, predicate, ?_⟩
  cases hk
  rfl

theorem fromArrow_integral (s : Bool) (w : Width) :
    ∃ type, fromArrow (.integral s w) = .ok type := by
  cases s <;> cases w <;> exact ⟨_, rfl⟩

theorem fromArrow_of_fits {l : LiteralExpr} {type : DataType} (h : l.Fits type) :
    ∃ t, fromArrow type = .ok t := by
  obtain ⟨s, w, val, rfl, -, -⟩ := h.isIntegral
  exact fromArrow_integral s w

/-- What is compiled for the comparison of a value with a literal is what is emitted for it. -/
theorem irEmitVisit_compareExpr {lhs : ColumnRef} {l : LiteralExpr} {op : CompareOp}
    {predicate : field.type.CType → Bool} (hname : lhs.name = field.name)
    (h : (do let constant ← constFromVariant field.type l
             let cmp ← createCmp op field.type
             .ok fun x => cmp x constant : Except Error (field.type.CType → Bool)) = .ok predicate)
    (result : Option (field.type.CType → Bool)) :
    irEmitVisit field (.compareExpr lhs l op) result = .ok (some predicate) := by
  obtain ⟨constant, hc, hrest⟩ := bind_eq_ok.mp h
  obtain ⟨cmp, hcmp, hok⟩ := bind_eq_ok.mp hrest
  simp only [irEmitVisit, if_pos hname, hc, bind_ok, hcmp]
  exact congrArg (fun p => Except.ok (some p)) (Except.ok.inj hok)

/-- A kernel compiles to the predicate that is emitted for its expression. -/
theorem compile_of_emit {expr : BooleanExpr} {predicate : field.type.CType → Bool}
    (htype : ∃ type, fromArrow field.type = .ok type)
    (hemit : irEmitVisit field expr none = .ok (some predicate)) :
    (createCpu field expr).compile = .ok ⟨expr, some predicate⟩ := by
  obtain ⟨type, htype⟩ := htype
  simp only [compile, createCpu, genPredicateFunc, htype, hemit, bind_ok]

/-- The kernel of a comparison with a literal that fits. -/
theorem compile_compare {lhs : ColumnRef} {l : LiteralExpr} (op : CompareOp)
    (hname : lhs.name = field.name) (h : l.Fits field.type) :
    (createCpu field (.compareExpr lhs l op)).compile =
      .ok ⟨.compareExpr lhs l op, some fun x => op.compare field.type x l⟩ :=
  compile_of_emit (fromArrow_of_fits h)
    (irEmitVisit_compareExpr hname (compileCompare_fits h op) none)

end FilterKernel

end Pefa
