import Pefa.QueryCompiler.Expressions

/-!
# LLVM helpers: types, constants and comparisons

The constants a comparison is compiled with and the instruction it is compiled to, for each column
type (`LLVMTypesHelper`). An LLVM integer is a bit pattern; the sign is in the instruction.

The constant of a comparison with an `int` literal is the literal sign-extended or truncated to
the column's width (`arrowTypedConst_int`). For a literal that the column's type can represent,
the compiled comparison is the comparison of the two integers (`compileCompare_fits`).
-/

namespace Pefa

/-! ## Types -/

inductive LlvmType where
  | i8 | i16 | i32 | i64 | f16 | f32 | f64
  deriving DecidableEq, Repr

/-- `from_arrow` -/
def fromArrow : DataType → Except Error LlvmType
  | .int8 | .uint8 => .ok .i8
  | .int16 | .uint16 => .ok .i16
  | .int32 | .uint32 => .ok .i32
  | .int64 | .uint64 => .ok .i64
  | .halfFloat => .ok .f16
  | .float => .ok .f32
  | .double => .ok .f64
  | type => .error (.notImplemented ("arrow " ++ type.toString ++ " does not supported yet"))

/-! ## Integer constants -/

/-- `llvm::ConstantInt::get` on an integer type of at most 64 bits: the value is truncated, and
what `isSigned` says about wider types does not matter. -/
def constantInt (w : Nat) (val : BitVec 64) (_isSigned : Bool) : BitVec w := val.setWidth w

def i8val (val : BitVec 8) : BitVec 8 := constantInt 8 (val.signExtend 64) false
def i16val (val : BitVec 64) : BitVec 16 := constantInt 16 val false
def i32val (val : BitVec 64) : BitVec 32 := constantInt 32 val false
def i64val (val : BitVec 64) : BitVec 64 := constantInt 64 val false
def u8val (val : BitVec 8) : BitVec 8 := constantInt 8 (val.signExtend 64) true
def u16val (val : BitVec 64) : BitVec 16 := constantInt 16 val true
def u32val (val : BitVec 64) : BitVec 32 := constantInt 32 val true
def u64val (val : BitVec 64) : BitVec 64 := constantInt 64 val true

/-- `arrow_typed_const(type, int)`: the `int` becomes an `int8_t` or a `long`. -/
def arrowTypedConstInt (type : DataType) (val : BitVec 32) : Except Error type.CType :=
  match type with
  | .int8 => .ok (i8val (val.setWidth 8))
  | .int16 => .ok (i16val (val.signExtend 64))
  | .int32 => .ok (i32val (val.signExtend 64))
  | .int64 => .ok (i64val (val.signExtend 64))
  | .uint8 => .ok (u8val (val.setWidth 8))
  | .uint16 => .ok (u16val (val.signExtend 64))
  | .uint32 => .ok (u32val (val.signExtend 64))
  | .uint64 => .ok (u64val (val.signExtend 64))
  | _ => .error .unreachable

/-! ## Floating-point constants -/

namespace FloatWidth

/-- Bits of the significand, the leading one included. -/
def precision : FloatWidth → Nat
  | .half => 11
  | .single => 24
  | .double => 53

/-- The largest exponent; the smallest of a normal number is `1 - maxExponent`. -/
def maxExponent : FloatWidth → Int
  | .half => 15
  | .single => 127
  | .double => 1023

/-- `2 ^ k` -/
def pow2 (k : Int) : Rat := if 0 ≤ k then 2 ^ k.toNat else 1 / 2 ^ (-k).toNat

/-- The exponent of a positive number: `2 ^ k ≤ q < 2 ^ (k + 1)`. -/
def exponent (q : Rat) : Int :=
  let k : Int := q.num.natAbs.log2 - q.den.log2
  if pow2 k ≤ q then k else k - 1

/-- To the nearest integer, ties to the even one. -/
def roundTiesEven (q : Rat) : Int :=
  let f := q.floor
  let d := q - f
  if d < 1 / 2 then f else if d > 1 / 2 then f + 1 else if f % 2 = 0 then f else f + 1

/-- `llvm::ConstantFP::get` converts a `double` to the type's format, rounding to nearest, ties
to even. -/
def round (w : FloatWidth) : FloatValue → FloatValue
  | .num q =>
      let e := max (exponent (max q (-q))) (1 - w.maxExponent)
      let ulp := pow2 (e - (w.precision - 1))
      let r := roundTiesEven (q / ulp) * ulp
      if r ≥ pow2 (w.maxExponent + 1) then .posInf
      else if r ≤ -pow2 (w.maxExponent + 1) then .negInf
      else .num r
  | x => x

end FloatWidth

def f16val (val : FloatValue) : FloatValue := FloatWidth.round .half val
def f32val (val : FloatValue) : FloatValue := FloatWidth.round .single val
def f64val (val : FloatValue) : FloatValue := FloatWidth.round .double val

/-- `arrow_typed_const(type, double)` -/
def arrowTypedConstDouble (type : DataType) (val : FloatValue) : Except Error type.CType :=
  match type with
  | .halfFloat => .ok (f16val val)
  | .float => .ok (f32val val)
  | .double => .ok (f64val val)
  | .other .decimal _ _ => .error (.notImplemented "Decimal support is not implemented yet")
  | _ => .error .unreachable

/-- `std::get<int>` -/
def LiteralExpr.getInt : LiteralExpr → Except Error (BitVec 32)
  | .int value => .ok value
  | _ => .error .badVariantAccess

/-- The alternative with index 1, or else the `int` converted to a `double`. -/
def LiteralExpr.getDouble : LiteralExpr → Except Error FloatValue
  | .double value => .ok value
  | l => do
      let value ← l.getInt
      .ok (.num value.toInt)

/-- `const_from_variant` -/
def constFromVariant (type : DataType) (variant : LiteralExpr) : Except Error type.CType :=
  match type with
  | .integral s w => variant.getInt >>= arrowTypedConstInt (.integral s w)
  | .floating w => variant.getDouble >>= arrowTypedConstDouble (.floating w)
  | .other .decimal text bits =>
      variant.getDouble >>= arrowTypedConstDouble (.other .decimal text bits)
  | _ => .error .unreachable

/-! ## Comparisons -/

namespace FloatValue

/-- The order of two floating-point values, if neither is a NaN. -/
def compare? : FloatValue → FloatValue → Option Ordering
  | .nan, _ | _, .nan => none
  | .negInf, .negInf | .posInf, .posInf => some .eq
  | .negInf, _ | _, .posInf => some .lt
  | _, .negInf | .posInf, _ => some .gt
  | .num p, .num q => some (if p < q then .lt else if p = q then .eq else .gt)

def fcmpOgt (x y : FloatValue) : Bool := compare? x y == some .gt
def fcmpOlt (x y : FloatValue) : Bool := compare? x y == some .lt
def fcmpOge (x y : FloatValue) : Bool := compare? x y == some .gt || compare? x y == some .eq
def fcmpOle (x y : FloatValue) : Bool := compare? x y == some .lt || compare? x y == some .eq
def fcmpOeq (x y : FloatValue) : Bool := compare? x y == some .eq
def fcmpOne (x y : FloatValue) : Bool := compare? x y == some .lt || compare? x y == some .gt

end FloatValue

/-- `__PEFA_CREATE_CMP_FUNC` -/
def createCmpFunc (icmp ucmp : (w : Nat) → BitVec w → BitVec w → Bool)
    (fcmp : FloatValue → FloatValue → Bool) (type : DataType) :
    Except Error (type.CType → type.CType → Bool) :=
  match type with
  | .integral true w => .ok (icmp w.bits)
  | .integral false w => .ok (ucmp w.bits)
  | .floating _ => .ok fcmp
  | type => .error (.notImplemented
      ("Comparing elements of type" ++ type.toString ++ " is not supported yet"))

def createCmpGt := createCmpFunc (fun _ x y => y.slt x) (fun _ x y => y.ult x) FloatValue.fcmpOgt
def createCmpLt := createCmpFunc (fun _ x y => x.slt y) (fun _ x y => x.ult y) FloatValue.fcmpOlt
def createCmpGe := createCmpFunc (fun _ x y => y.sle x) (fun _ x y => y.ule x) FloatValue.fcmpOge
def createCmpLe := createCmpFunc (fun _ x y => x.sle y) (fun _ x y => x.ule y) FloatValue.fcmpOle
def createCmpEq := createCmpFunc (fun _ x y => x == y) (fun _ x y => x == y) FloatValue.fcmpOeq
def createCmpNe := createCmpFunc (fun _ x y => x != y) (fun _ x y => x != y) FloatValue.fcmpOne

/-- The switch over `expr.op` of `IrEmitVisitor::visit(const CompareExpr &)`. -/
def createCmp : CompareOp → (type : DataType) → Except Error (type.CType → type.CType → Bool)
  | .gt => createCmpGt
  | .lt => createCmpLt
  | .ge => createCmpGe
  | .le => createCmpLe
  | .eq => createCmpEq
  | .neq => createCmpNe

/-! ## Integer comparisons -/

/-- The integer a bit pattern stands for. -/
def intValue (signed : Bool) {w : Nat} (x : BitVec w) : Int := if signed then x.toInt else x.toNat

/-- An integer type has the value `n`. -/
def Representable (signed : Bool) (w : Width) (n : Int) : Prop :=
  if signed then -2 ^ (w.bits - 1) ≤ n ∧ n < 2 ^ (w.bits - 1) else 0 ≤ n ∧ n < 2 ^ w.bits

instance (signed : Bool) (w : Width) (n : Int) : Decidable (Representable signed w n) := by
  unfold Representable
  infer_instance

theorem setWidth_signExtend {v : Nat} (hv : v ≤ 64) (val : BitVec 32) :
    (val.signExtend 64).setWidth v = val.signExtend v := by
  apply BitVec.eq_of_getLsbD_eq
  intro i hi
  have h64 : i < 64 := by omega
  rw [BitVec.getLsbD_setWidth, BitVec.getLsbD_signExtend, BitVec.getLsbD_signExtend]
  simp [hi, h64]

/-- The `int8_t` of an `int` is its low byte, and sign extension does not change a low byte. -/
theorem setWidth_signExtend_byte (val : BitVec 32) :
    ((val.setWidth 8).signExtend 64).setWidth 8 = val.signExtend 8 := by
  apply BitVec.eq_of_getLsbD_eq
  intro i hi
  have h64 : i < 64 := by omega
  have h32 : i < 32 := by omega
  rw [BitVec.getLsbD_setWidth, BitVec.getLsbD_signExtend, BitVec.getLsbD_signExtend,
    BitVec.getLsbD_setWidth]
  simp [hi, h64, h32]

/-- **The constant of an integer column is the `int`, sign-extended or truncated.** -/
theorem arrowTypedConst_int (s : Bool) (w : Width) (val : BitVec 32) :
    arrowTypedConstInt (.integral s w) val = .ok (val.signExtend w.bits) := by
  cases s <;> cases w <;> refine congrArg Except.ok ?_
  case false.w8 | true.w8 => exact setWidth_signExtend_byte val
  case false.w16 | true.w16 => exact setWidth_signExtend (v := 16) (by omega) val
  case false.w32 | true.w32 => exact setWidth_signExtend (v := 32) (by omega) val
  case false.w64 | true.w64 => exact setWidth_signExtend (v := 64) (by omega) val

theorem Width.bits_pos (w : Width) : 0 < w.bits := by cases w <;> decide

/-- A literal that the type can represent is represented by its constant. -/
theorem intValue_signExtend {s : Bool} {w : Width} {val : BitVec 32}
    (h : Representable s w val.toInt) : intValue s (val.signExtend w.bits) = val.toInt := by
  have hw := w.bits_pos
  cases s with
  | true =>
      obtain ⟨hlo, hhi⟩ : -2 ^ (w.bits - 1) ≤ val.toInt ∧ val.toInt < 2 ^ (w.bits - 1) := h
      have hval : (BitVec.ofInt w.bits val.toInt).toInt = val.toInt :=
        BitVec.toInt_ofInt_eq_self hw hlo hhi
      exact hval
  | false =>
      obtain ⟨hlo, hhi⟩ : 0 ≤ val.toInt ∧ val.toInt < 2 ^ w.bits := h
      have hval : ((BitVec.ofInt w.bits val.toInt).toNat : Int) = val.toInt := by
        rw [BitVec.toNat_ofInt, Int.toNat_of_nonneg (Int.emod_nonneg _ (by positivity))]
        exact Int.emod_eq_of_lt hlo (by exact_mod_cast hhi)
      exact hval

/-- **The instruction for two integers of one type compares the integers.** -/
theorem createCmp_integral (op : CompareOp) (s : Bool) (w : Width) :
    createCmp op (.integral s w) = .ok fun x y => op.holds (intValue s x) (intValue s y) := by
  have hsigned : ∀ x y : BitVec w.bits, (x == y) = decide (x.toInt = y.toInt) := by
    intro x y
    rw [beq_eq_decide]
    exact decide_eq_decide.mpr BitVec.toInt_inj.symm
  have hunsigned : ∀ x y : BitVec w.bits, (x == y) = decide ((x.toNat : Int) = y.toNat) := by
    intro x y
    rw [beq_eq_decide]
    exact decide_eq_decide.mpr (by rw [Nat.cast_inj, BitVec.toNat_inj])
  cases s <;> cases op <;> refine congrArg Except.ok (funext fun x => funext fun y => ?_)
  case true.gt | true.lt => simp [CompareOp.holds, intValue, BitVec.slt]
  case true.ge | true.le => simp [CompareOp.holds, intValue, BitVec.sle]
  case true.eq => exact hsigned x y
  case true.neq => simp [CompareOp.holds, intValue, bne, hsigned]
  case false.gt | false.lt => simp [CompareOp.holds, intValue, BitVec.ult]
  case false.ge | false.le => simp [CompareOp.holds, intValue, BitVec.ule]
  case false.eq => exact hunsigned x y
  case false.neq => simp [CompareOp.holds, intValue, bne, hunsigned]

/-! ## What a comparison with a literal says -/

/-- The literal is an `int` that the column's type, an integer type, can represent. -/
def LiteralExpr.Fits : LiteralExpr → DataType → Prop
  | .int val, .integral s w => Representable s w val.toInt
  | _, _ => False

instance : (l : LiteralExpr) → (type : DataType) → Decidable (l.Fits type)
  | .int val, .integral s w => inferInstanceAs (Decidable (Representable s w val.toInt))
  | .int _, .floating _ | .int _, .string | .int _, .bool | .int _, .na | .int _, .other _ _ _ =>
      inferInstanceAs (Decidable False)
  | .double _, _ | .string _, _ | .bool _, _ => inferInstanceAs (Decidable False)

/-- The comparison of an integer in a column with an `int` literal. -/
def CompareOp.compare (op : CompareOp) (type : DataType) (x : type.CType) (l : LiteralExpr) :
    Bool :=
  match type, x, l with
  | .integral s _, x, .int val => op.holds (intValue s x) val.toInt
  | _, _, _ => false

theorem LiteralExpr.Fits.isIntegral {l : LiteralExpr} {type : DataType} (h : l.Fits type) :
    ∃ s w val, type = .integral s w ∧ l = .int val ∧ Representable s w val.toInt := by
  cases l with
  | int val =>
      cases type with
      | integral s w => exact ⟨s, w, val, rfl, rfl, h⟩
      | _ => exact h.elim
  | _ => exact h.elim

/-- **A comparison with a literal that fits is compiled to what it says.** -/
theorem compileCompare_fits {l : LiteralExpr} {type : DataType} (h : l.Fits type)
    (op : CompareOp) :
    (do let constant ← constFromVariant type l
        let cmp ← createCmp op type
        .ok fun x => cmp x constant : Except Error (type.CType → Bool)) =
      .ok fun x => op.compare type x l := by
  obtain ⟨s, w, val, rfl, rfl, hrep⟩ := h.isIntegral
  have hconst : constFromVariant (.integral s w) (.int val) = .ok (val.signExtend w.bits) :=
    arrowTypedConst_int s w val
  rw [hconst, createCmp_integral]
  show Except.ok (fun x => op.holds (intValue s x) (intValue s (val.signExtend w.bits))) = _
  rw [intValue_signExtend hrep]
  rfl

end Pefa
