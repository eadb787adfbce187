import Pefa.Kernels.Filter

/-!
# Literals out of range

A literal is an `int`, and the constant it is compared as has the width and the sign of the
column. What is left of the literal is its low bits, read as a number of the column's type
(`wrapped`): a literal that the type has is compared as itself, `-1` on a `uint8` column as 255.

So a comparison is right for a value unless the value lies between the literal and what is left of
it, on the side of them that the operator looks at (`compare_right_iff`). For a literal out of
range the value that is left of it is always compared wrongly by some operator.
-/

namespace Pefa

/-! ## The constant -/

/-- The number of the type that has the low bits of `n`. -/
def wrapped (signed : Bool) (w : Width) (n : Int) : Int :=
  if signed then n.bmod (2 ^ w.bits) else n % 2 ^ w.bits

/-- **The constant of a literal is what is left of it.** -/
theorem intValue_constant (s : Bool) (w : Width) (val : BitVec 32) :
    intValue s (val.signExtend w.bits) = wrapped s w val.toInt := by
  cases s with
  | true =>
      show (BitVec.ofInt w.bits val.toInt).toInt = val.toInt.bmod (2 ^ w.bits)
      rw [BitVec.toInt_ofInt]
  | false =>
      show ((BitVec.ofInt w.bits val.toInt).toNat : Int) = val.toInt % 2 ^ w.bits
      rw [BitVec.toNat_ofInt, Int.toNat_of_nonneg (Int.emod_nonneg _ (by positivity))]
      norm_num

theorem representable_intValue (s : Bool) (w : Width) (x : BitVec w.bits) :
    Representable s w (intValue s x) := by
  cases s with
  | true => exact ⟨BitVec.le_toInt x, BitVec.toInt_lt⟩
  | false =>
      refine ⟨Int.natCast_nonneg _, ?_⟩
      have hlt := x.isLt
      show ((x.toNat : Nat) : Int) < 2 ^ w.bits
      exact_mod_cast hlt

/-- Nothing is lost of a literal that the type has, and of no other. -/
theorem wrapped_eq_iff (s : Bool) (w : Width) (val : BitVec 32) :
    wrapped s w val.toInt = val.toInt ↔ Representable s w val.toInt := by
  rw [← intValue_constant]
  constructor
  · intro h
    rw [← h]
    exact representable_intValue s w _
  · exact intValue_signExtend

/-! ## Comparing with what is left -/

/-- The value `x` is on the same side of `c` as of `m`, as far as the operator can tell. -/
def SameSide (op : CompareOp) (x m c : Int) : Prop :=
  match op with
  | .eq | .neq => m = c ∨ x ≠ m
  | .gt | .le => x ≤ min m c ∨ max m c < x
  | .ge | .lt => x < min m c ∨ max m c ≤ x

instance (op : CompareOp) (x m c : Int) : Decidable (SameSide op x m c) := by
  cases op <;> unfold SameSide <;> infer_instance

/-- A comparison cannot tell two numbers apart that have the value on one side. The value is one
of the type, so it is `c` only if nothing is lost of `c`. -/
theorem holds_eq_iff_sameSide (op : CompareOp) {x m c : Int} (hx : x = c → m = c) :
    op.holds x m = op.holds x c ↔ SameSide op x m c := by
  cases op <;> simp only [CompareOp.holds, SameSide, decide_eq_decide]
  case eq | neq => grind
  case gt | lt | ge | le => omega

theorem sameSide_self (op : CompareOp) (x c : Int) : SameSide op x c c := by
  cases op with
  | eq | neq => exact Or.inl rfl
  | gt | lt | ge | le =>
      simp only [SameSide]
      omega

/-! ## When a comparison is right -/

/-- The predicate emitted for a comparison with an `int` literal compares, on the value `x`, the
two integers. -/
def CompareRight (name : String) (s : Bool) (w : Width) (val : BitVec 32) (op : CompareOp)
    (x : BitVec w.bits) : Prop :=
  ∃ predicate, irEmitVisit ⟨name, .integral s w⟩ (.compareExpr (col name) (lit val) op) none =
      .ok (some predicate) ∧
    predicate x = op.holds (intValue s x) val.toInt

/-- What is emitted for a comparison with an `int` literal. -/
theorem irEmitVisit_int (name : String) (s : Bool) (w : Width) (val : BitVec 32)
    (op : CompareOp) :
    irEmitVisit ⟨name, .integral s w⟩ (.compareExpr (col name) (lit val) op) none =
      .ok (some fun x : BitVec w.bits => op.holds (intValue s x) (wrapped s w val.toInt)) := by
  have hconst : constFromVariant (.integral s w) (lit val) = .ok (val.signExtend w.bits) :=
    arrowTypedConst_int s w val
  have hname : (col name).name = (Field.mk name (.integral s w)).name := rfl
  simp only [irEmitVisit, if_pos hname, hconst, createCmp_integral, bind_ok, ← intValue_constant]
  rfl

theorem compareRight_iff_sameSide (name : String) (s : Bool) (w : Width) (val : BitVec 32)
    (op : CompareOp) (x : BitVec w.bits) :
    CompareRight name s w val op x ↔
      SameSide op (intValue s x) (wrapped s w val.toInt) val.toInt := by
  have hx : intValue s x = val.toInt → wrapped s w val.toInt = val.toInt := by
    intro h
    rw [wrapped_eq_iff, ← h]
    exact representable_intValue s w x
  rw [← holds_eq_iff_sameSide op hx]
  constructor
  · rintro ⟨predicate, hemit, hright⟩
    rw [irEmitVisit_int] at hemit
    cases hemit
    exact hright
  · exact fun h => ⟨_, irEmitVisit_int name s w val op, h⟩

/-- **When a comparison with an `int` literal is right**: on a value exactly when the value is on
the same side of the literal and of what is left of it; and on all values and for all operators
exactly when the column's type has the literal. -/
theorem compare_right_iff (name : String) (s : Bool) (w : Width) (val : BitVec 32) :
    (∀ op (x : BitVec w.bits), CompareRight name s w val op x ↔
        SameSide op (intValue s x) (wrapped s w val.toInt) val.toInt) ∧
      ((∀ op (x : BitVec w.bits), CompareRight name s w val op x) ↔
        Representable s w val.toInt) := by
  refine ⟨compareRight_iff_sameSide name s w val, fun h => ?_, fun h op x => ?_⟩
  · -- what is left of the literal is a value, and is not equal to the literal
    have heq := (compareRight_iff_sameSide name s w val .eq (val.signExtend w.bits)).mp (h _ _)
    rw [intValue_constant] at heq
    exact (wrapped_eq_iff s w val).mp (heq.resolve_right fun hne => hne rfl)
  · rw [compareRight_iff_sameSide, (wrapped_eq_iff s w val).mpr h]
    exact sameSide_self op _ _

/-- On a `uint8` column `-1` is compared as 255, so zero is not above it. -/
theorem compare_not_right_minusOne : ¬ CompareRight "a" false .w8 (-1) .gt 0 := by
  rw [compareRight_iff_sameSide]
  decide

end Pefa
