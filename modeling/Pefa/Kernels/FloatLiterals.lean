import Pefa.Lib.FloatFormat
import Pefa.Kernels.Filter

/-!
# Literals of floating-point columns

A literal that is compared with a floating-point column is a `double`, or an `int` converted to
one, and the constant it is compared as is rounded to the column's width. Rounding changes no
number that the width has and leaves only such numbers (`round_eq_iff`, `has_round`), so a
comparison is right for all values of the column exactly when the width has the literal
(`float_compare_right_iff`). `DOUBLE` has every `int`; `FLOAT` has those of 24 significant bits.
-/

namespace Pefa

open FloatFormat

namespace FloatWidth

/-! ## Rounding -/

theorem pow2_eq (k : Int) : pow2 k = (2 : ℚ) ^ k := by
  unfold pow2
  split
  · next h =>
      obtain ⟨n, rfl⟩ := Int.eq_ofNat_of_zero_le h
      simp
  · next h =>
      obtain ⟨n, hn⟩ := Int.eq_ofNat_of_zero_le (show 0 ≤ -k by omega)
      rw [show k = -(n : ℤ) by omega]
      simp

theorem log2_bounds {n : Nat} (hn : n ≠ 0) :
    (2 : ℚ) ^ (n.log2 : ℤ) ≤ n ∧ (n : ℚ) < 2 ^ ((n.log2 : ℤ) + 1) := by
  have hle := Nat.log2_self_le hn
  have hlt : n < 2 ^ (n.log2 + 1) := Nat.lt_log2_self
  constructor
  · rw [zpow_natCast]
    exact_mod_cast hle
  · rw [show ((n.log2 : ℤ) + 1) = ((n.log2 + 1 : ℕ) : ℤ) by push_cast; ring, zpow_natCast]
    exact_mod_cast hlt

/-- **The binade of a positive number.** -/
theorem exponent_bounds {q : ℚ} (hq : 0 < q) :
    (2 : ℚ) ^ exponent q ≤ q ∧ q < 2 ^ (exponent q + 1) := by
  have hnum : q.num.natAbs ≠ 0 := by
    rw [Int.natAbs_ne_zero]
    exact (Rat.num_pos.mpr hq).ne'
  obtain ⟨hn, hn'⟩ := log2_bounds hnum
  obtain ⟨hd, hd'⟩ := log2_bounds q.den_ne_zero
  have hden : (0 : ℚ) < q.den := by exact_mod_cast q.den_pos
  have hdiv : q = (q.num.natAbs : ℚ) / q.den := by
    have habs : ((q.num.natAbs : ℕ) : ℤ) = q.num := Int.natAbs_of_nonneg (Rat.num_pos.mpr hq).le
    rw [← Int.cast_natCast q.num.natAbs, habs]
    exact (Rat.num_div_den q).symm
  have hexp : exponent q = if pow2 (q.num.natAbs.log2 - q.den.log2) ≤ q
      then (q.num.natAbs.log2 : ℤ) - q.den.log2 else q.num.natAbs.log2 - q.den.log2 - 1 := rfl
  generalize (q.num.natAbs.log2 : ℤ) = a at hn hn' hexp
  generalize (q.den.log2 : ℤ) = b at hd hd' hexp
  have hupper : q < 2 ^ (a - b + 1) := by
    rw [hdiv, div_lt_iff₀ hden]
    calc (q.num.natAbs : ℚ) < 2 ^ (a + 1) := hn'
      _ = 2 ^ (a - b + 1) * 2 ^ b := by
        rw [← zpow_add₀ (by norm_num : (2 : ℚ) ≠ 0)]
        congr 1
        ring
      _ ≤ 2 ^ (a - b + 1) * q.den :=
        mul_le_mul_of_nonneg_left hd (zpow_pos (by norm_num) _).le
  have hlower : 2 ^ (a - b - 1) ≤ q := by
    rw [hdiv, le_div_iff₀ hden]
    calc (2 : ℚ) ^ (a - b - 1) * q.den ≤ 2 ^ (a - b - 1) * 2 ^ (b + 1) :=
          mul_le_mul_of_nonneg_left hd'.le (zpow_pos (by norm_num) _).le
      _ = 2 ^ a := by
        rw [← zpow_add₀ (by norm_num : (2 : ℚ) ≠ 0)]
        congr 1
        ring
      _ ≤ q.num.natAbs := hn
  rw [hexp, pow2_eq]
  split
  · next h => exact ⟨h, hupper⟩
  · next h =>
      rw [sub_add_cancel]
      exact ⟨hlower, not_le.mp h⟩

/-- The rounding is to a nearest integer. -/
theorem roundTiesEven_nearest (q : ℚ) : Nearest q (roundTiesEven q) := by
  have hlo := Rat.floor_le q
  have hhi := Rat.lt_floor_add_one q
  push_cast at hhi
  unfold Nearest roundTiesEven
  simp only
  split_ifs with h₁ h₂ h₃
  all_goals
    push_cast
    rw [abs_le]
    constructor <;> linarith

/-! ## The values of a width -/

/-- The last bit of the smallest numbers has the weight `2 ^ minExponent`. -/
def minExponent (w : FloatWidth) : Int := 1 - w.maxExponent - (w.precision - 1)

/-- The width has the value. -/
def Has (w : FloatWidth) : FloatValue → Prop
  | .num q => IsFloat w.precision w.minExponent q ∧ |q| < 2 ^ (w.maxExponent + 1)
  | _ => True

theorem precision_pos (w : FloatWidth) : 0 < w.precision := by cases w <;> decide

/-- What is rounded to the nearest integer is the number in units of its last place. -/
theorem round_num (w : FloatWidth) (q : ℚ) :
    w.round (.num q) =
      let r := roundTiesEven (q / 2 ^ ulpExponent w.precision w.minExponent (exponent |q|)) *
        (2 : ℚ) ^ ulpExponent w.precision w.minExponent (exponent |q|)
      if r ≥ 2 ^ (w.maxExponent + 1) then .posInf
      else if r ≤ -2 ^ (w.maxExponent + 1) then .negInf
      else .num r := by
  have hulp : max (exponent (max q (-q))) (1 - w.maxExponent) - (w.precision - 1) =
      ulpExponent w.precision w.minExponent (exponent |q|) := by
    unfold ulpExponent minExponent
    rw [abs_eq_max_neg]
    omega
  simp only [round, pow2_eq, hulp]

theorem roundTiesEven_zero : roundTiesEven 0 = 0 := (roundTiesEven_nearest 0).eq_of_int (m := 0)

theorem round_zero (w : FloatWidth) : w.round (.num 0) = .num 0 := by
  have hpos : (0 : ℚ) < 2 ^ (w.maxExponent + 1) := zpow_pos (by norm_num) _
  have hneg : ¬ (0 : ℚ) ≤ -2 ^ (w.maxExponent + 1) := by linarith
  simp [round_num, roundTiesEven_zero, not_le.mpr hpos, hneg]

/-- **Rounding leaves a value of the width.** -/
theorem has_round (w : FloatWidth) (y : FloatValue) : w.Has (w.round y) := by
  cases y with
  | nan => trivial
  | negInf => trivial
  | posInf => trivial
  | num q =>
      rcases eq_or_ne q 0 with rfl | hq
      · rw [round_zero]
        exact ⟨isFloat_zero _ _, by rw [abs_zero]; exact zpow_pos (by norm_num) _⟩
      · have hlt := (exponent_bounds (abs_pos.mpr hq)).2
        have hfloat : IsFloat w.precision w.minExponent _ :=
          isFloat_of_nearest w.precision_pos hlt (roundTiesEven_nearest _)
        rw [round_num]
        simp only
        split_ifs with hhi hlo
        · trivial
        · trivial
        · exact ⟨hfloat, abs_lt.mpr ⟨not_le.mp hlo, not_le.mp hhi⟩⟩

/-- **Rounding changes no value of the width**, and every other value. -/
theorem round_eq_iff (w : FloatWidth) (y : FloatValue) : w.round y = y ↔ w.Has y := by
  constructor
  · intro h
    rw [← h]
    exact w.has_round y
  · intro h
    cases y with
    | nan => rfl
    | negInf => rfl
    | posInf => rfl
    | num q =>
        rcases eq_or_ne q 0 with rfl | hq
        · exact w.round_zero
        · obtain ⟨hfloat, hlt⟩ := h
          obtain ⟨hhi, hlo⟩ : ¬ q ≥ 2 ^ (w.maxExponent + 1) ∧ ¬ q ≤ -2 ^ (w.maxExponent + 1) := by
            obtain ⟨hlo, hhi⟩ := abs_lt.mp hlt
            exact ⟨not_le.mpr hhi, not_le.mpr hlo⟩
          have hself := hfloat.eq_of_nearest (exponent_bounds (abs_pos.mpr hq)).1
            (roundTiesEven_nearest _)
          rw [round_num]
          simp only [hself, if_neg hhi, if_neg hlo]

/-- Only a NaN is rounded to one. -/
theorem round_eq_nan {w : FloatWidth} {y : FloatValue} (h : w.round y = .nan) : y = .nan := by
  cases y with
  | nan => rfl
  | negInf => exact h
  | posInf => exact h
  | num q =>
      rw [round_num] at h
      simp only at h
      split_ifs at h

/-- A `double` has every `int`. -/
theorem double_has_int (val : BitVec 32) : FloatWidth.double.Has (.num val.toInt) := by
  have hlo := BitVec.le_toInt val
  have hhi := BitVec.toInt_lt (x := val)
  have habs : |val.toInt| < 2 ^ 53 := by
    rw [abs_lt]
    constructor <;> omega
  refine ⟨isFloat_int habs (by decide), ?_⟩
  have hbound : |(val.toInt : ℚ)| < 2 ^ 53 := by exact_mod_cast habs
  refine hbound.trans_le ?_
  rw [← zpow_natCast]
  exact zpow_le_zpow_right₀ (by norm_num) (by decide)

end FloatWidth

/-! ## When a comparison is right -/

/-- What an operator says of two numbers in this order. -/
def CompareOp.holdsOrdering : CompareOp → Ordering → Bool
  | .gt, o => o == .gt
  | .lt, o => o == .lt
  | .ge, o => o != .lt
  | .le, o => o != .gt
  | .eq, o => o == .eq
  | .neq, o => o != .eq

/-- The comparison of two floating-point values; with a NaN it is false. -/
def CompareOp.holdsFloat (op : CompareOp) (x y : FloatValue) : Bool :=
  (x.compare? y).any op.holdsOrdering

/-- **The instruction for two floating-point values compares them.** -/
theorem createCmp_floating (op : CompareOp) (w : FloatWidth) :
    createCmp op (.floating w) = .ok op.holdsFloat := by
  cases op <;> refine congrArg Except.ok (funext fun x => funext fun y => ?_)
  all_goals
    simp only [CompareOp.holdsFloat, FloatValue.fcmpOgt, FloatValue.fcmpOlt, FloatValue.fcmpOge,
      FloatValue.fcmpOle, FloatValue.fcmpOeq, FloatValue.fcmpOne]
    cases x.compare? y with
    | none => rfl
    | some o => cases o <;> rfl

theorem FloatValue.eq_of_compare? {x y : FloatValue} (h : x.compare? y = some .eq) : x = y := by
  cases x <;> cases y <;> simp_all [FloatValue.compare?]

theorem FloatValue.compare?_self {x : FloatValue} (h : x ≠ .nan) : x.compare? x = some .eq := by
  cases x with
  | nan => exact absurd rfl h
  | negInf => rfl
  | posInf => rfl
  | num q => simp [FloatValue.compare?]

/-- What is equal to a value in the comparison with it is the value. -/
theorem FloatValue.eq_of_holdsFloat {c y : FloatValue} (hc : c ≠ .nan)
    (h : CompareOp.holdsFloat .eq c c = CompareOp.holdsFloat .eq c y) : c = y := by
  apply eq_of_compare?
  simp only [CompareOp.holdsFloat, compare?_self hc] at h
  cases hcmp : c.compare? y with
  | none =>
      rw [hcmp] at h
      cases h
  | some o =>
      rw [hcmp] at h
      cases o with
      | eq => rfl
      | lt => cases h
      | gt => cases h

/-- The constant of a floating-point column. -/
theorem constFromVariant_floating {w : FloatWidth} {l : LiteralExpr} {y : FloatValue}
    (hy : l.getDouble = .ok y) : constFromVariant (.floating w) l = .ok (w.round y) := by
  simp only [constFromVariant, hy, bind_ok]
  cases w <;> rfl

/-- What is emitted for a comparison of a floating-point column. -/
theorem irEmitVisit_float (name : String) (w : FloatWidth) {l : LiteralExpr} {y : FloatValue}
    (hy : l.getDouble = .ok y) (op : CompareOp) :
    irEmitVisit ⟨name, .floating w⟩ (.compareExpr (col name) l op) none =
      .ok (some fun x : FloatValue => op.holdsFloat x (w.round y)) := by
  have hname : (col name).name = (Field.mk name (.floating w)).name := rfl
  simp only [irEmitVisit, if_pos hname, constFromVariant_floating hy, createCmp_floating]
  rfl

/-- The predicate emitted for a comparison of a floating-point column with a literal compares, on
the value `x`, with the number `y`. -/
def FloatCompareRight (name : String) (w : FloatWidth) (l : LiteralExpr) (y : FloatValue)
    (op : CompareOp) (x : FloatValue) : Prop :=
  ∃ predicate, irEmitVisit ⟨name, .floating w⟩ (.compareExpr (col name) l op) none =
      .ok (some predicate) ∧
    predicate x = op.holdsFloat x y

/-- **When a comparison with a floating-point column is right**: for all operators and all values of
the column exactly when the column's width has the literal; and `DOUBLE` has every `int`. The
comparisons are the ordered ones, so `NEQ` too is false on a NaN. -/
theorem float_compare_right_iff (name : String) (w : FloatWidth) {l : LiteralExpr} {y : FloatValue}
    (hy : l.getDouble = .ok y) :
    ((∀ op x, w.Has x → FloatCompareRight name w l y op x) ↔ w.Has y) ∧
      ∀ val : BitVec 32, FloatWidth.double.Has (.num val.toInt) := by
  refine ⟨⟨fun h => ?_, fun h op x _ => ?_⟩, FloatWidth.double_has_int⟩
  · by_cases hnan : w.round y = .nan
    · rw [FloatWidth.round_eq_nan hnan]
      trivial
    · -- the constant itself is compared with the literal
      obtain ⟨predicate, hemit, hright⟩ := h .eq (w.round y) (w.has_round y)
      rw [irEmitVisit_float name w hy] at hemit
      cases hemit
      rw [← FloatWidth.round_eq_iff]
      exact FloatValue.eq_of_holdsFloat hnan hright
  · refine ⟨_, irEmitVisit_float name w hy op, ?_⟩
    rw [(w.round_eq_iff y).mpr h]

/-- One tenth is not a `FLOAT`. -/
theorem float_compare_right_iff_tenth :
    ((∀ op x, FloatWidth.single.Has x →
        FloatCompareRight "a" .single (.double (.num (1 / 10))) (.num (1 / 10)) op x) ↔
        FloatWidth.single.Has (.num (1 / 10))) ∧
      ∀ val : BitVec 32, FloatWidth.double.Has (.num val.toInt) :=
  float_compare_right_iff "a" .single rfl

end Pefa
