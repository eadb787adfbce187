import Mathlib

/-!
# Binary floating-point numbers

The finite numbers of a binary format: integers of `p` bits, scaled by a power of two that is not
below `2 ^ emin` (`IsFloat`). In the binade `2 ^ k ≤ |q| < 2 ^ (k + 1)` they are the multiples of
the unit in the last place `2 ^ max (k - (p - 1)) emin`. So rounding to a multiple of the unit gives
a number of the format (`isFloat_of_multiple`), and a number of the format is its own rounding
(`IsFloat.multiple`).
-/

namespace FloatFormat

/-- `q` is an integer of `p` bits times a power of two that is not below `2 ^ emin`. -/
def IsFloat (p : Nat) (emin : Int) (q : ℚ) : Prop :=
  ∃ m e : ℤ, emin ≤ e ∧ |m| < 2 ^ p ∧ q = m * 2 ^ e

/-- The exponent of the unit in the last place, in the binade of `2 ^ k`. -/
def ulpExponent (p : Nat) (emin k : Int) : Int := max (k - (p - 1)) emin

variable {p : Nat} {emin k : Int} {q : ℚ}

theorem isFloat_zero (p : Nat) (emin : Int) : IsFloat p emin 0 :=
  ⟨0, emin, le_refl _, by simp, by simp⟩

/-- An integer of `p` bits. -/
theorem isFloat_int {n : ℤ} (hn : |n| < 2 ^ p) (hemin : emin ≤ 0) : IsFloat p emin n :=
  ⟨n, 0, hemin, hn, by simp⟩

theorem abs_scaled (m e : ℤ) : |(m : ℚ) * 2 ^ e| = (|m| : ℤ) * 2 ^ e := by
  rw [abs_mul, abs_of_pos (zpow_pos (by norm_num : (0 : ℚ) < 2) e), Int.cast_abs]

/-- A number of the format is a multiple of the unit in the last place of its binade. -/
theorem IsFloat.multiple (h : IsFloat p emin q) (hk : 2 ^ k ≤ |q|) :
    ∃ m : ℤ, q = m * 2 ^ ulpExponent p emin k := by
  obtain ⟨m, e, he, hm, rfl⟩ := h
  rcases le_or_gt (ulpExponent p emin k) e with hle | hlt
  · -- the power of two is a multiple of the unit
    obtain ⟨d, hd⟩ := Int.eq_ofNat_of_zero_le (sub_nonneg.mpr hle)
    refine ⟨m * 2 ^ d, ?_⟩
    rw [show e = d + ulpExponent p emin k by omega, zpow_add₀ (by norm_num), zpow_natCast]
    push_cast
    ring
  · -- with a smaller one, `p` bits do not reach the binade
    exfalso
    have hu : e + 1 ≤ k - (p - 1) := by
      unfold ulpExponent at hlt
      omega
    rw [abs_scaled] at hk
    have hm' : ((|m| : ℤ) : ℚ) < 2 ^ (p : ℤ) := by
      rw [zpow_natCast]
      exact_mod_cast hm
    have hlt' : ((|m| : ℤ) : ℚ) * 2 ^ e < 2 ^ k := by
      calc ((|m| : ℤ) : ℚ) * 2 ^ e
          < 2 ^ (p : ℤ) * 2 ^ e := by
            exact mul_lt_mul_of_pos_right hm' (zpow_pos (by norm_num) e)
        _ = 2 ^ (p + e : ℤ) := (zpow_add₀ (by norm_num) _ _).symm
        _ ≤ 2 ^ k := zpow_le_zpow_right₀ (by norm_num) (by omega)
    exact absurd hk (not_le.mpr hlt')

/-- A multiple of a power of two that is not below `2 ^ emin`, with `p` bits or the next power of
two after them. -/
theorem isFloat_of_multiple (hp : 0 < p) {m e : ℤ} (he : emin ≤ e) (hm : |m| ≤ 2 ^ p) :
    IsFloat p emin (m * 2 ^ e) := by
  rcases lt_or_eq_of_le hm with hlt | heq
  · exact ⟨m, e, he, hlt, rfl⟩
  · -- half of it, and the next power of two
    obtain ⟨p, rfl⟩ : ∃ p', p = p' + 1 := ⟨p - 1, by omega⟩
    have hhalf : (2 : ℤ) ^ p < 2 ^ (p + 1) := pow_lt_pow_right₀ (by norm_num) (by omega)
    have hpos : (0 : ℤ) < 2 ^ p := by positivity
    have hscale : ((2 : ℚ) ^ (p + 1)) * 2 ^ e = 2 ^ p * 2 ^ (e + 1) := by
      rw [zpow_add₀ (by norm_num : (2 : ℚ) ≠ 0), zpow_one]
      ring
    rcases abs_eq (by positivity) |>.mp heq with rfl | rfl
    · exact ⟨2 ^ p, e + 1, by omega, by rwa [abs_of_pos hpos], by push_cast; exact hscale⟩
    · refine ⟨-2 ^ p, e + 1, by omega, by rwa [abs_neg, abs_of_pos hpos], ?_⟩
      push_cast
      rw [neg_mul, neg_mul, hscale]

/-! ## Nearest integers -/

/-- `n` is an integer nearest to `x`. -/
def Nearest (x : ℚ) (n : ℤ) : Prop := |x - n| ≤ 1 / 2

/-- An integer is nearest to itself only. -/
theorem Nearest.eq_of_int {m n : ℤ} (h : Nearest m n) : n = m := by
  have hlt : |(m : ℚ) - n| < 1 := lt_of_le_of_lt h (by norm_num)
  have hint : |m - n| < 1 := by exact_mod_cast hlt
  have := Int.abs_lt_one_iff.mp hint
  omega

/-- Rounding to an integer does not pass one. -/
theorem Nearest.abs_le {x : ℚ} {n : ℤ} (h : Nearest x n) {b : ℕ} (hx : |x| ≤ b) : |n| ≤ b := by
  have hn : |(n : ℚ)| ≤ |x| + |x - n| := by
    calc |(n : ℚ)| = |x - (x - n)| := by congr 1; ring
      _ ≤ |x| + |x - n| := abs_sub _ _
  have hhalf : |x - n| ≤ 1 / 2 := h
  have hlt : |(n : ℚ)| < b + 1 := by linarith
  have hint : |n| < b + 1 := by exact_mod_cast hlt
  omega

/-! ## Rounding to the unit in the last place -/

/-- What a number below `2 ^ (k + 1)` is, counted in units of its binade. -/
theorem abs_div_ulp_le (p : Nat) (emin : Int) (hq : |q| < 2 ^ (k + 1)) :
    |q / 2 ^ ulpExponent p emin k| ≤ ((2 ^ p : ℕ) : ℚ) := by
  have hpos : (0 : ℚ) < 2 ^ ulpExponent p emin k := zpow_pos (by norm_num) _
  rw [abs_div, abs_of_pos hpos, div_le_iff₀ hpos]
  refine hq.le.trans ?_
  push_cast
  rw [← zpow_natCast, ← zpow_add₀ (by norm_num : (2 : ℚ) ≠ 0)]
  refine zpow_le_zpow_right₀ (by norm_num) ?_
  unfold ulpExponent
  omega

/-- **Rounding gives a number of the format.** -/
theorem isFloat_of_nearest (hp : 0 < p) (hq : |q| < 2 ^ (k + 1)) {n : ℤ}
    (hn : Nearest (q / 2 ^ ulpExponent p emin k) n) :
    IsFloat p emin (n * 2 ^ ulpExponent p emin k) :=
  isFloat_of_multiple hp (le_max_right _ _) (by exact_mod_cast hn.abs_le (abs_div_ulp_le p emin hq))

/-- **A number of the format is its own rounding.** -/
theorem IsFloat.eq_of_nearest (h : IsFloat p emin q) (hk : 2 ^ k ≤ |q|) {n : ℤ}
    (hn : Nearest (q / 2 ^ ulpExponent p emin k) n) :
    n * 2 ^ ulpExponent p emin k = q := by
  obtain ⟨m, hm⟩ := h.multiple hk
  have hpos : (0 : ℚ) < 2 ^ ulpExponent p emin k := zpow_pos (by norm_num) _
  have hdiv : q / 2 ^ ulpExponent p emin k = m := by
    rw [div_eq_iff hpos.ne']
    exact hm
  rw [hdiv] at hn
  rw [hn.eq_of_int, ← hm]

end FloatFormat
