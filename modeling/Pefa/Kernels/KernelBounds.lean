import Pefa.Kernels.FilterMask

/-!
# When the generated loops stay inside their buffers

`FilterMask` says what the generated loops do if their elements lie inside the value buffer and
their bytes inside the bitmap. Here is the converse: a run that goes through has stayed inside, for
it has made every access that lies on its way. So on each call there is one condition, in which the
contents of the bitmap do not occur, under which the loop is a mask, and otherwise it fails
(`filterFunc_eq`, `filterRemainingFunc_eq`).
-/

namespace Pefa

open WhileLoop

theorem loadElem_eq_ok {α : Type} {values : List α} {size i : Nat} {x : α} (hsize : 0 < size)
    (h : loadElem values size (size * i) = .ok x) : i < values.length := by
  unfold loadElem at h
  rw [if_pos (Nat.mul_mod_right size i), Nat.mul_div_cancel_left _ hsize] at h
  cases hx : values[i]? with
  | some y => exact (List.getElem?_eq_some_iff.mp hx).1
  | none =>
      rw [hx] at h
      cases h

theorem mod_size_of_loadElem {α : Type} {values : List α} {size addr : Nat} {x : α}
    (h : loadElem values size addr = .ok x) : addr % size = 0 := by
  unfold loadElem at h
  split at h
  · assumption
  · cases h

theorem loadByte_eq_ok {bitmap : Bitmap} {q : Nat} {x : BitVec 8} (h : loadByte bitmap q = .ok x) :
    q < bitmap.length := by
  unfold loadByte at h
  cases hx : bitmap[q]? with
  | some y => exact (List.getElem?_eq_some_iff.mp hx).1
  | none =>
      rw [hx] at h
      cases h

theorem storeByte_eq_ok {bitmap out : Bitmap} {q : Nat} {x : BitVec 8}
    (h : storeByte bitmap q x = .ok out) : out = bitmap.set q x := by
  unfold storeByte at h
  split at h
  · exact (Except.ok.inj h).symm
  · cases h

/-- The comparison of a counter with a bound in the lower half of the range. -/
theorem slt_iff {w : Nat} {x : BitVec w} {b : Nat} (hx : 2 * x.toNat < 2 ^ w)
    (hb : 2 * b < 2 ^ w) : x.slt (BitVec.ofNat w b) = decide (x.toNat < b) := by
  have hself : BitVec.ofNat w x.toNat = x := by
    apply BitVec.eq_of_toNat_eq
    rw [BitVec.toNat_ofNat, Nat.mod_eq_of_lt x.isLt]
  have h := slt_ofNat hx hb
  rwa [hself] at h

section Generated

variable {α : Type} {predicate : α → Bool} {values : List α} {size : Nat}

/-! ## Whole bytes -/

/-- A turn of the inner loop that goes through has loaded its element. -/
theorem filterInnerBody_inBounds (hsize : 0 < size) {base : Nat} {s s' : InnerState}
    (h : filterInnerBody predicate values size (size * base) s = .ok s') :
    s'.j = s.j + 1#8 ∧ base + s.j.toNat < values.length := by
  obtain ⟨x, hx, h⟩ := bind_eq_ok.mp h
  obtain ⟨bit, -, h⟩ := bind_eq_ok.mp h
  cases h
  rw [← Nat.mul_add] at hx
  exact ⟨rfl, loadElem_eq_ok hsize hx⟩

/-- An inner loop that goes through has loaded eight elements. -/
theorem filterInner_inBounds (hsize : 0 < size) {base : Nat} {trace : List Access}
    {s : InnerState}
    (h : whileLoop .diverged (fun t : InnerState => t.j.slt 8#8)
      (filterInnerBody predicate values size (size * base)) (2 ^ 8) ⟨0#8, 0#8, trace⟩ = .ok s) :
    base + 8 ≤ values.length := by
  obtain ⟨⟨hle, hin⟩, hstop⟩ := whileLoop_inv
    (fun t : InnerState => t.j.toNat ≤ 8 ∧ (0 < t.j.toNat → base + t.j.toNat ≤ values.length))
    (fun t t' ht hcond hbody => by
      obtain ⟨hj, hload⟩ := filterInnerBody_inBounds hsize hbody
      have hle := ht.1
      rw [slt_iff (b := 8) (by omega) (by omega)] at hcond
      have hlt := of_decide_eq_true hcond
      have hnext : t'.j.toNat = t.j.toNat + 1 := by
        rw [hj, BitVec.toNat_add]
        exact Nat.mod_eq_of_lt (by show t.j.toNat + 1 < 256; omega)
      rw [hnext]
      exact ⟨hlt, fun _ => hload⟩)
    (by simp) h
  rw [slt_iff (b := 8) (by omega) (by omega)] at hstop
  have hge := of_decide_eq_false hstop
  have := hin (by omega)
  omega

/-- A turn of the outer loop that goes through has stayed inside both buffers. -/
theorem filterOuterBody_inBounds (hsize : 0 < size) {base dest : Nat} {s s' : OuterState}
    (hi : s.i.toNat < 2 ^ 61)
    (h : filterOuterBody predicate values size (size * base) dest s = .ok s') :
    s'.i = s.i + 1#64 ∧ s'.bitmap.length = s.bitmap.length ∧
      base + 8 * s.i.toNat + 8 ≤ values.length ∧ dest + s.i.toNat < s.bitmap.length := by
  obtain ⟨inner, hinner, h⟩ := bind_eq_ok.mp h
  obtain ⟨destVal, hload, h⟩ := bind_eq_ok.mp h
  obtain ⟨bitmap, hstore, h⟩ := bind_eq_ok.mp h
  cases h
  have h8 : (s.i * 8#64).toNat = 8 * s.i.toNat := by
    rw [BitVec.toNat_mul]
    show s.i.toNat * 8 % 2 ^ 64 = _
    omega
  rw [h8, ← Nat.mul_add] at hinner
  refine ⟨rfl, ?_, filterInner_inBounds hsize hinner, loadByte_eq_ok hload⟩
  rw [storeByte_eq_ok hstore, List.length_set]

/-- A turn of the outer loop that goes through has begun at an element. -/
theorem filterOuterBody_aligned {source dest : Nat} {s s' : OuterState}
    (h : filterOuterBody predicate values size source dest s = .ok s') : source % size = 0 := by
  obtain ⟨inner, hinner, -⟩ := bind_eq_ok.mp h
  -- the first turn of the inner loop loads an element
  rw [show (2 ^ 8 : Nat) = 255 + 1 from rfl, whileLoop_step rfl] at hinner
  obtain ⟨t, hbody, -⟩ := bind_eq_ok.mp hinner
  obtain ⟨x, hx, -⟩ := bind_eq_ok.mp hbody
  simpa using mod_size_of_loadElem hx

/-- The bytes that `filterFunc` goes through lie inside the bitmap, and their elements inside the
value buffer. -/
def FilterFits (values : List α) (bytes base dest count : Nat) : Prop :=
  0 < count → base + 8 * count ≤ values.length ∧ dest + count ≤ bytes

instance (values : List α) (bytes base dest count : Nat) :
    Decidable (FilterFits values bytes base dest count) :=
  inferInstanceAs (Decidable (0 < count → _))

/-- **A run of `filterFunc` that goes through has stayed inside its buffers.** -/
theorem filterFunc_inBounds (hsize : 0 < size) {base dest : Nat} {bitmap : Bitmap}
    {len : BitVec 64} {r : Bitmap × List Access}
    (h : filterFunc predicate values size (size * base) bitmap dest len = .ok r) :
    FilterFits values bitmap.length base dest (len.toNat / 8) := by
  obtain ⟨s, hloop, -⟩ := bind_eq_ok.mp h
  have hlen := len.isLt
  have hdiv : len / 8#64 = BitVec.ofNat 64 (len.toNat / 8) := by
    apply BitVec.eq_of_toNat_eq
    rw [BitVec.toNat_udiv, BitVec.toNat_ofNat, BitVec.toNat_ofNat, Nat.mod_eq_of_lt (by omega),
      Nat.mod_eq_of_lt (by omega)]
  obtain ⟨⟨hle, -, hin⟩, hstop⟩ := whileLoop_inv
    (fun t : OuterState => t.i.toNat ≤ len.toNat / 8 ∧ t.bitmap.length = bitmap.length ∧
      FilterFits values bitmap.length base dest t.i.toNat)
    (fun t t' ht hcond hbody => by
      obtain ⟨hle, hbitmap, hin⟩ := ht
      rw [hdiv, slt_iff (by omega) (by omega)] at hcond
      have hlt := of_decide_eq_true hcond
      obtain ⟨hi, hlen', helems, hbyte⟩ := filterOuterBody_inBounds hsize (by omega) hbody
      have hnext : t'.i.toNat = t.i.toNat + 1 := by
        rw [hi, BitVec.toNat_add]
        exact Nat.mod_eq_of_lt (by show t.i.toNat + 1 < 2 ^ 64; omega)
      rw [hnext]
      exact ⟨hlt, hlen'.trans hbitmap, fun _ => ⟨by omega, by omega⟩⟩)
    (by simp [FilterFits]) hloop
  rw [hdiv, slt_iff (by omega) (by omega)] at hstop
  have hge := of_decide_eq_false hstop
  rwa [show s.i.toNat = len.toNat / 8 by omega] at hin

/-- **`filterFunc` goes through exactly where it stays inside its buffers**, and then it is a
mask. -/
theorem filterFunc_eq (predicate : α → Bool) (values : List α) (hsize : 0 < size)
    (base dest : Nat) (bitmap : Bitmap) (len : BitVec 64) :
    (FilterFits values bitmap.length base dest (len.toNat / 8) →
      ∃ trace, filterFunc predicate values size (size * base) bitmap dest len =
        .ok (bitmap.mask (rangeKeep predicate values (8 * dest) (8 * (len.toNat / 8)) base),
          trace)) ∧
      (¬ FilterFits values bitmap.length base dest (len.toNat / 8) →
        ∃ e, filterFunc predicate values size (size * base) bitmap dest len = .error e) := by
  constructor
  · intro hfits
    rcases Nat.eq_zero_or_pos (len.toNat / 8) with hzero | hpos
    · -- no byte is gone through, wherever the pointers point to
      have hlen := len.isLt
      have hdiv : len / 8#64 = 0#64 := by
        apply BitVec.eq_of_toNat_eq
        rw [BitVec.toNat_udiv]
        exact hzero
      refine ⟨[], ?_⟩
      rw [hzero, Nat.mul_zero, mask_rangeKeep_zero, filterFunc, hdiv, whileLoop_done rfl, bind_ok]
    · obtain ⟨helems, hbytes⟩ := hfits hpos
      exact ⟨_, filterFunc_ok predicate values bitmap base dest hsize rfl helems hbytes⟩
  · intro hfits
    cases h : filterFunc predicate values size (size * base) bitmap dest len with
    | error e => exact ⟨e, rfl⟩
    | ok r => exact absurd (filterFunc_inBounds hsize h) hfits

/-! ## A shared byte -/

/-- The number of elements that `filterRemainingFunc` goes through: its counter is signed. -/
def remainingCount (len : BitVec 8) : Nat := if len.toNat < 128 then len.toNat else 0

theorem remainingCount_lt (len : BitVec 8) : remainingCount len < 128 := by
  unfold remainingCount
  split <;> omega

theorem slt_remainingCount {len : BitVec 8} {i : BitVec 8} (hi : i.toNat < 128) :
    i.slt len = decide (i.toNat < remainingCount len) := by
  have hlt := len.isLt
  unfold remainingCount
  rw [BitVec.slt, BitVec.toInt_eq_toNat_of_lt (by omega), BitVec.toInt_eq_toNat_cond]
  apply decide_eq_decide.mpr
  split <;> split <;> omega

/-- The elements that `filterRemainingFunc` goes through lie inside the value buffer, their bits in
one byte, and the byte inside the bitmap. -/
def RemainingFits (values : List α) (bytes base dest bitOffset count : Nat) : Prop :=
  0 < count → base + count ≤ values.length ∧ bitOffset + count ≤ 8 ∧ dest < bytes

instance (values : List α) (bytes base dest bitOffset count : Nat) :
    Decidable (RemainingFits values bytes base dest bitOffset count) :=
  inferInstanceAs (Decidable (0 < count → _))

theorem filterRemainingBody_inBounds (hsize : 0 < size) {base dest : Nat} {bitOffset : BitVec 8}
    {s s' : RemainingState}
    (h : filterRemainingBody predicate values size (size * base) dest bitOffset s = .ok s') :
    s'.i = s.i + 1#8 ∧ s'.bitmap.length = s.bitmap.length ∧ base + s.i.toNat < values.length ∧
      (7#8 - (s.i + bitOffset)).toNat < 8 ∧ dest < s.bitmap.length := by
  obtain ⟨x, hx, h⟩ := bind_eq_ok.mp h
  obtain ⟨shifted, hshift, h⟩ := bind_eq_ok.mp h
  obtain ⟨destVal, hload, h⟩ := bind_eq_ok.mp h
  obtain ⟨bitmap, hstore, h⟩ := bind_eq_ok.mp h
  cases h
  rw [← Nat.mul_add] at hx
  refine ⟨rfl, ?_, loadElem_eq_ok hsize hx, ?_, loadByte_eq_ok hload⟩
  · rw [storeByte_eq_ok hstore, List.length_set]
  · unfold shlByte at hshift
    split at hshift
    · next h => exact h
    · cases hshift

/-- **A run of `filterRemainingFunc` that goes through has stayed inside its buffers and its
byte.** -/
theorem filterRemainingFunc_inBounds (hsize : 0 < size) {base dest : Nat} {bitmap : Bitmap}
    {len bitOffset : BitVec 8} {r : Bitmap × List Access}
    (h : filterRemainingFunc predicate values size (size * base) bitmap dest len bitOffset =
      .ok r) :
    RemainingFits values bitmap.length base dest bitOffset.toNat (remainingCount len) := by
  obtain ⟨s, hloop, -⟩ := bind_eq_ok.mp h
  have hcount := remainingCount_lt len
  obtain ⟨⟨hle, -, hin⟩, hstop⟩ := whileLoop_inv
    (fun t : RemainingState => t.i.toNat ≤ remainingCount len ∧ t.bitmap.length = bitmap.length ∧
      RemainingFits values bitmap.length base dest bitOffset.toNat t.i.toNat)
    (fun t t' ht hcond hbody => by
      obtain ⟨hle, hbitmap, hin⟩ := ht
      rw [slt_remainingCount (by omega)] at hcond
      have hlt := of_decide_eq_true hcond
      obtain ⟨hi, hlen', helem, hbit, hbyte⟩ := filterRemainingBody_inBounds hsize hbody
      have hnext : t'.i.toNat = t.i.toNat + 1 := by
        rw [hi, BitVec.toNat_add]
        exact Nat.mod_eq_of_lt (by show t.i.toNat + 1 < 256; omega)
      -- the bits of the elements before lie in the byte, so the sum does not wrap
      have hoffset := bitOffset.isLt
      have hamount : (7#8 - (t.i + bitOffset)).toNat =
          (7 + 256 - (t.i.toNat + bitOffset.toNat) % 256) % 256 := by
        rw [BitVec.toNat_sub, BitVec.toNat_add]
        show (256 - (t.i.toNat + bitOffset.toNat) % 256 + 7) % 256 = _
        omega
      rw [hamount] at hbit
      have hprev : 0 < t.i.toNat → bitOffset.toNat + t.i.toNat ≤ 8 := fun h => (hin h).2.1
      rw [hnext]
      exact ⟨hlt, hlen'.trans hbitmap, fun _ => ⟨by omega, by omega, by omega⟩⟩)
    (by simp [RemainingFits]) hloop
  rw [slt_remainingCount (by omega)] at hstop
  have hge := of_decide_eq_false hstop
  rwa [show s.i.toNat = remainingCount len by omega] at hin

/-- **`filterRemainingFunc` goes through exactly where it stays inside its buffers and its byte**,
and then it is a mask. -/
theorem filterRemainingFunc_eq (predicate : α → Bool) (values : List α) (hsize : 0 < size)
    (base dest : Nat) (bitmap : Bitmap) (len bitOffset : BitVec 8) :
    (RemainingFits values bitmap.length base dest bitOffset.toNat (remainingCount len) →
      ∃ trace, filterRemainingFunc predicate values size (size * base) bitmap dest len bitOffset =
        .ok (bitmap.mask (rangeKeep predicate values (8 * dest + bitOffset.toNat)
          (remainingCount len) base), trace)) ∧
      (¬ RemainingFits values bitmap.length base dest bitOffset.toNat (remainingCount len) →
        ∃ e, filterRemainingFunc predicate values size (size * base) bitmap dest len bitOffset =
          .error e) := by
  constructor
  · intro hfits
    rcases Nat.eq_zero_or_pos (remainingCount len) with hzero | hpos
    · have hdone : (0#8).slt len = false := by
        rw [slt_remainingCount (by decide), hzero]
        rfl
      have hloop : whileLoop .diverged (fun s : RemainingState => s.i.slt len)
          (filterRemainingBody predicate values size (size * base) dest bitOffset) (2 ^ 8)
          ⟨0#8, bitmap, []⟩ = .ok ⟨0#8, bitmap, []⟩ := whileLoop_done hdone
      exact ⟨[], by rw [hzero, mask_rangeKeep_zero, filterRemainingFunc, hloop, bind_ok]⟩
    · obtain ⟨helems, hbits, hbyte⟩ := hfits hpos
      have hlen : BitVec.ofNat 8 (remainingCount len) = len := by
        unfold remainingCount at hpos ⊢
        split
        · apply BitVec.eq_of_toNat_eq
          rw [BitVec.toNat_ofNat, Nat.mod_eq_of_lt len.isLt]
        · next h => simp [h] at hpos
      have hoffset : BitVec.ofNat 8 bitOffset.toNat = bitOffset := by
        apply BitVec.eq_of_toNat_eq
        rw [BitVec.toNat_ofNat, Nat.mod_eq_of_lt bitOffset.isLt]
      have hrun := filterRemainingFunc_ok predicate values bitmap base dest bitOffset.toNat
        (remainingCount len) hsize (by omega) helems (Or.inr hbyte)
      rw [hlen, hoffset] at hrun
      exact ⟨_, hrun⟩
  · intro hfits
    cases h : filterRemainingFunc predicate values size (size * base) bitmap dest len bitOffset with
    | error e => exact ⟨e, rfl⟩
    | ok r => exact absurd (filterRemainingFunc_inBounds hsize h) hfits

end Generated

end Pefa
