import Pefa.Kernels.Filter

/-!
# Kernel calls are masks

What the generated loops do, in closed form. `filterFunc` clears bits of the bytes
`dest, …, dest + count - 1` and `filterRemainingFunc` clears bits of byte `dest`; in both cases the
bit of an element is cleared exactly when the predicate fails on that element, and nothing else
changes. So a call of a kernel is a `Bitmap.mask`, and everything about the order in which calls
are made follows from the algebra of masks.

Along with the bitmap each lemma gives the list of the accesses of the run.
-/

namespace Pefa

open WhileLoop

theorem toInt_ofNat {w a : Nat} (h : 2 * a < 2 ^ w) : (BitVec.ofNat w a).toInt = a := by
  have hn : (BitVec.ofNat w a).toNat = a := by
    rw [BitVec.toNat_ofNat]
    exact Nat.mod_eq_of_lt (by omega)
  rw [BitVec.toInt_eq_toNat_of_lt (by omega), hn]

/-- The generated loops compare signed counters; within half of the range the comparison is that
of the numbers. -/
theorem slt_ofNat {w a b : Nat} (ha : 2 * a < 2 ^ w) (hb : 2 * b < 2 ^ w) :
    (BitVec.ofNat w a).slt (BitVec.ofNat w b) = decide (a < b) := by
  rw [BitVec.slt, toInt_ofNat ha, toInt_ofNat hb]
  exact decide_eq_decide.mpr (by omega)

theorem loadElem_ok {α : Type} {values : List α} {size i : Nat} {x : α} (hsize : 0 < size)
    (hx : values[i]? = some x) : loadElem values size (size * i) = .ok x := by
  simp [loadElem, Nat.mul_div_cancel_left _ hsize, hx]

theorem loadByte_ok {bitmap : Bitmap} {q : Nat} {x : BitVec 8} (h : bitmap[q]? = some x) :
    loadByte bitmap q = .ok x := by
  simp [loadByte, h]

theorem storeByte_ok {bitmap : Bitmap} {q : Nat} {x : BitVec 8} (h : q < bitmap.length) :
    storeByte bitmap q x = .ok (bitmap.set q x) := if_pos h

section Generated

variable {α : Type} (predicate : α → Bool) (values : List α)

/-- The predicate of the element at an index of the value buffer. -/
def test (i : Nat) : Bool := (values[i]?).all predicate

variable {values} in
theorem test_of_getElem? {i : Nat} {x : α} (h : values[i]? = some x) :
    test predicate values i = predicate x := by
  simp [test, h]

/-- Of the `count` rows from `lo` on, keep those whose element passes the predicate; the element
of row `lo` is at `base`. -/
def rangeKeep (lo count base r : Nat) : Bool :=
  !decide (lo ≤ r ∧ r < lo + count) || test predicate values (base + (r - lo))

theorem rangeKeep_of_not_mem {lo count base r : Nat} (h : ¬ (lo ≤ r ∧ r < lo + count)) :
    rangeKeep predicate values lo count base r = true := by
  rw [rangeKeep, decide_eq_false h]
  rfl

theorem rangeKeep_of_mem {lo count base r : Nat} (h : lo ≤ r ∧ r < lo + count) :
    rangeKeep predicate values lo count base r = test predicate values (base + (r - lo)) := by
  rw [rangeKeep, decide_eq_true h]
  rfl

theorem mask_rangeKeep_zero (bitmap : Bitmap) (lo base : Nat) :
    bitmap.mask (rangeKeep predicate values lo 0 base) = bitmap :=
  Bitmap.mask_eq_self fun r _ => rangeKeep_of_not_mem predicate values (r := r) (by omega)

/-- A range is handled as its two parts are. -/
theorem rangeKeep_add (lo a b base r : Nat) :
    rangeKeep predicate values lo (a + b) base r =
      (rangeKeep predicate values lo a base r &&
        rangeKeep predicate values (lo + a) b (base + a) r) := by
  by_cases h1 : lo ≤ r ∧ r < lo + a
  · rw [rangeKeep_of_mem predicate values (show lo ≤ r ∧ r < lo + (a + b) by omega),
      rangeKeep_of_mem predicate values h1, rangeKeep_of_not_mem predicate values (by omega),
      Bool.and_true]
  · rw [rangeKeep_of_not_mem predicate values h1, Bool.true_and]
    by_cases h2 : lo + a ≤ r ∧ r < lo + a + b
    · rw [rangeKeep_of_mem predicate values (show lo ≤ r ∧ r < lo + (a + b) by omega),
        rangeKeep_of_mem predicate values h2,
        show base + a + (r - (lo + a)) = base + (r - lo) by omega]
    · rw [rangeKeep_of_not_mem predicate values (by omega),
        rangeKeep_of_not_mem predicate values h2]

/-! ## One byte -/

/-- The accesses of the first `j` iterations of the inner loop. -/
def innerTrace (base j : Nat) : List Access :=
  (List.range j).flatMap fun k => [.loadElem (base + k), .shift (7 - k)]

theorem innerTrace_succ (base j : Nat) :
    innerTrace base (j + 1) = innerTrace base j ++ [.loadElem (base + j), .shift (7 - j)] := by
  simp [innerTrace, List.range_succ]

/-- The first `j` bits of the byte, after `j` iterations. -/
def partialByte (base j : Nat) : BitVec 8 :=
  Bitmap.byteOf fun k => decide (k < j) && test predicate values (base + k)

theorem partialByte_succ {base j : Nat} (hj : j < 8) :
    partialByte predicate values base j |||
        (BitVec.ofBool (test predicate values (base + j))).setWidth 8 <<< (7 - j) =
      partialByte predicate values base (j + 1) := by
  apply Bitmap.byte_ext
  intro k hk
  rw [BitVec.getLsbD_or, Bitmap.getLsbD_shifted_bit _ hj hk, partialByte, partialByte,
    Bitmap.getLsbD_byteOf _ hk, Bitmap.getLsbD_byteOf _ hk]
  by_cases hkj : k = j
  · subst hkj
    simp
  · have hlt : k < j ↔ k < j + 1 := by omega
    simp [hkj, hlt]

variable {predicate values} in
theorem filterInnerBody_ok {size base j : Nat} (hsize : 0 < size) (hj : j < 8)
    (hvalues : base + 8 ≤ values.length) (trace : List Access) :
    filterInnerBody predicate values size (size * base)
        ⟨BitVec.ofNat 8 j, partialByte predicate values base j, trace ++ innerTrace base j⟩ =
      .ok ⟨BitVec.ofNat 8 (j + 1), partialByte predicate values base (j + 1),
        trace ++ innerTrace base (j + 1)⟩ := by
  obtain ⟨x, hx⟩ : ∃ x, values[base + j]? = some x :=
    ⟨_, List.getElem?_eq_getElem (show base + j < values.length by omega)⟩
  have haddr : size * base + size * (BitVec.ofNat 8 j).toNat = size * (base + j) := by
    rw [BitVec.toNat_ofNat, Nat.mod_eq_of_lt (by omega), Nat.mul_add]
  have hamount : (7#8 - BitVec.ofNat 8 j).toNat = 7 - j := by
    simp only [BitVec.toNat_sub, BitVec.toNat_ofNat]
    omega
  simp only [filterInnerBody, haddr, loadElem_ok hsize hx, bind_ok, shlByte, hamount,
    if_pos (show 7 - j < 8 by omega), Nat.mul_div_cancel_left _ hsize]
  rw [← partialByte_succ predicate values hj, test_of_getElem? predicate hx, innerTrace_succ,
    List.append_assoc, BitVec.ofNat_add]

/-- The state of the inner loop after `j` elements. -/
def innerRun (base : Nat) (trace : List Access) (j : Nat) : InnerState :=
  ⟨BitVec.ofNat 8 j, partialByte predicate values base j, trace ++ innerTrace base j⟩

theorem partialByte_zero (base : Nat) : partialByte predicate values base 0 = 0#8 := by
  apply Bitmap.byte_ext
  intro k hk
  rw [partialByte, Bitmap.getLsbD_byteOf _ hk]
  simp

theorem partialByte_eight (base : Nat) :
    partialByte predicate values base 8 =
      Bitmap.byteOf fun k => test predicate values (base + k) := by
  apply Bitmap.byte_ext
  intro k hk
  rw [partialByte, Bitmap.getLsbD_byteOf _ hk, Bitmap.getLsbD_byteOf _ hk]
  simp [hk]

variable {predicate values} in
/-- **The inner loop packs the predicates of eight elements into a byte.** -/
theorem filterInner_ok {size base : Nat} (hsize : 0 < size) (hvalues : base + 8 ≤ values.length)
    (trace : List Access) :
    whileLoop .diverged (fun t : InnerState => t.j.slt 8#8)
        (filterInnerBody predicate values size (size * base)) (2 ^ 8) ⟨0#8, 0#8, trace⟩ =
      .ok ⟨8#8, Bitmap.byteOf fun k => test predicate values (base + k),
        trace ++ innerTrace base 8⟩ := by
  -- the states of the loop are `innerRun 0`, …, `innerRun 8`
  have hrun : whileLoop .diverged (fun t : InnerState => t.j.slt 8#8)
      (filterInnerBody predicate values size (size * base)) (2 ^ 8)
      (innerRun predicate values base trace 0) = .ok (innerRun predicate values base trace 8) :=
    whileLoop_trajectory (innerRun predicate values base trace) 8 (by norm_num)
      (fun j hj => by
        show (BitVec.ofNat 8 j).slt (BitVec.ofNat 8 8) = true
        rw [slt_ofNat (by omega) (by omega)]
        simpa using hj)
      (fun j hj => filterInnerBody_ok hsize hj hvalues trace)
      rfl
  simp only [innerRun, partialByte_zero, partialByte_eight] at hrun
  simpa [innerTrace] using hrun

/-! ## Whole bytes -/

/-- The accesses of `filterFunc` in its first `count` bytes. -/
def filterTrace (base dest count : Nat) : List Access :=
  (List.range count).flatMap fun i =>
    innerTrace (base + 8 * i) 8 ++ [.loadByte (dest + i), .storeByte (dest + i)]

/-- Writing back a byte with its eight predicates is the mask of its eight rows. -/
theorem set_byte_eq_mask {bitmap : Bitmap} {base dest : Nat} {x : BitVec 8}
    (hx : bitmap[dest]? = some x) :
    bitmap.set dest (x &&& Bitmap.byteOf fun k => test predicate values (base + k)) =
      bitmap.mask (rangeKeep predicate values (8 * dest) 8 base) := by
  apply Bitmap.set_and_eq_mask hx
  · intro k hk
    rw [Bitmap.getLsbD_byteOf _ hk, rangeKeep_of_mem predicate values (by omega),
      show 8 * dest + k - 8 * dest = k by omega]
  · intro r hr
    exact rangeKeep_of_not_mem predicate values (by omega)

/-- The state of `filterFunc` after `i` bytes. -/
def filterRun (bitmap : Bitmap) (base dest i : Nat) : OuterState where
  i := BitVec.ofNat 64 i
  bitmap := bitmap.mask (rangeKeep predicate values (8 * dest) (8 * i) base)
  trace := filterTrace base dest i

variable {predicate values} in
theorem filterOuterBody_ok {bitmap : Bitmap} {size base dest i : Nat} (hsize : 0 < size)
    (hi : i < 2 ^ 61) (hvalues : base + 8 * i + 8 ≤ values.length)
    (hdest : dest + i < bitmap.length) :
    filterOuterBody predicate values size (size * base) dest
        (filterRun predicate values bitmap base dest i) =
      .ok (filterRun predicate values bitmap base dest (i + 1)) := by
  have hsrc : size * base + size * (BitVec.ofNat 64 i * 8#64).toNat = size * (base + 8 * i) := by
    have h8 : (BitVec.ofNat 64 i * 8#64).toNat = 8 * i := by
      simp only [BitVec.toNat_mul, BitVec.toNat_ofNat]
      omega
    rw [h8, Nat.mul_add]
  have hindex : (BitVec.ofNat 64 i).toNat = i := by
    rw [BitVec.toNat_ofNat]
    exact Nat.mod_eq_of_lt (by omega)
  have hlt : dest + i <
      (bitmap.mask (rangeKeep predicate values (8 * dest) (8 * i) base)).length := by
    simpa using hdest
  have hx := List.getElem?_eq_getElem hlt
  -- the mask of the bytes before and the mask of this byte
  have hkeep : (bitmap.mask (rangeKeep predicate values (8 * dest) (8 * i) base)).mask
        (rangeKeep predicate values (8 * (dest + i)) 8 (base + 8 * i)) =
      bitmap.mask (rangeKeep predicate values (8 * dest) (8 * (i + 1)) base) := by
    rw [Bitmap.mask_mask]
    refine Bitmap.mask_congr fun r _ => ?_
    rw [Nat.mul_add 8 i 1, Nat.mul_one, rangeKeep_add, Nat.mul_add 8 dest i]
  simp only [filterOuterBody, filterRun, hsrc, filterInner_ok hsize hvalues, hindex, bind_ok,
    loadByte_ok hx, storeByte_ok hlt]
  rw [set_byte_eq_mask predicate values hx, hkeep]
  simp [filterTrace, List.range_succ, BitVec.ofNat_add]

/-- **`filterFunc` in closed form**: with eight elements for each of its bytes inside the value
buffer and all of its bytes inside the bitmap, it masks those bytes and nothing else. -/
theorem filterFunc_ok (bitmap : Bitmap) {size count : Nat} (base dest : Nat) {len : BitVec 64}
    (hsize : 0 < size) (hcount : len.toNat / 8 = count)
    (hvalues : base + 8 * count ≤ values.length) (hdest : dest + count ≤ bitmap.length) :
    filterFunc predicate values size (size * base) bitmap dest len =
      .ok (bitmap.mask (rangeKeep predicate values (8 * dest) (8 * count) base),
        filterTrace base dest count) := by
  have hlen := len.isLt
  -- the quotient is so small that the signed comparison of the loop is that of the numbers
  have hdiv : len / 8#64 = BitVec.ofNat 64 count := by
    apply BitVec.eq_of_toNat_eq
    rw [BitVec.toNat_udiv, BitVec.toNat_ofNat, BitVec.toNat_ofNat, Nat.mod_eq_of_lt (by omega),
      Nat.mod_eq_of_lt (by omega), hcount]
  have hrun : whileLoop .diverged (fun s : OuterState => s.i.slt (len / 8#64))
      (filterOuterBody predicate values size (size * base) dest) (2 ^ 64)
      (filterRun predicate values bitmap base dest 0) =
        .ok (filterRun predicate values bitmap base dest count) :=
    whileLoop_trajectory (filterRun predicate values bitmap base dest) count (by omega)
    (fun i hi => by
      show (BitVec.ofNat 64 i).slt (len / 8#64) = true
      rw [hdiv, slt_ofNat (by omega) (by omega)]
      simpa using hi)
    (fun i hi => filterOuterBody_ok hsize (by omega) (by omega) (by omega))
    (by
      show (BitVec.ofNat 64 count).slt (len / 8#64) = false
      rw [hdiv, slt_ofNat (by omega) (by omega)]
      simp)
  have hstart : filterRun predicate values bitmap base dest 0 = ⟨0#64, bitmap, []⟩ := by
    simp [filterRun, filterTrace, mask_rangeKeep_zero]
  rw [hstart] at hrun
  simp only [filterFunc, hrun, bind_ok]
  rfl

/-! ## A shared byte -/

/-- The accesses of `filterRemainingFunc` in its first `count` elements. -/
def remainingTrace (base dest bitOffset count : Nat) : List Access :=
  (List.range count).flatMap fun i =>
    [.loadElem (base + i), .shift (7 - (i + bitOffset)), .loadByte dest, .storeByte dest]

/-- Clearing one bit is the mask of one row. -/
theorem set_bit_eq_mask {bitmap : Bitmap} {base dest j : Nat} (hj : j < 8) {x : BitVec 8}
    (hx : bitmap[dest]? = some x) :
    bitmap.set dest (x &&&
        ~~~((~~~(BitVec.ofBool (test predicate values base)).setWidth 8 &&& 1#8) <<< (7 - j))) =
      bitmap.mask (rangeKeep predicate values (8 * dest + j) 1 base) := by
  -- `~predicate & 1` is the negated bit, without the seven ones above it
  have hnot : ∀ b : Bool, ~~~(BitVec.ofBool b).setWidth 8 &&& 1#8 =
      (BitVec.ofBool (!b)).setWidth 8 := by
    decide
  rw [hnot]
  apply Bitmap.set_and_eq_mask hx
  · intro k hk
    have hlt : 7 - k < 8 := by omega
    rw [BitVec.getLsbD_not, Bitmap.getLsbD_shifted_bit _ hj hk]
    by_cases hkj : k = j
    · subst hkj
      rw [rangeKeep_of_mem predicate values (by omega)]
      simp [hlt]
    · rw [rangeKeep_of_not_mem predicate values (by omega)]
      simp [hkj, hlt]
  · intro r hr
    exact rangeKeep_of_not_mem predicate values (by omega)

/-- The state of `filterRemainingFunc` after `i` elements. -/
def remainingRun (bitmap : Bitmap) (base dest bitOffset i : Nat) : RemainingState where
  i := BitVec.ofNat 8 i
  bitmap := bitmap.mask (rangeKeep predicate values (8 * dest + bitOffset) i base)
  trace := remainingTrace base dest bitOffset i

variable {predicate values} in
theorem filterRemainingBody_ok {bitmap : Bitmap} {size base dest bitOffset i : Nat}
    (hsize : 0 < size) (hi : i + bitOffset < 8) (hvalues : base + i < values.length)
    (hdest : dest < bitmap.length) :
    filterRemainingBody predicate values size (size * base) dest (BitVec.ofNat 8 bitOffset)
        (remainingRun predicate values bitmap base dest bitOffset i) =
      .ok (remainingRun predicate values bitmap base dest bitOffset (i + 1)) := by
  obtain ⟨x, hx⟩ : ∃ x, values[base + i]? = some x :=
    ⟨_, List.getElem?_eq_getElem hvalues⟩
  have haddr : size * base + size * (BitVec.ofNat 8 i).toNat = size * (base + i) := by
    rw [BitVec.toNat_ofNat, Nat.mod_eq_of_lt (by omega), Nat.mul_add]
  have hamount : (7#8 - (BitVec.ofNat 8 i + BitVec.ofNat 8 bitOffset)).toNat =
      7 - (i + bitOffset) := by
    simp only [BitVec.toNat_sub, BitVec.toNat_add, BitVec.toNat_ofNat]
    omega
  have hlt : dest <
      (bitmap.mask (rangeKeep predicate values (8 * dest + bitOffset) i base)).length := by
    simpa using hdest
  have hy := List.getElem?_eq_getElem hlt
  have hkeep : (bitmap.mask (rangeKeep predicate values (8 * dest + bitOffset) i base)).mask
        (rangeKeep predicate values (8 * dest + (i + bitOffset)) 1 (base + i)) =
      bitmap.mask (rangeKeep predicate values (8 * dest + bitOffset) (i + 1) base) := by
    rw [Bitmap.mask_mask]
    refine Bitmap.mask_congr fun r _ => ?_
    rw [rangeKeep_add, show 8 * dest + (i + bitOffset) = 8 * dest + bitOffset + i by omega]
  simp only [filterRemainingBody, remainingRun, haddr, loadElem_ok hsize hx, bind_ok, shlByte,
    hamount, if_pos (show 7 - (i + bitOffset) < 8 by omega), loadByte_ok hy, storeByte_ok hlt,
    Nat.mul_div_cancel_left _ hsize]
  rw [← test_of_getElem? predicate hx, set_bit_eq_mask predicate values (by omega) hy,
    hkeep]
  simp [remainingTrace, List.range_succ, BitVec.ofNat_add]

/-- **`filterRemainingFunc` in closed form**: with its elements inside the value buffer, its byte
inside the bitmap and its bits inside the byte, it masks those bits and nothing else. -/
theorem filterRemainingFunc_ok (bitmap : Bitmap) {size : Nat} (base dest bitOffset count : Nat)
    (hsize : 0 < size) (hbits : count + bitOffset ≤ 8) (hvalues : base + count ≤ values.length)
    (hdest : count = 0 ∨ dest < bitmap.length) :
    filterRemainingFunc predicate values size (size * base) bitmap dest (BitVec.ofNat 8 count)
        (BitVec.ofNat 8 bitOffset) =
      .ok (bitmap.mask (rangeKeep predicate values (8 * dest + bitOffset) count base),
        remainingTrace base dest bitOffset count) := by
  have hrun : whileLoop .diverged (fun s : RemainingState => s.i.slt (BitVec.ofNat 8 count))
      (filterRemainingBody predicate values size (size * base) dest (BitVec.ofNat 8 bitOffset))
      (2 ^ 8) (remainingRun predicate values bitmap base dest bitOffset 0) =
        .ok (remainingRun predicate values bitmap base dest bitOffset count) :=
    whileLoop_trajectory (remainingRun predicate values bitmap base dest bitOffset) count (by omega)
    (fun i hi => by
      show (BitVec.ofNat 8 i).slt (BitVec.ofNat 8 count) = true
      rw [slt_ofNat (by omega) (by omega)]
      simpa using hi)
    (fun i hi => filterRemainingBody_ok hsize (by omega) (by omega) (by omega))
    (by
      show (BitVec.ofNat 8 count).slt (BitVec.ofNat 8 count) = false
      rw [slt_ofNat (by omega) (by omega)]
      simp)
  have hstart : remainingRun predicate values bitmap base dest bitOffset 0 = ⟨0#8, bitmap, []⟩ := by
    simp [remainingRun, remainingTrace, mask_rangeKeep_zero]
  rw [hstart] at hrun
  simp only [filterRemainingFunc, hrun, bind_ok]
  rfl

end Generated

end Pefa
