import Mathlib

/-!
# Bitmaps with the first bit on top

A bitmap is a list of bytes that holds one bit for each row: row `r` has bit `7 - r % 8` of byte
`r / 8`, so a byte lists its eight rows from its most significant bit down.

The one way of changing a bitmap studied here is the *mask*: clear the bits of some rows, keep the
others. Masks commute and compose, whatever rows they are about, so programs made of masks can be
reordered and a long sequence of them is one mask (`mask_mask`, `foldl_mask`). Bitwise AND and OR
of two whole bitmaps are `Bitmap.zip`.
-/

/-- A list of bytes, one bit for a row, most significant bit first. -/
abbrev Bitmap := List (BitVec 8)

namespace Bitmap

/-! ## Bytes from bits -/

/-- The byte whose bit `7 - k` is `f k`. -/
def byteOf (f : Nat → Bool) : BitVec 8 :=
  (BitVec.ofBoolListBE ((List.range 8).map f)).cast (by simp)

theorem getLsbD_byteOf (f : Nat → Bool) {k : Nat} (hk : k < 8) :
    (byteOf f).getLsbD (7 - k) = f k := by
  have h7 : 7 - (7 - k) = k := by omega
  have hlt : 7 - k < 8 := by omega
  simp [byteOf, h7, hlt]

/-- Bytes are equal when their bits are, counted from the top. -/
theorem byte_ext {x y : BitVec 8} (h : ∀ k < 8, x.getLsbD (7 - k) = y.getLsbD (7 - k)) : x = y := by
  apply BitVec.eq_of_getLsbD_eq
  intro i hi
  have := h (7 - i) (by omega)
  rwa [show 7 - (7 - i) = i by omega] at this

/-- A byte is made from eight bits only. -/
theorem byteOf_congr {f g : Nat → Bool} (h : ∀ k < 8, f k = g k) : byteOf f = byteOf g := by
  apply byte_ext
  intro k hk
  rw [getLsbD_byteOf f hk, getLsbD_byteOf g hk, h k hk]

/-- Bit 0 of the byte that holds one bit, moved up by `7 - j`, is bit `7 - j` alone. -/
theorem getLsbD_shifted_bit (b : Bool) {j k : Nat} (hj : j < 8) (hk : k < 8) :
    ((BitVec.ofBool b).setWidth 8 <<< (7 - j)).getLsbD (7 - k) = (decide (k = j) && b) := by
  have h1 : (7 - k < 8) := by omega
  by_cases hkj : k = j
  · subst hkj
    cases b <;> simp [h1]
  · by_cases hlt : 7 - k < 7 - j
    · simp [hlt, hkj]
    · have : ¬ 7 - k - (7 - j) = 0 := by omega
      cases b <;> simp [hkj, this]

/-! ## Bits of a bitmap -/

/-- The bit of row `r`. -/
def bit (b : Bitmap) (r : Nat) : Bool := (b.getD (r / 8) 0).getLsbD (7 - r % 8)

theorem bit_of_getElem? {b : Bitmap} {q : Nat} {x : BitVec 8} (h : b[q]? = some x) {k : Nat}
    (hk : k < 8) : b.bit (8 * q + k) = x.getLsbD (7 - k) := by
  have hq : (8 * q + k) / 8 = q := by omega
  have hr : (8 * q + k) % 8 = k := by omega
  simp [bit, hq, hr, h, List.getD_eq_getElem?_getD]

/-- Bitmaps of one length are equal when all their bits are. -/
theorem ext {a b : Bitmap} (hlen : a.length = b.length)
    (h : ∀ r < 8 * a.length, a.bit r = b.bit r) : a = b := by
  apply List.ext_getElem hlen
  intro q ha hb
  apply byte_ext
  intro k hk
  have := h (8 * q + k) (by omega)
  rwa [bit_of_getElem? (List.getElem?_eq_getElem ha) hk,
    bit_of_getElem? (List.getElem?_eq_getElem hb) hk] at this

/-- The bitmap in which every bit is set. -/
def ones (bytes : Nat) : Bitmap := List.replicate bytes 255#8

@[simp] theorem length_ones (bytes : Nat) : (ones bytes).length = bytes := by simp [ones]

theorem bit_ones {bytes r : Nat} (h : r < 8 * bytes) : (ones bytes).bit r = true := by
  have hq : r / 8 < bytes := by omega
  have hk : 7 - r % 8 < 8 := by omega
  have h255 : ∀ i < 8, (255#8).getLsbD i = true := by decide
  simpa [bit, ones, List.getD_eq_getElem?_getD, hq] using h255 _ hk

/-! ## Masks -/

/-- Keep the bits of the rows `keep`, clear the others. -/
def mask (b : Bitmap) (keep : Nat → Bool) : Bitmap :=
  b.mapIdx fun q x => x &&& byteOf fun k => keep (8 * q + k)

@[simp] theorem length_mask (b : Bitmap) (keep : Nat → Bool) : (b.mask keep).length = b.length := by
  simp [mask]

theorem getElem?_mask (b : Bitmap) (keep : Nat → Bool) (q : Nat) :
    (b.mask keep)[q]? = b[q]?.map (· &&& byteOf fun k => keep (8 * q + k)) := by
  simp [mask]

theorem bit_mask {b : Bitmap} {keep : Nat → Bool} {r : Nat} (h : r < 8 * b.length) :
    (b.mask keep).bit r = (b.bit r && keep r) := by
  have hq : r / 8 < b.length := by omega
  have hk : r % 8 < 8 := by omega
  have hr : 8 * (r / 8) + r % 8 = r := by omega
  have hb := bit_of_getElem? (List.getElem?_eq_getElem hq) hk
  have hm : (b.mask keep)[r / 8]? = some (b[r / 8] &&& byteOf fun k => keep (8 * (r / 8) + k)) := by
    rw [getElem?_mask, List.getElem?_eq_getElem hq]
    rfl
  have hbm := bit_of_getElem? hm hk
  rw [hr] at hb hbm
  rw [hbm, hb, BitVec.getLsbD_and, getLsbD_byteOf _ hk, hr]

theorem mask_congr {b : Bitmap} {keep keep' : Nat → Bool}
    (h : ∀ r < 8 * b.length, keep r = keep' r) : b.mask keep = b.mask keep' := by
  apply ext (by simp)
  intro r hr
  rw [length_mask] at hr
  rw [bit_mask hr, bit_mask hr, h r hr]

/-- A mask that clears nothing changes nothing. -/
theorem mask_eq_self {b : Bitmap} {keep : Nat → Bool} (h : ∀ r < 8 * b.length, keep r = true) :
    b.mask keep = b := by
  apply ext (by simp)
  intro r hr
  rw [length_mask] at hr
  rw [bit_mask hr, h r hr, Bool.and_true]

/-- A byte all of whose rows are kept does not change. -/
theorem getElem?_mask_of_keep (b : Bitmap) {keep : Nat → Bool} {q : Nat}
    (h : ∀ k < 8, keep (8 * q + k) = true) : (b.mask keep)[q]? = b[q]? := by
  have hfull : byteOf (fun k => keep (8 * q + k)) = BitVec.allOnes 8 := by
    apply byte_ext
    intro k hk
    rw [getLsbD_byteOf _ hk, h k hk, BitVec.getLsbD_allOnes]
    simp
    omega
  rw [getElem?_mask, hfull]
  cases b[q]? with
  | none => rfl
  | some x => exact congrArg some (BitVec.and_allOnes)

/-- **Two masks are one**: a row is kept when both keep it. -/
theorem mask_mask (b : Bitmap) (f g : Nat → Bool) :
    (b.mask f).mask g = b.mask fun r => f r && g r := by
  apply ext (by simp)
  intro r hr
  simp only [length_mask] at hr
  rw [bit_mask (by simpa using hr), bit_mask hr, bit_mask hr, Bool.and_assoc]

/-- **Masks commute.** -/
theorem mask_comm (b : Bitmap) (f g : Nat → Bool) :
    (b.mask f).mask g = (b.mask g).mask f := by
  rw [mask_mask, mask_mask]
  exact mask_congr fun r _ => Bool.and_comm _ _

/-- A sequence of masks is one mask. -/
theorem foldl_mask (fs : List (Nat → Bool)) (b : Bitmap) :
    fs.foldl mask b = b.mask fun r => fs.all fun f => f r := by
  induction fs generalizing b with
  | nil => exact (mask_eq_self fun _ _ => rfl).symm
  | cons f fs ih => rw [List.foldl_cons, ih, mask_mask]; rfl

/-- Writing back one byte with some of its bits cleared is a mask. -/
theorem set_and_eq_mask {b : Bitmap} {q : Nat} {x y : BitVec 8} {keep : Nat → Bool}
    (hx : b[q]? = some x) (hin : ∀ k < 8, y.getLsbD (7 - k) = keep (8 * q + k))
    (hout : ∀ r, r / 8 ≠ q → keep r = true) : b.set q (x &&& y) = b.mask keep := by
  have hq : q < b.length := (List.getElem?_eq_some_iff.mp hx).1
  apply ext (by simp)
  intro r hr
  rw [List.length_set] at hr
  have hk : r % 8 < 8 := by omega
  have hrr : 8 * (r / 8) + r % 8 = r := by omega
  rw [bit_mask hr]
  by_cases hrq : r / 8 = q
  · have hs : (b.set q (x &&& y))[q]? = some (x &&& y) := List.getElem?_set_self hq
    have h1 := bit_of_getElem? hs hk
    have h2 := bit_of_getElem? hx hk
    subst hrq
    rw [hrr] at h1 h2
    rw [h1, h2, BitVec.getLsbD_and, hin _ hk, hrr]
  · have hs : (b.set q (x &&& y))[r / 8]? = b[r / 8]? := List.getElem?_set_ne (Ne.symm hrq)
    rw [hout r hrq, Bool.and_true, bit, bit, List.getD_eq_getElem?_getD,
      List.getD_eq_getElem?_getD, hs]

/-! ## Combining two bitmaps -/

/-- Combine two bitmaps byte by byte. -/
def zip (op : BitVec 8 → BitVec 8 → BitVec 8) (a b : Bitmap) : Bitmap := List.zipWith op a b

theorem length_zip {op : BitVec 8 → BitVec 8 → BitVec 8} {a b : Bitmap}
    (h : a.length = b.length) : (zip op a b).length = a.length := by
  simp [zip, h]

/-- What a bytewise operation does to every bit, it does to the bits of the combined bitmap. -/
theorem bit_zip {op : BitVec 8 → BitVec 8 → BitVec 8} {f : Bool → Bool → Bool}
    (hop : ∀ x y i, (hi : i < 8) → (op x y).getLsbD i = f (x.getLsbD i) (y.getLsbD i))
    {a b : Bitmap} (hlen : a.length = b.length) {r : Nat} (hr : r < 8 * a.length) :
    (zip op a b).bit r = f (a.bit r) (b.bit r) := by
  have ha : r / 8 < a.length := by omega
  have hb : r / 8 < b.length := by omega
  have hk : 7 - r % 8 < 8 := by omega
  simp only [bit, zip, List.getD_eq_getElem?_getD, List.getElem?_zipWith,
    List.getElem?_eq_getElem ha, List.getElem?_eq_getElem hb, Option.getD_some]
  exact hop _ _ _ hk

/-- A bitmap whose first `i` bytes have been combined with another one's. -/
def zipPrefix (op : BitVec 8 → BitVec 8 → BitVec 8) (a b : Bitmap) (i : Nat) : Bitmap :=
  (zip op a b).take i ++ a.drop i

@[simp] theorem zipPrefix_zero (op : BitVec 8 → BitVec 8 → BitVec 8) (a b : Bitmap) :
    zipPrefix op a b 0 = a := by simp [zipPrefix]

section

variable {op : BitVec 8 → BitVec 8 → BitVec 8} {a b : Bitmap} {i : Nat} {x y : BitVec 8}

theorem zipPrefix_length (hlen : a.length = b.length) : zipPrefix op a b a.length = zip op a b := by
  rw [zipPrefix, List.drop_length, List.append_nil,
    List.take_of_length_le (length_zip hlen).le]

variable (op) in
theorem length_take_zip (hx : a[i]? = some x) (hy : b[i]? = some y) :
    ((zip op a b).take i).length = i := by
  have ha := (List.getElem?_eq_some_iff.mp hx).1
  have hb := (List.getElem?_eq_some_iff.mp hy).1
  simp [zip]
  omega

variable (op) in
/-- The next byte has not been touched. -/
theorem getElem?_zipPrefix (hx : a[i]? = some x) (hy : b[i]? = some y) :
    (zipPrefix op a b i)[i]? = some x := by
  have htake := length_take_zip op hx hy
  rw [zipPrefix, List.getElem?_append_right htake.le, htake, Nat.sub_self, List.getElem?_drop,
    Nat.add_zero, hx]

/-- Combining the next byte. -/
theorem set_zipPrefix (hx : a[i]? = some x) (hy : b[i]? = some y) :
    (zipPrefix op a b i).set i (op x y) = zipPrefix op a b (i + 1) := by
  have htake := length_take_zip op hx hy
  have hz : (zip op a b)[i]? = some (op x y) := by
    simp [zip, List.getElem?_zipWith, hx, hy]
  have hdrop : a.drop i = x :: a.drop (i + 1) := by
    obtain ⟨hi, rfl⟩ := List.getElem?_eq_some_iff.mp hx
    exact List.drop_eq_getElem_cons hi
  rw [zipPrefix, hdrop, List.set_append_right _ _ htake.le, htake, Nat.sub_self, List.set_cons_zero,
    zipPrefix, List.take_add_one, hz, List.append_assoc]
  rfl

end

/-- An idempotent operation leaves a bitmap combined with itself as it is. -/
theorem zip_self {op : BitVec 8 → BitVec 8 → BitVec 8} (hop : ∀ x, op x x = x) (a : Bitmap) :
    zip op a a = a := by
  induction a with
  | nil => rfl
  | cons x a ih =>
      show op x x :: zip op a a = x :: a
      rw [hop, ih]

end Bitmap
