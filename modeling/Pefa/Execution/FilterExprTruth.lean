import Pefa.Execution.CompareBits

/-!
# The truth of a filter expression

The executor combines the buffer of the right operand into the buffer of the left one. On a tree of
comparisons the two are never one buffer, and the buffer left behind has the truth of the tree.

A constant leaves `m_buffer` as it was, so it is read as whatever stands to its left: an operand
that is a constant leaves the other operand as it is, an operand that starts with a constant goes
on with the buffer of the other one, and a tree that starts with a constant finds no buffer at all.
`asRead` is the tree of comparisons that a tree is read as, and `visit_ok` says that the executor
computes the truth of that tree.
-/

namespace Pefa

open WhileLoop Blocks

/-! ## Combining two buffers -/

theorem getLsbD_applyByte (op : PredicateOp) (x y : BitVec 8) (i : Nat) (_ : i < 8) :
    (op.applyByte x y).getLsbD i = op.apply (x.getLsbD i) (y.getLsbD i) := by
  cases op with
  | and => exact BitVec.getLsbD_and
  | or => exact BitVec.getLsbD_or

theorem applyByte_self (op : PredicateOp) (x : BitVec 8) : op.applyByte x x = x := by
  cases op with
  | and => exact BitVec.and_self
  | or => exact BitVec.or_self

theorem getBuffer_ok {buffers : List Bitmap} {a : Nat} {b : Bitmap} (h : buffers[a]? = some b) :
    getBuffer buffers (some a) = .ok b := by
  simp [getBuffer, h]

section Combine

variable {op : PredicateOp} {buffers : List Bitmap} {a b : Nat} {x y : Bitmap}

/-- The state of `combine` after `i` bytes. -/
def combineRun (op : PredicateOp) (buffers : List Bitmap) (a : Nat) (x y : Bitmap) (i : Nat) :
    CombineState :=
  ⟨i, buffers.set a (Bitmap.zipPrefix op.applyByte x y i)⟩

/-- One byte; the bytes still to be read are as they were, also when both buffers are one. -/
theorem combineBody_ok (ha : buffers[a]? = some x) (hb : buffers[b]? = some y) {i : Nat}
    (hx : i < x.length) (hy : i < y.length) (hlt : i + 1 < 2 ^ 31) :
    combineBody op (some a) (some b) (combineRun op buffers a x y i) =
      .ok (combineRun op buffers a x y (i + 1)) := by
  obtain ⟨p, hp⟩ : ∃ p, x[i]? = some p := ⟨_, List.getElem?_eq_getElem hx⟩
  obtain ⟨q, hq⟩ : ∃ q, y[i]? = some q := ⟨_, List.getElem?_eq_getElem hy⟩
  have hself : ∀ w, (buffers.set a w)[a]? = some w := fun w =>
    List.getElem?_set_self (List.getElem?_eq_some_iff.mp ha).1
  have hnext := Bitmap.getElem?_zipPrefix op.applyByte hp hq
  have hlt' := (List.getElem?_eq_some_iff.mp hnext).1
  obtain ⟨y', hy', hq'⟩ : ∃ y',
      (buffers.set a (Bitmap.zipPrefix op.applyByte x y i))[b]? = some y' ∧ y'[i]? = some q := by
    by_cases hab : a = b
    · subst hab
      obtain rfl : x = y := Option.some.inj (ha.symm.trans hb)
      obtain rfl : p = q := Option.some.inj (hp.symm.trans hq)
      exact ⟨_, hself _, hnext⟩
    · exact ⟨y, (List.getElem?_set_ne hab).trans hb, hq⟩
  simp only [combineBody, getBuffer_ok hy', loadByte_ok hq', getBuffer_ok (hself _), combineRun,
    loadByte_ok hnext, storeByte_ok hlt', intAdd_ok hlt, bind_ok, Bitmap.set_zipPrefix hp hq,
    List.set_set]

/-- **Combining two buffers** of one length, which may be one buffer. -/
theorem combine_ok (ha : buffers[a]? = some x) (hb : buffers[b]? = some y)
    (hlen : x.length = y.length) (hlt : x.length < 2 ^ 31) :
    combine op (some a) (some b) buffers =
      .ok (buffers.set a (Bitmap.zip op.applyByte x y)) := by
  have hrun : whileLoop .diverged (fun s : CombineState => decide (s.i < x.length))
      (combineBody op (some a) (some b)) intFuel (combineRun op buffers a x y 0) =
        .ok (combineRun op buffers a x y x.length) :=
    whileLoop_trajectory (combineRun op buffers a x y) x.length (by unfold intFuel; omega)
      (fun i hi => decide_eq_true hi)
      (fun i hi => combineBody_ok ha hb hi (by omega) (by omega))
      (by simp [combineRun])
  have hstart : combineRun op buffers a x y 0 = ⟨0, buffers⟩ := by
    have hset : buffers.set a x = buffers := by
      obtain ⟨halt, rfl⟩ := List.getElem?_eq_some_iff.mp ha
      exact List.set_getElem_self halt
    rw [combineRun, Bitmap.zipPrefix_zero, hset]
  rw [hstart] at hrun
  simp only [combine, getBuffer_ok ha, bind_ok, hrun]
  rw [combineRun, Bitmap.zipPrefix_length hlen]

/-- The counter of `combine` is an `int`, so it does not get through a longer buffer. -/
theorem combine_length {lhsBuf rhsBuf : Option Nat} {out : List Bitmap}
    (h : combine op lhsBuf rhsBuf buffers = .ok out) :
    ∃ lhs, getBuffer buffers lhsBuf = .ok lhs ∧ lhs.length < 2 ^ 31 := by
  obtain ⟨lhs, hlhs, h⟩ := bind_eq_ok.mp h
  obtain ⟨s, hloop, -⟩ := bind_eq_ok.mp h
  refine ⟨lhs, hlhs, ?_⟩
  obtain ⟨hi, hstop⟩ := whileLoop_inv (fun s : CombineState => s.i < 2 ^ 31)
    (fun s s' _ _ hbody => by
      obtain ⟨_, _, hbody⟩ := bind_eq_ok.mp hbody
      obtain ⟨_, _, hbody⟩ := bind_eq_ok.mp hbody
      obtain ⟨_, _, hbody⟩ := bind_eq_ok.mp hbody
      obtain ⟨_, _, hbody⟩ := bind_eq_ok.mp hbody
      obtain ⟨_, _, hbody⟩ := bind_eq_ok.mp hbody
      obtain ⟨i, hadd, hbody⟩ := bind_eq_ok.mp hbody
      obtain ⟨rfl, hlt⟩ := intAdd_eq_ok hadd
      cases hbody
      exact hlt)
    (Nat.two_pow_pos 31) hloop
  have : ¬ s.i < lhs.length := by simpa using hstop
  omega

end Combine

/-! ## What a tree is read as -/

namespace BooleanExpr

/-- The leftmost leaf is a constant. -/
def startsWithConst : BooleanExpr → Bool
  | .booleanConst _ => true
  | .predicateExpr lhs _ _ => lhs.startsWithConst
  | .compareExpr _ _ _ => false

/-- The tree of comparisons that is left when every constant is read as what stands to its left,
`left` for the leftmost one; nothing if nothing stands there. -/
def asRead (left : Option BooleanExpr) : BooleanExpr → Option BooleanExpr
  | .booleanConst _ => left
  | .predicateExpr lhs rhs op => do
      let lhs' ← lhs.asRead left
      let rhs' ← rhs.asRead (some lhs')
      some (if rhs.startsWithConst then rhs' else .predicateExpr lhs' rhs' op)
  | .compareExpr lhs rhs op => some (.compareExpr lhs rhs op)

theorem asRead_none_of_startsWithConst : ∀ {e : BooleanExpr}, e.startsWithConst = true →
    e.asRead none = none
  | .booleanConst _, _ => rfl
  | .predicateExpr lhs _ _, h => by
      rw [asRead, asRead_none_of_startsWithConst (e := lhs) h]
      rfl
  | .compareExpr _ _ _, h => by cases h

/-- Something is read where the leftmost leaf is a comparison or something stands to its left. -/
theorem exists_asRead : ∀ {e : BooleanExpr} (left : Option BooleanExpr),
    e.startsWithConst = false ∨ (∃ t, left = some t) → ∃ e', e.asRead left = some e'
  | .booleanConst _, _, h => by
      obtain ⟨t, rfl⟩ := h.resolve_left nofun
      exact ⟨t, rfl⟩
  | .predicateExpr lhs rhs _, _, h => by
      obtain ⟨lhs', hl⟩ := exists_asRead (e := lhs) _ h
      obtain ⟨rhs', hr⟩ := exists_asRead (e := rhs) _ (Or.inr ⟨lhs', rfl⟩)
      exact ⟨_, by rw [asRead, hl, Option.bind_eq_bind, Option.bind_some, hr]; rfl⟩
  | .compareExpr _ _ _, _, _ => ⟨_, rfl⟩

theorem ConstFree.startsWithConst_eq : ∀ {e : BooleanExpr}, e.ConstFree → e.startsWithConst = false
  | .booleanConst _, h => h.elim
  | .predicateExpr lhs _ _, h => startsWithConst_eq (e := lhs) h.1
  | .compareExpr _ _ _, _ => rfl

/-- Without constants a tree is read as it is. -/
theorem ConstFree.asRead_eq (left : Option BooleanExpr) : ∀ {e : BooleanExpr}, e.ConstFree →
    e.asRead left = some e
  | .booleanConst _, h => h.elim
  | .predicateExpr lhs rhs op, h => by
      simp [asRead, asRead_eq left h.1, asRead_eq (some lhs) h.2, startsWithConst_eq h.2]
  | .compareExpr _ _ _, _ => rfl

def IsPredicate : BooleanExpr → Prop
  | .predicateExpr _ _ _ => True
  | _ => False

end BooleanExpr

/-! ## The executor computes the truth of the tree as read -/

section Visit

variable {table : Table} {atom : Nat → ColumnRef → LiteralExpr → CompareOp → Bool}
  {rows bytes : Nat}

/-- The buffer of a comparison has `bytes` bytes and says what `atom` says of the rows. -/
def CompareComputes (table : Table) (atom : Nat → ColumnRef → LiteralExpr → CompareOp → Bool)
    (rows bytes : Nat) (lhs : ColumnRef) (l : LiteralExpr) (op : CompareOp) : Prop :=
  ∃ buffer, compareBuffer table lhs l op = .ok buffer ∧ buffer.length = bytes ∧
    ∀ r < rows, buffer.bit r = atom r lhs l op

/-- The buffer at place `a` has the truth of the tree `e` on every row. -/
def BufferHolds (atom : Nat → ColumnRef → LiteralExpr → CompareOp → Bool) (rows bytes : Nat)
    (buffers : List Bitmap) (a : Nat) (e : BooleanExpr) : Prop :=
  ∃ b, buffers[a]? = some b ∧ b.length = bytes ∧ ∀ r < rows, b.bit r = e.truth (atom r)

/-- What a visit of `e` leaves: `m_buffer` holds the truth of `e'`; it is the buffer that was there
before if the leftmost leaf is a constant and a new one if not, and no other buffer has changed. -/
structure Visited (atom : Nat → ColumnRef → LiteralExpr → CompareOp → Bool) (rows bytes : Nat)
    (e e' : BooleanExpr) (s s' : FilterExprExecutor) (a : Nat) : Prop where
  mBuffer : s'.mBuffer = some a
  holds : BufferHolds atom rows bytes s'.buffers a e'
  same : e.startsWithConst = true → s.mBuffer = some a
  fresh : e.startsWithConst = false → s.buffers.length ≤ a
  length_le : s.buffers.length ≤ s'.buffers.length
  frame : ∀ a' < s.buffers.length, a' ≠ a → s'.buffers[a']? = s.buffers[a']?

theorem BufferHolds.lt {buffers : List Bitmap} {a : Nat} {e : BooleanExpr}
    (h : BufferHolds atom rows bytes buffers a e) : a < buffers.length := by
  obtain ⟨b, hb, -⟩ := h
  exact (List.getElem?_eq_some_iff.mp hb).1

/-- Combining the buffers of two trees. -/
theorem BufferHolds.combine {buffers : List Bitmap} {a b : Nat} {lhs rhs : BooleanExpr}
    (op : PredicateOp) (hrows : rows ≤ 8 * bytes) (hbytes : bytes < 2 ^ 31)
    (ha : BufferHolds atom rows bytes buffers a lhs)
    (hb : BufferHolds atom rows bytes buffers b rhs) :
    ∃ z, Pefa.combine op (some a) (some b) buffers = .ok (buffers.set a z) ∧
      BufferHolds atom rows bytes (buffers.set a z) a (.predicateExpr lhs rhs op) := by
  have halt := ha.lt
  obtain ⟨x, hx, hxlen, hxbits⟩ := ha
  obtain ⟨y, hy, hylen, hybits⟩ := hb
  have hlen : x.length = y.length := by rw [hxlen, hylen]
  refine ⟨_, combine_ok hx hy hlen (by omega), _, List.getElem?_set_self halt, ?_, ?_⟩
  · rw [Bitmap.length_zip hlen, hxlen]
  · intro r hr
    rw [Bitmap.bit_zip (getLsbD_applyByte op) hlen (by omega), hxbits r hr, hybits r hr]
    rfl

/-- Combining a buffer with itself. -/
theorem BufferHolds.combine_self {buffers : List Bitmap} {a : Nat} {e : BooleanExpr}
    (op : PredicateOp) (hbytes : bytes < 2 ^ 31) (ha : BufferHolds atom rows bytes buffers a e) :
    Pefa.combine op (some a) (some a) buffers = .ok buffers := by
  obtain ⟨x, hx, hxlen, -⟩ := ha
  rw [combine_ok hx hx rfl (by omega), Bitmap.zip_self (applyByte_self op)]
  obtain ⟨halt, rfl⟩ := List.getElem?_eq_some_iff.mp hx
  rw [List.set_getElem_self halt]

section Operands

variable {lhs rhs lhs' rhs' : BooleanExpr} {s s₁ s₂ : FilterExprExecutor} {a b : Nat}
  (op : PredicateOp) (hvisit₁ : FilterExprExecutor.visit table lhs s = .ok s₁)
  (h₁ : Visited atom rows bytes lhs lhs' s s₁ a)
  (hvisit₂ : FilterExprExecutor.visit table rhs s₁ = .ok s₂)
  (h₂ : Visited atom rows bytes rhs rhs' s₁ s₂ b)
include hvisit₁ h₁ hvisit₂ h₂

/-- A right operand that starts with a constant goes on with the buffer of the left one, which is
then combined with itself. -/
theorem Visited.continued (hbytes : bytes < 2 ^ 31) (hconst : rhs.startsWithConst = true) :
    ∃ s', FilterExprExecutor.visit table (.predicateExpr lhs rhs op) s = .ok s' ∧
      Visited atom rows bytes (.predicateExpr lhs rhs op) rhs' s s' a := by
  obtain rfl : a = b := Option.some.inj (h₁.mBuffer.symm.trans (h₂.same hconst))
  refine ⟨⟨s₂.buffers, some a⟩, ?_, rfl, h₂.holds, h₁.same, h₁.fresh,
    h₁.length_le.trans h₂.length_le, ?_⟩
  · simp only [FilterExprExecutor.visit, hvisit₁, hvisit₂, bind_ok, h₁.mBuffer, h₂.mBuffer,
      h₂.holds.combine_self op hbytes]
  · intro a' ha' hne
    rw [h₂.frame a' (ha'.trans_le h₁.length_le) hne, h₁.frame a' ha' hne]

/-- Any other right operand has a new buffer, and that of the left one is as it was. -/
theorem Visited.combined (hrows : rows ≤ 8 * bytes) (hbytes : bytes < 2 ^ 31)
    (hconst : rhs.startsWithConst = false) :
    ∃ s', FilterExprExecutor.visit table (.predicateExpr lhs rhs op) s = .ok s' ∧
      Visited atom rows bytes (.predicateExpr lhs rhs op) (.predicateExpr lhs' rhs' op) s s' a := by
  have ha : a < s₁.buffers.length := h₁.holds.lt
  have hfresh : s₁.buffers.length ≤ b := h₂.fresh hconst
  have hholds : BufferHolds atom rows bytes s₂.buffers a lhs' := by
    obtain ⟨x, hx, hrest⟩ := h₁.holds
    exact ⟨x, by rw [h₂.frame a ha (ha.trans_le hfresh).ne, hx], hrest⟩
  obtain ⟨z, hcombine, hz⟩ := hholds.combine op hrows hbytes h₂.holds
  refine ⟨⟨s₂.buffers.set a z, some a⟩, ?_, rfl, hz, h₁.same, h₁.fresh, ?_, ?_⟩
  · simp only [FilterExprExecutor.visit, hvisit₁, hvisit₂, bind_ok, h₁.mBuffer, h₂.mBuffer,
      hcombine]
  · rw [List.length_set]
    exact h₁.length_le.trans h₂.length_le
  · intro a' ha' hne
    have hlt : a' < s₁.buffers.length := ha'.trans_le h₁.length_le
    rw [List.getElem?_set_ne hne.symm, h₂.frame a' hlt (hlt.trans_le hfresh).ne,
      h₁.frame a' ha' hne]

end Operands

/-- **The executor computes the truth of the tree as it is read.** -/
theorem visit_ok (hrows : rows ≤ 8 * bytes) : ∀ {e e' : BooleanExpr} {s : FilterExprExecutor}
    {left : Option BooleanExpr},
    e.AllCompare (CompareComputes table atom rows bytes) → (e.IsPredicate → bytes < 2 ^ 31) →
    (∀ t, left = some t → ∃ a, s.mBuffer = some a ∧ BufferHolds atom rows bytes s.buffers a t) →
    e.asRead left = some e' →
    ∃ s' a, FilterExprExecutor.visit table e s = .ok s' ∧ Visited atom rows bytes e e' s s' a := by
  intro e
  induction e with
  | booleanConst value =>
      intro e' s left _ _ hleft hread
      obtain ⟨a, ha, hholds⟩ := hleft e' hread
      exact ⟨s, a, rfl, ha, hholds, fun _ => ha, (fun h => by cases h), Nat.le_refl _,
        fun _ _ _ => rfl⟩
  | compareExpr lhs l op =>
      intro e' s left hcomp _ _ hread
      obtain ⟨buffer, hbuffer, hlen, hbits⟩ := hcomp
      obtain rfl : BooleanExpr.compareExpr lhs l op = e' := Option.some.inj hread
      refine ⟨_, s.buffers.length, visit_compareExpr hbuffer s, rfl,
        ⟨buffer, by simp, hlen, hbits⟩, (fun h => by cases h), fun _ => Nat.le_refl _, by simp, ?_⟩
      intro a ha _
      exact List.getElem?_append_left ha
  | predicateExpr lhs rhs op ihl ihr =>
      intro e' s left hcomp hpred hleft hread
      have hbytes := hpred trivial
      obtain ⟨lhs', hlread, hread⟩ := Option.bind_eq_some_iff.mp hread
      obtain ⟨rhs', hrread, hread⟩ := Option.bind_eq_some_iff.mp hread
      obtain ⟨s₁, a, hvisit₁, h₁⟩ := ihl hcomp.1 (fun _ => hbytes) hleft hlread
      obtain ⟨s₂, b, hvisit₂, h₂⟩ := ihr (s := s₁) hcomp.2 (fun _ => hbytes)
        (fun t ht => ⟨a, h₁.mBuffer, by cases ht; exact h₁.holds⟩) hrread
      cases hconst : rhs.startsWithConst with
      | true =>
          rw [if_pos hconst] at hread
          obtain rfl : rhs' = e' := Option.some.inj hread
          obtain ⟨s', hs'⟩ := Visited.continued op hvisit₁ h₁ hvisit₂ h₂ hbytes hconst
          exact ⟨s', a, hs'⟩
      | false =>
          rw [if_neg (by rw [hconst]; exact Bool.false_ne_true)] at hread
          obtain rfl : BooleanExpr.predicateExpr lhs' rhs' op = e' := Option.some.inj hread
          obtain ⟨s', hs'⟩ := Visited.combined op hvisit₁ h₁ hvisit₂ h₂ hrows hbytes hconst
          exact ⟨s', a, hs'⟩

theorem Visited.result {e e' : BooleanExpr} {s s' : FilterExprExecutor} {a : Nat}
    (h : Visited atom rows bytes e e' s s' a) :
    ∃ b, s'.result = some b ∧ b.length = bytes ∧ ∀ r < rows, b.bit r = e'.truth (atom r) := by
  obtain ⟨b, hb, hrest⟩ := h.holds
  exact ⟨b, by simp [FilterExprExecutor.result, h.mBuffer, hb], hrest⟩

/-! ## Visits that fail -/

/-- A tree that starts with a constant finds no buffer to go on with. -/
theorem visit_startsWithConst : ∀ {e : BooleanExpr} {s s' : FilterExprExecutor},
    e.startsWithConst = true → s.mBuffer = none → FilterExprExecutor.visit table e s = .ok s' →
    s'.mBuffer = none := by
  intro e
  induction e with
  | booleanConst value =>
      intro s s' _ hs hvisit
      cases hvisit
      exact hs
  | compareExpr lhs l op =>
      intro s s' hconst
      cases hconst
  | predicateExpr lhs rhs op ihl ihr =>
      intro s s' hconst hs hvisit
      obtain ⟨s₁, hvisit₁, hvisit⟩ := bind_eq_ok.mp hvisit
      obtain ⟨s₂, hvisit₂, hvisit⟩ := bind_eq_ok.mp hvisit
      rw [ihl hconst hs hvisit₁] at hvisit
      cases hvisit

/-- `m_buffer` is null or a buffer of `bytes` bytes. -/
def BufferSized (bytes : Nat) (buffers : List Bitmap) (p : Option Nat) : Prop :=
  ∀ a, p = some a → ∃ b, buffers[a]? = some b ∧ b.length = bytes

/-- A leaf leaves a buffer of the right size, and the buffers there were. -/
theorem visit_leaf {e : BooleanExpr} {s s' : FilterExprExecutor}
    (hcomp : e.AllCompare (CompareComputes table atom rows bytes)) (hleaf : ¬ e.IsPredicate)
    (hs : BufferSized bytes s.buffers s.mBuffer)
    (hvisit : FilterExprExecutor.visit table e s = .ok s') :
    BufferSized bytes s'.buffers s'.mBuffer ∧
      ∀ a < s.buffers.length, s'.buffers[a]? = s.buffers[a]? := by
  cases e with
  | booleanConst value =>
      cases hvisit
      exact ⟨hs, fun _ _ => rfl⟩
  | compareExpr lhs l op =>
      obtain ⟨buffer, hbuffer, hlen, -⟩ := hcomp
      rw [visit_compareExpr hbuffer] at hvisit
      cases hvisit
      refine ⟨fun a ha => ⟨buffer, ?_, hlen⟩, fun a ha => List.getElem?_append_left ha⟩
      cases ha
      simp
  | predicateExpr => exact absurd trivial hleaf

/-- Two buffers are combined only if an `int` can count their bytes. -/
theorem visit_predicate_bytes : ∀ {e : BooleanExpr} {s s' : FilterExprExecutor},
    e.AllCompare (CompareComputes table atom rows bytes) → e.IsPredicate →
    BufferSized bytes s.buffers s.mBuffer → FilterExprExecutor.visit table e s = .ok s' →
    bytes < 2 ^ 31 := by
  intro e
  induction e with
  | booleanConst value => exact fun _ h => h.elim
  | compareExpr lhs l op => exact fun _ h => h.elim
  | predicateExpr lhs rhs op ihl ihr =>
      intro s s' hcomp _ hs hvisit
      obtain ⟨s₁, hvisit₁, hvisit⟩ := bind_eq_ok.mp hvisit
      obtain ⟨s₂, hvisit₂, hvisit⟩ := bind_eq_ok.mp hvisit
      obtain ⟨out, hcombine, -⟩ := bind_eq_ok.mp hvisit
      by_cases hl : lhs.IsPredicate
      · exact ihl hcomp.1 hl hs hvisit₁
      obtain ⟨hs₁, -⟩ := visit_leaf hcomp.1 hl hs hvisit₁
      by_cases hr : rhs.IsPredicate
      · exact ihr hcomp.2 hr hs₁ hvisit₂
      obtain ⟨-, hframe⟩ := visit_leaf hcomp.2 hr hs₁ hvisit₂
      -- the left buffer is still there when the two are combined
      obtain ⟨b, hb, hlt⟩ := combine_length hcombine
      cases hp : s₁.mBuffer with
      | none =>
          rw [hp] at hb
          cases hb
      | some a =>
          obtain ⟨b', hb', hlen⟩ := hs₁ a hp
          have ha : s₂.buffers[a]? = some b' := by
            rw [hframe a (List.getElem?_eq_some_iff.mp hb').1, hb']
          rw [hp, getBuffer_ok ha] at hb
          cases hb
          omega

end Visit

/-! ## When the bitmap has the truth of the tree -/

/-- What a comparison says of a row. -/
def rowAtom (table : Table) (r : Nat) (lhs : ColumnRef) (l : LiteralExpr) (op : CompareOp) : Bool :=
  match table.getColumnByName lhs.name with
  | some c => (c.data.elems[r]?).any fun x => op.compare c.type x l
  | none => false

/-- The element of the value buffer that row `r` is decided by, in a chunk of `n` rows that starts
at row 0: the offset of the chunk is not looked at, and the pointer to the tail may wrap. -/
def readIndex (size n r : Nat) : Nat :=
  if r < n - n % 8 then r else elemIndex size (n - n % 8) + (r - (n - n % 8))

/-- What the kernel says of a row of a column in one chunk. -/
def readAtom (table : Table) (r : Nat) (lhs : ColumnRef) (l : LiteralExpr) (op : CompareOp) :
    Bool :=
  match table.getColumnByName lhs.name with
  | some c =>
      match c.data.chunks with
      | [chunk] =>
          (chunk.values[readIndex c.type.byteWidth chunk.length r]?).all
            fun x => op.compare c.type x l
      | _ => false
  | none => false

theorem rowTest_zero {α : Type} (predicate : α → Bool) (values : List α) (size n r : Nat) :
    rowTest predicate values size 0 n r = test predicate values (readIndex size n r) := by
  rw [rowTest, if_neg (by simp [headRows]), readIndex, Nat.zero_add]
  split
  · rfl
  · rw [tailBase, Nat.zero_add]

/-- A leaf whose column exists and whose literal fits the column. -/
def LeafFits (table : Table) (lhs : ColumnRef) (l : LiteralExpr) (_ : CompareOp) : Prop :=
  ∃ c, table.getColumnByName lhs.name = some c ∧ l.Fits c.type

/-- A table of integer columns of one chunk each. -/
structure SingleChunk (table : Table) : Prop where
  valid : table.Valid
  single : ∀ c ∈ table.columns, ∃ chunk, c.data.chunks = [chunk]
  integral : ∀ c ∈ table.columns, c.type.isIntegral = true

theorem coversHead_singleton (n : Nat) : CoversHead [n] := by
  intro i len hi
  cases i with
  | zero =>
      rw [start_zero]
      exact Nat.zero_le len
  | succ i => cases hi

/-- On columns of one chunk a comparison computes what the kernel reads. -/
theorem compareComputes_single {table : Table} (h : SingleChunk table) {lhs : ColumnRef}
    {l : LiteralExpr} {op : CompareOp} (hleaf : LeafFits table lhs l op) :
    CompareComputes table (readAtom table) table.numRows (bytesForBits table.numRows) lhs l op := by
  obtain ⟨c, hcol, hfits⟩ := hleaf
  have hmem := (Table.getColumnByName_mem hcol).1
  have hrows : table.numRows = c.data.length := (h.valid c hmem).symm
  obtain ⟨chunk, hchunk⟩ := h.single c hmem
  have hlens : c.data.lens = [chunk.length] := by simp [ChunkedArray.lens, hchunk]
  have hlen : c.data.length = chunk.length := by simp [ChunkedArray.length, hlens]
  obtain ⟨buffer, hbuffer, hsize, hbits⟩ := compareBuffer_ok op hcol hfits hrows
    (by rw [hlens]; exact coversHead_singleton _)
  refine ⟨buffer, hbuffer, hsize, fun r hr => ?_⟩
  have hbit := hbits 0 chunk r (by simp [hchunk]) (by omega)
  rw [start_zero, Nat.zero_add, rowTest_zero] at hbit
  rw [hbit, readAtom, hcol]
  simp only [hchunk, test]

/-- The context after a filter has a bitmap with a bit for each row, which has the truth of the
tree on every row. -/
def BitmapMeans (ctx : ExecutionContext) (expr : BooleanExpr) : Prop :=
  ∃ res buffer, generateFilterBitmap ctx expr = .ok res ∧ res.filterBitmap = some buffer ∧
    buffer.length = bytesForBits ctx.table.numRows ∧
    ∀ r < ctx.table.numRows, buffer.bit r = expr.truth (rowAtom ctx.table r)

theorem exists_leaf {p : ColumnRef → LiteralExpr → CompareOp → Prop} : ∀ {e : BooleanExpr},
    e.AllCompare p → e.startsWithConst = false → ∃ lhs l op, p lhs l op
  | .booleanConst _, _, h => by cases h
  | .predicateExpr _ _ _, hp, h => exists_leaf hp.1 h
  | .compareExpr lhs l op, hp, _ => ⟨lhs, l, op, hp⟩

theorem createEmptyChunkMetadata_integral {type : DataType} (h : type.isIntegral = true) :
    ∃ m, createEmptyChunkMetadata type = .ok m := by
  cases type with
  | integral s w => cases s <;> cases w <;> exact ⟨_, rfl⟩
  | _ => cases h

/-- On a table that has a chunk to look at, the bitmap is what the executor leaves. -/
theorem generateFilterBitmap_eq {ctx : ExecutionContext} {expr : BooleanExpr} {c : Column}
    {cs : List Column} (hcols : ctx.table.columns = c :: cs) (hchunks : c.data.numChunks ≠ 0)
    (hmeta : ∀ c ∈ ctx.table.columns, ∃ m, createEmptyChunkMetadata c.type = .ok m)
    {s : FilterExprExecutor} (hvisit : FilterExprExecutor.visit ctx.table expr ⟨[], none⟩ = .ok s) :
    ∃ res, generateFilterBitmap ctx expr = .ok res ∧ res.table = ctx.table ∧
      res.filterBitmap = s.result := by
  obtain ⟨res, hres, htable, -⟩ := ExecutionContext.create_ok ctx.table hmeta
  refine ⟨{ res with metadata := { res.metadata with filterBitmap := s.result } }, ?_, htable, rfl⟩
  simp only [generateFilterBitmap, hcols, if_neg hchunks, hvisit, bind_ok, hres]

theorem hasFirstColumn {table : Table} {e : BooleanExpr} (h : SingleChunk table)
    (hleaves : e.AllCompare (LeafFits table)) (hconst : e.startsWithConst = false) :
    ∃ c cs, table.columns = c :: cs ∧ c.data.numChunks ≠ 0 := by
  obtain ⟨lhs, l, op, c, hc, -⟩ := exists_leaf hleaves hconst
  obtain ⟨c', cs, hcols, hmem⟩ := Table.exists_first hc
  obtain ⟨chunk, hchunk⟩ := h.single c' hmem
  exact ⟨c', cs, hcols, by simp [ChunkedArray.numChunks, hchunk]⟩

/-- **The bitmap of a filter** has the truth of the tree as read, on the elements as read. -/
theorem generateFilterBitmap_asRead (ctx : ExecutionContext) {e e' : BooleanExpr}
    (h : SingleChunk ctx.table) (hleaves : e.AllCompare (LeafFits ctx.table))
    (hread : e.asRead none = some e')
    (hpred : e.IsPredicate → bytesForBits ctx.table.numRows < 2 ^ 31) :
    ∃ res b, generateFilterBitmap ctx e = .ok res ∧ res.filterBitmap = some b ∧
      b.length = bytesForBits ctx.table.numRows ∧
      ∀ r < ctx.table.numRows, b.bit r = e'.truth (readAtom ctx.table r) := by
  have hcomp : e.AllCompare (CompareComputes ctx.table (readAtom ctx.table) ctx.table.numRows
      (bytesForBits ctx.table.numRows)) :=
    hleaves.imp fun _ _ _ hleaf => compareComputes_single h hleaf
  have hconst : e.startsWithConst = false := by
    cases hconst : e.startsWithConst with
    | false => rfl
    | true =>
        rw [BooleanExpr.asRead_none_of_startsWithConst hconst] at hread
        cases hread
  obtain ⟨c, cs, hcols, hchunks⟩ := hasFirstColumn h hleaves hconst
  obtain ⟨s, a, hs, hvisited⟩ := visit_ok (s := ⟨[], none⟩)
    (bytesForBits_le.mp (Nat.le_refl _)) hcomp hpred (fun _ ht => by cases ht) hread
  obtain ⟨b, hb, hlen, hbits⟩ := hvisited.result
  obtain ⟨res, hres, -, hbuffer⟩ := generateFilterBitmap_eq hcols hchunks
    (fun c hc => createEmptyChunkMetadata_integral (h.integral c hc)) hs
  exact ⟨res, b, hres, by rw [hbuffer, hb], hlen, hbits⟩

/-- A filter leaves no bitmap unless the leftmost leaf is a comparison and, if two buffers are
combined, an `int` can count their bytes. -/
theorem generateFilterBitmap_some {ctx res : ExecutionContext} {e : BooleanExpr} {b : Bitmap}
    (h : SingleChunk ctx.table) (hleaves : e.AllCompare (LeafFits ctx.table))
    (hgen : generateFilterBitmap ctx e = .ok res) (hb : res.filterBitmap = some b) :
    e.startsWithConst = false ∧
      (e.IsPredicate → bytesForBits ctx.table.numRows < 2 ^ 31) := by
  have hcomp : e.AllCompare (CompareComputes ctx.table (readAtom ctx.table) ctx.table.numRows
      (bytesForBits ctx.table.numRows)) :=
    hleaves.imp fun _ _ _ hleaf => compareComputes_single h hleaf
  cases hcols : ctx.table.columns with
  | nil =>
      -- a context without columns has no bitmap
      obtain ⟨res', hres', -, hnone⟩ := ExecutionContext.create_ok ctx.table
        fun c hc => createEmptyChunkMetadata_integral (h.integral c hc)
      simp only [generateFilterBitmap, hcols, hres'] at hgen
      cases hgen
      rw [hnone] at hb
      cases hb
  | cons c cs =>
      have hchunks : c.data.numChunks ≠ 0 := by
        obtain ⟨chunk, hchunk⟩ := h.single c (by rw [hcols]; exact List.mem_cons_self)
        simp [ChunkedArray.numChunks, hchunk]
      simp only [generateFilterBitmap, hcols, if_neg hchunks] at hgen
      obtain ⟨s, hs, hgen⟩ := bind_eq_ok.mp hgen
      obtain ⟨res', -, hgen⟩ := bind_eq_ok.mp hgen
      have hresult : s.result = some b := by
        cases hgen
        exact hb
      refine ⟨?_, fun hp => visit_predicate_bytes hcomp hp (fun _ ha => by cases ha) hs⟩
      cases hconst : e.startsWithConst with
      | false => rfl
      | true =>
          -- nothing has set `m_buffer` when the constant is visited
          rw [FilterExprExecutor.result, visit_startsWithConst hconst rfl hs] at hresult
          cases hresult

/-- **When the bitmap of a filter has the truth of its tree**: the leftmost leaf is a comparison,
an `int` can count the bytes if two buffers are combined at all, and on every row the tree as it
is read, on the elements as they are read, says what the tree says. -/
theorem bitmap_means_iff {ctx : ExecutionContext} {e : BooleanExpr}
    (h : SingleChunk ctx.table) (hleaves : e.AllCompare (LeafFits ctx.table)) :
    BitmapMeans ctx e ↔ ∃ e', e.asRead none = some e' ∧
      (e.IsPredicate → bytesForBits ctx.table.numRows < 2 ^ 31) ∧
      ∀ r < ctx.table.numRows, e'.truth (readAtom ctx.table r) = e.truth (rowAtom ctx.table r) := by
  constructor
  · rintro ⟨res, b, hgen, hb, -, hbits⟩
    obtain ⟨hconst, hpred⟩ := generateFilterBitmap_some h hleaves hgen hb
    obtain ⟨e', hread⟩ := BooleanExpr.exists_asRead none (Or.inl hconst)
    obtain ⟨res', b', hgen', hb', -, hbits'⟩ :=
      generateFilterBitmap_asRead ctx h hleaves hread hpred
    obtain rfl : res = res' := Except.ok.inj (hgen.symm.trans hgen')
    obtain rfl : b = b' := Option.some.inj (hb.symm.trans hb')
    exact ⟨e', hread, hpred, fun r hr => by rw [← hbits' r hr, hbits r hr]⟩
  · rintro ⟨e', hread, hpred, htruth⟩
    obtain ⟨res, b, hgen, hb, hlen, hbits⟩ := generateFilterBitmap_asRead ctx h hleaves hread hpred
    exact ⟨res, b, hgen, hb, hlen, fun r hr => by rw [hbits r hr, htruth r hr]⟩

/-- One row with a zero in it. -/
def oneZero : Table := ⟨[⟨"a", .int32, ⟨[.ofList [0#32] (by decide)], by decide⟩⟩]⟩

theorem singleChunk_oneZero : SingleChunk oneZero := by
  refine ⟨by decide, fun c hc => ?_, by decide⟩
  obtain rfl := List.mem_singleton.mp hc
  exact ⟨_, rfl⟩

/-- `a > 0 OR true` is true of every row, but the constant is read as the comparison next to it. -/
theorem bitmap_means_not_const :
    ¬ BitmapMeans ⟨oneZero, ⟨[], none⟩⟩ (((col "a").gt (lit 0)).or (.booleanConst true)) := by
  rintro ⟨res, b, hgen, hb, -, hbits⟩
  obtain ⟨res', b', hgen', hb', -, hbits'⟩ := generateFilterBitmap_asRead
    ⟨oneZero, ⟨[], none⟩⟩ (e := ((col "a").gt (lit 0)).or (.booleanConst true))
    singleChunk_oneZero ⟨⟨_, rfl, by decide⟩, trivial⟩ rfl (fun _ => by decide)
  obtain rfl : res = res' := Except.ok.inj (hgen.symm.trans hgen')
  obtain rfl : b = b' := Option.some.inj (hb.symm.trans hb')
  have htrue : b.bit 0 = true := hbits 0 (by decide)
  have hfalse : b.bit 0 = false := hbits' 0 (by decide)
  rw [htrue] at hfalse
  cases hfalse

theorem bitmap_means_iff_oneZero :
    BitmapMeans ⟨oneZero, ⟨[], none⟩⟩ (((col "a").gt (lit 0)).or (.booleanConst true)) ↔
      ∃ e', (((col "a").gt (lit 0)).or (.booleanConst true)).asRead none = some e' ∧
        ((((col "a").gt (lit 0)).or (.booleanConst true)).IsPredicate →
          bytesForBits oneZero.numRows < 2 ^ 31) ∧
        ∀ r < oneZero.numRows, e'.truth (readAtom oneZero r) =
          (((col "a").gt (lit 0)).or (.booleanConst true)).truth (rowAtom oneZero r) :=
  bitmap_means_iff singleChunk_oneZero ⟨⟨_, rfl, by decide⟩, trivial⟩

end Pefa
