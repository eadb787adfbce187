import Mathlib

/-!
# Keeping the marked elements, in chunks of one size

A list of elements, each with a mark. `kept` is the list of the marked ones; `rechunk c` is the
same list cut into chunks of `c`, in the one way a program does it that fills a chunk, closes it
as soon as it is full and opens the next one only when there are elements left to look at (so the
last chunk may come out empty, when none of the elements left is marked).

`fill c` is one chunk of that: the next `c` marked elements, and what is left to look at. Filling
can be interrupted and taken up again (`fill_cons_true`, `fill_cons_false`), which is what makes
it a loop invariant.

The sizes of the chunks depend on the marks alone (`rechunk_shape`), so lists with the same marks
are cut at the same elements whatever they hold. What the sizes are is `lensOf`
(`map_length_rechunk`).
-/

namespace Rechunk

variable {α β : Type}

/-- The marked elements. -/
def kept (l : List (Bool × α)) : List α := (l.filter (·.1)).map (·.2)

@[simp] theorem kept_nil : kept ([] : List (Bool × α)) = [] := rfl

@[simp] theorem kept_cons (b : Bool) (x : α) (l : List (Bool × α)) :
    kept ((b, x) :: l) = if b then x :: kept l else kept l := by
  cases b <;> simp [kept]

theorem map_kept (f : α → β) (l : List (Bool × α)) :
    (kept l).map f = kept (l.map fun p => (p.1, f p.2)) := by
  induction l with
  | nil => rfl
  | cons p l ih =>
      obtain ⟨b, x⟩ := p
      cases b <;> simp [ih]

theorem kept_length_le (l : List (Bool × α)) : (kept l).length ≤ l.length := by
  rw [kept, List.length_map]
  exact List.length_filter_le _ l

/-- The marked elements at the indices where the mark is set, in order. -/
theorem kept_zip_map (mark : Nat → Bool) (f : Nat → α) (l : List Nat) :
    kept (l.map fun i => (mark i, f i)) = (l.filter mark).map f := by
  induction l with
  | nil => rfl
  | cons i l ih => cases h : mark i <;> simp [h, ih]

/-! ## Filling one chunk -/

/-- The next `c` marked elements, and the elements not looked at. -/
def fill : Nat → List (Bool × α) → List α × List (Bool × α)
  | 0, l => ([], l)
  | _ + 1, [] => ([], [])
  | c + 1, (true, x) :: l => (x :: (fill c l).1, (fill c l).2)
  | c + 1, (false, _) :: l => fill (c + 1) l

@[simp] theorem fill_zero (l : List (Bool × α)) : fill 0 l = ([], l) := by simp [fill]

@[simp] theorem fill_nil (c : Nat) : fill c ([] : List (Bool × α)) = ([], []) := by
  cases c <;> simp [fill]

@[simp] theorem fill_cons_true (c : Nat) (x : α) (l : List (Bool × α)) :
    fill (c + 1) ((true, x) :: l) = (x :: (fill c l).1, (fill c l).2) := by simp [fill]

@[simp] theorem fill_cons_false (c : Nat) (x : α) (l : List (Bool × α)) :
    fill (c + 1) ((false, x) :: l) = fill (c + 1) l := by simp [fill]

theorem fill_length_le (c : Nat) (l : List (Bool × α)) : (fill c l).1.length ≤ c := by
  induction c, l using fill.induct with
  | case1 l => simp
  | case2 c => simp
  | case3 c x l ih => simpa using ih
  | case4 c x l ih => simpa using ih

/-- Either the chunk is full or everything was looked at. -/
theorem fill_full_or_nil (c : Nat) (l : List (Bool × α)) :
    (fill c l).1.length = c ∨ (fill c l).2 = [] := by
  induction c, l using fill.induct with
  | case1 l => simp
  | case2 c => simp
  | case3 c x l ih => simpa using ih
  | case4 c x l ih => simpa using ih

theorem fill_rest_length_le (c : Nat) (l : List (Bool × α)) : (fill c l).2.length ≤ l.length := by
  induction c, l using fill.induct with
  | case1 l => simp
  | case2 c => simp
  | case3 c x l ih => simp; omega
  | case4 c x l ih => simp; omega

/-- Filling a chunk that has room looks at an element, when there is one. -/
theorem fill_rest_length_lt {c : Nat} (hc : 0 < c) {l : List (Bool × α)} (hl : l ≠ []) :
    (fill c l).2.length < l.length := by
  obtain ⟨c, rfl⟩ : ∃ c', c = c' + 1 := ⟨c - 1, by omega⟩
  cases l with
  | nil => exact absurd rfl hl
  | cons p l =>
      obtain ⟨b, x⟩ := p
      cases b with
      | true =>
          have := fill_rest_length_le c l
          simp
          omega
      | false =>
          have := fill_rest_length_le (c + 1) l
          simp
          omega

/-- Nothing is lost: the chunk and the marked elements left are the marked elements. -/
theorem kept_fill (c : Nat) (l : List (Bool × α)) :
    (fill c l).1 ++ kept (fill c l).2 = kept l := by
  induction c, l using fill.induct with
  | case1 l => simp
  | case2 c => simp
  | case3 c x l ih => simpa using ih
  | case4 c x l ih => simpa using ih

/-- The number of elements taken and the marks left depend on the marks alone. -/
theorem fill_shape (c : Nat) (l : List (Bool × α)) (l' : List (Bool × β))
    (h : l.map (·.1) = l'.map (·.1)) :
    (fill c l).1.length = (fill c l').1.length ∧
      (fill c l).2.map (·.1) = (fill c l').2.map (·.1) := by
  induction c, l using fill.induct generalizing l' with
  | case1 l => simpa using h
  | case2 c =>
      obtain rfl : l' = [] := by simpa using h.symm
      simp
  | case3 c x l ih =>
      obtain _ | ⟨⟨b, y⟩, l'⟩ := l'
      · simp at h
      · obtain ⟨rfl, h₁⟩ : true = b ∧ l.map (·.1) = l'.map (·.1) := by simpa using h
        simpa using ih l' h₁
  | case4 c x l ih =>
      obtain _ | ⟨⟨b, y⟩, l'⟩ := l'
      · simp at h
      · obtain ⟨rfl, h₁⟩ : false = b ∧ l.map (·.1) = l'.map (·.1) := by simpa using h
        simpa using ih l' h₁

/-! ## All chunks -/

/-- The marked elements in chunks of `c`: a chunk is closed when it is full or nothing is left. -/
def rechunk (c : Nat) (l : List (Bool × α)) : List (List α) :=
  (fill c l).1 :: if (fill c l).2.length < l.length ∧ (fill c l).2 ≠ [] then
    rechunk c (fill c l).2 else []
termination_by l.length

theorem rechunk_eq {c : Nat} (hc : 0 < c) (l : List (Bool × α)) :
    rechunk c l = (fill c l).1 :: if (fill c l).2 = [] then [] else rechunk c (fill c l).2 := by
  rw [rechunk]
  by_cases hr : (fill c l).2 = []
  · simp [hr]
  · have hl : l ≠ [] := by
      rintro rfl
      simp at hr
    simp [hr, fill_rest_length_lt hc hl]

theorem rechunk_ne_nil (c : Nat) (l : List (Bool × α)) : rechunk c l ≠ [] := by
  rw [rechunk]
  simp

/-- **No loss, no duplication**: the chunks, one after another, are the marked elements. -/
theorem flatten_rechunk {c : Nat} (hc : 0 < c) (l : List (Bool × α)) :
    (rechunk c l).flatten = kept l := by
  induction hn : l.length using Nat.strongRecOn generalizing l with
  | _ n ih =>
      rw [rechunk_eq hc, List.flatten_cons]
      by_cases hr : (fill c l).2 = []
      · have hk := kept_fill c l
        rw [hr] at hk
        simpa [hr] using hk
      · have hl : l ≠ [] := by
          rintro rfl
          simp at hr
        have hlt := fill_rest_length_lt hc hl
        rw [if_neg hr, ih _ (by omega) _ rfl]
        exact kept_fill c l

/-- Every chunk but the last is full, and the last is not over-full. -/
theorem rechunk_lengths {c : Nat} (hc : 0 < c) (l : List (Bool × α)) :
    (∀ a ∈ (rechunk c l).dropLast, a.length = c) ∧ ∀ a ∈ rechunk c l, a.length ≤ c := by
  induction hn : l.length using Nat.strongRecOn generalizing l with
  | _ n ih =>
      rw [rechunk_eq hc]
      by_cases hr : (fill c l).2 = []
      · simpa [hr] using fill_length_le c l
      · have hl : l ≠ [] := by
          rintro rfl
          simp at hr
        have hlt := fill_rest_length_lt hc hl
        obtain ⟨ihd, ihle⟩ := ih _ (by omega) (fill c l).2 rfl
        have hfull : (fill c l).1.length = c := (fill_full_or_nil c l).resolve_right hr
        rw [if_neg hr, List.dropLast_cons_of_ne_nil (rechunk_ne_nil c _)]
        constructor
        · intro a ha
          rcases List.mem_cons.mp ha with rfl | ha
          · exact hfull
          · exact ihd a ha
        · intro a ha
          rcases List.mem_cons.mp ha with rfl | ha
          · exact hfull.le
          · exact ihle a ha

/-- **The chunk boundaries depend on the marks alone.** -/
theorem rechunk_shape {c : Nat} (hc : 0 < c) (l : List (Bool × α)) (l' : List (Bool × β))
    (h : l.map (·.1) = l'.map (·.1)) :
    (rechunk c l).map List.length = (rechunk c l').map List.length := by
  induction hn : l.length using Nat.strongRecOn generalizing l l' with
  | _ n ih =>
      obtain ⟨h1, h2⟩ := fill_shape c l l' h
      rw [rechunk_eq hc l, rechunk_eq hc l']
      by_cases hr : (fill c l).2 = []
      · have hr' : (fill c l').2 = [] := by simpa [hr] using h2.symm
        simp [hr, hr', h1]
      · have hr' : (fill c l').2 ≠ [] := by
          intro h0
          rw [h0] at h2
          exact hr (by simpa using h2)
        have hl : l ≠ [] := by
          rintro rfl
          simp at hr
        have hlt := fill_rest_length_lt hc hl
        rw [if_neg hr, if_neg hr', List.map_cons, List.map_cons, h1,
          ih _ (by omega) _ _ h2 rfl]

/-! ## The sizes of the chunks -/

/-- The sizes of the chunks, from the marks: full chunks and a last one with what is left over,
which is missing if nothing is and the last element is marked. -/
def lensOf (c : Nat) (marks : List Bool) : List Nat :=
  List.replicate (marks.count true / c) c ++
    if marks.count true % c = 0 ∧ marks.getLast? = some true then [] else [marks.count true % c]

theorem length_kept (l : List (Bool × α)) : (kept l).length = (l.map (·.1)).count true := by
  induction l with
  | nil => rfl
  | cons p l ih =>
      obtain ⟨b, x⟩ := p
      cases b <;> simp [ih]

/-- What is left to look at is an end of the list. -/
theorem fill_rest_suffix (c : Nat) (l : List (Bool × α)) : (fill c l).2 <:+ l := by
  induction c, l using fill.induct with
  | case1 l => simp
  | case2 c => simp
  | case3 c x l ih =>
      rw [fill_cons_true]
      exact ih.trans (List.suffix_cons _ l)
  | case4 c x l ih =>
      rw [fill_cons_false]
      exact ih.trans (List.suffix_cons _ l)

/-- A chunk that is full when the last element was looked at ends with that element. -/
theorem getLast?_of_fill_full {c : Nat} {l : List (Bool × α)} (hc : 0 < c)
    (hfull : (fill c l).1.length = c) (hrest : (fill c l).2 = []) :
    (l.map (·.1)).getLast? = some true := by
  induction c, l using fill.induct with
  | case1 l => exact absurd hc (Nat.lt_irrefl 0)
  | case2 c => simp at hfull
  | case3 c x l ih =>
      rw [fill_cons_true] at hfull hrest
      rw [List.map_cons, List.getLast?_cons]
      rcases Nat.eq_zero_or_pos c with rfl | hpos
      · rw [fill_zero] at hrest
        simp only at hrest
        subst hrest
        rfl
      · rw [ih hpos (by simpa using hfull) hrest]
        rfl
  | case4 c x l ih =>
      rw [fill_cons_false] at hfull hrest
      rw [List.map_cons, List.getLast?_cons, ih hc hfull hrest]
      rfl

/-- **The sizes of the chunks.** -/
theorem map_length_rechunk {c : Nat} (hc : 0 < c) (l : List (Bool × α)) :
    (rechunk c l).map List.length = lensOf c (l.map (·.1)) := by
  induction hn : l.length using Nat.strongRecOn generalizing l with
  | _ n ih =>
      have hkept := congrArg List.length (kept_fill c l)
      rw [List.length_append, length_kept, length_kept l] at hkept
      rw [rechunk_eq hc, List.map_cons]
      by_cases hr : (fill c l).2 = []
      · -- one chunk, which may be full
        rw [hr, List.map_nil, List.count_nil, Nat.add_zero] at hkept
        rw [if_pos hr, List.map_nil, lensOf, ← hkept]
        rcases Nat.lt_or_eq_of_le (fill_length_le c l) with hlt | hfull
        · have hlast : ¬ ((fill c l).1.length % c = 0 ∧ (l.map (·.1)).getLast? = some true) := by
            rintro ⟨hzero, hlast⟩
            rw [Nat.mod_eq_of_lt hlt] at hzero
            have hmem : true ∈ l.map (·.1) := List.mem_of_getLast? hlast
            have hpos := List.count_pos_iff.mpr hmem
            omega
          rw [if_neg hlast, Nat.div_eq_of_lt hlt, Nat.mod_eq_of_lt hlt]
          rfl
        · rw [hfull, if_pos ⟨Nat.mod_self c, getLast?_of_fill_full hc hfull hr⟩, Nat.div_self hc]
          rfl
      · -- a full chunk, and then the chunks of what is left
        have hl : l ≠ [] := by
          rintro rfl
          simp at hr
        have hlt := fill_rest_length_lt hc hl
        have hfull : (fill c l).1.length = c := (fill_full_or_nil c l).resolve_right hr
        have hlast : ((fill c l).2.map (·.1)).getLast? = (l.map (·.1)).getLast? := by
          obtain ⟨front, hfront⟩ := fill_rest_suffix c l
          rw [← hfront, List.map_append, List.getLast?_append_of_ne_nil _ (by simpa using hr),
            hfront]
        rw [if_neg hr, ih _ (by omega) _ rfl, lensOf, lensOf, hlast, ← hkept, hfull,
          Nat.add_mod_left, Nat.add_div_left _ hc, List.replicate_succ]
        rfl

end Rechunk
