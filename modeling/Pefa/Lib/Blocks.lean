import Mathlib

/-!
# A range cut into consecutive blocks

A list of lengths cuts the range `0, …, n - 1` of its sum into consecutive blocks, some of them
possibly empty. `start lens i` is where block `i` starts. Every place of the range lies in exactly
one block (`exists_block`, `block_unique`), and a list put together from pieces has its elements
where the blocks of the pieces' lengths say (`getElem?_flatMap`).
-/

namespace Blocks

variable {α β : Type}

/-- The place at which block `i` starts. -/
def start (lens : List Nat) (i : Nat) : Nat := (lens.take i).sum

@[simp] theorem start_zero (lens : List Nat) : start lens 0 = 0 := by simp [start]

@[simp] theorem start_cons_succ (len : Nat) (lens : List Nat) (i : Nat) :
    start (len :: lens) (i + 1) = len + start lens i := by simp [start]

theorem start_succ {lens : List Nat} {i len : Nat} (h : lens[i]? = some len) :
    start lens (i + 1) = start lens i + len := by
  simp [start, List.take_add_one, h]

theorem start_le_sum (lens : List Nat) (i : Nat) : start lens i ≤ lens.sum := by
  have h : (lens.take i).sum + (lens.drop i).sum = lens.sum := by
    rw [← List.sum_append, List.take_append_drop]
  unfold start
  omega

/-- A block ends where the range ends, or before. -/
theorem start_add_le_sum {lens : List Nat} {i len : Nat} (h : lens[i]? = some len) :
    start lens i + len ≤ lens.sum := by
  rw [← start_succ h]
  exact start_le_sum lens (i + 1)

/-- Behind the last block there is nothing. -/
theorem start_of_length_le {lens : List Nat} {i : Nat} (h : lens.length ≤ i) :
    start lens i = lens.sum := by
  rw [start, List.take_of_length_le h]

theorem start_mono (lens : List Nat) {i j : Nat} (h : i ≤ j) : start lens i ≤ start lens j := by
  have hij : lens.take i = (lens.take j).take i := by rw [List.take_take, Nat.min_eq_left h]
  have hs := start_le_sum (lens.take j) i
  unfold start at hs ⊢
  rw [hij]
  exact hs

/-- A later block starts where an earlier one ends, or after. -/
theorem start_add_le_start {lens : List Nat} {i j len : Nat} (h : lens[i]? = some len)
    (hij : i < j) : start lens i + len ≤ start lens j := by
  rw [← start_succ h]
  exact start_mono lens hij

/-- Blocks of one length, but for the last. -/
theorem start_of_dropLast {lens : List Nat} {c : Nat} (h : ∀ len ∈ lens.dropLast, len = c) :
    ∀ {i : Nat}, i < lens.length → start lens i = c * i := by
  intro i
  induction i with
  | zero => simp
  | succ i ih =>
      intro hi
      have hget : lens.dropLast[i]? = lens[i]? := by
        rw [List.getElem?_dropLast, if_pos (by omega)]
      have hlen : lens[i]? = some lens[i] := List.getElem?_eq_getElem (by omega)
      have hc := h lens[i] (List.mem_of_getElem? (hget.trans hlen))
      rw [start_succ hlen, ih (by omega), hc, Nat.mul_succ]

/-- No block starts inside another one. -/
theorem start_not_inside {lens : List Nat} {i len : Nat} (h : lens[i]? = some len) (k : Nat) :
    start lens k ≤ start lens i ∨ start lens i + len ≤ start lens k := by
  rcases Nat.lt_or_ge i k with hik | hki
  · exact Or.inr (start_add_le_start h hik)
  · exact Or.inl (start_mono lens hki)

/-- Every place lies in a block. -/
theorem exists_block {lens : List Nat} {r : Nat} (hr : r < lens.sum) :
    ∃ i len, lens[i]? = some len ∧ start lens i ≤ r ∧ r < start lens i + len := by
  induction lens generalizing r with
  | nil => simp at hr
  | cons len lens ih =>
      by_cases hlt : r < len
      · exact ⟨0, len, rfl, by simp, by simpa using hlt⟩
      · rw [List.sum_cons] at hr
        obtain ⟨i, l, hl, hlo, hhi⟩ := ih (r := r - len) (by omega)
        exact ⟨i + 1, l, by simpa using hl, by rw [start_cons_succ]; omega,
          by rw [start_cons_succ]; omega⟩

/-- No place lies in two blocks. -/
theorem block_unique {lens : List Nat} {r i j len len' : Nat}
    (hi : lens[i]? = some len) (hlo : start lens i ≤ r) (hhi : r < start lens i + len)
    (hj : lens[j]? = some len') (hlo' : start lens j ≤ r) (hhi' : r < start lens j + len') :
    i = j := by
  by_contra hne
  rcases Nat.lt_or_gt_of_ne hne with h | h
  · have := start_add_le_start hi h
    omega
  · have := start_add_le_start hj h
    omega

/-- An element of a list put together from pieces, by piece and place in the piece. -/
theorem getElem?_flatMap (f : α → List β) {l : List α} {i j : Nat} {a : α} (ha : l[i]? = some a)
    (hj : j < (f a).length) :
    (l.flatMap f)[start (l.map fun x => (f x).length) i + j]? = (f a)[j]? := by
  induction l generalizing i with
  | nil => simp at ha
  | cons x l ih =>
      rw [List.flatMap_cons, List.map_cons]
      cases i with
      | zero =>
          obtain rfl : x = a := by simpa using ha
          rw [start_zero, Nat.zero_add, List.getElem?_append_left hj]
      | succ i =>
          have hx : (f x).length ≤
              start ((f x).length :: l.map fun x => (f x).length) (i + 1) + j := by
            rw [start_cons_succ]
            omega
          rw [List.getElem?_append_right hx, start_cons_succ]
          rw [show (f x).length + start (l.map fun x => (f x).length) i + j - (f x).length =
            start (l.map fun x => (f x).length) i + j by omega]
          exact ih (by simpa using ha)

end Blocks
