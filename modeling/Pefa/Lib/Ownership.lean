import Mathlib

/-!
# Owners

Owners `ι` each hold at most one resource `κ`: `o i = some k` if the owner `i` holds `k`. What is
held by someone is `held o`; nothing is held twice if `Sole o`.

An owner without a resource acquires one that nobody holds, and releases it again. An owner that
acquires a second one loses the first: nobody holds it any more (`not_mem_held_of_reacquired`).
-/

namespace Ownership

open Function

variable {ι κ : Type}

/-- What is held by an owner. -/
def held (o : ι → Option κ) : Set κ := {k | ∃ i, o i = some k}

/-- No two owners hold the same. -/
def Sole (o : ι → Option κ) : Prop := ∀ i j k, o i = some k → o j = some k → i = j

/-- If no one holds anything, nothing is held. -/
theorem held_eq_empty {o : ι → Option κ} (h : ∀ i, o i = none) : held o = ∅ := by
  rw [Set.eq_empty_iff_forall_notMem]
  rintro k ⟨i, hi⟩
  rw [h i] at hi
  cases hi

variable [DecidableEq ι] {o : ι → Option κ} {i : ι} {k k' : κ}

/-- After one owner changed, everything is held by it or was held by another one before. -/
theorem update_eq_some_iff {x : Option κ} {j : ι} :
    update o i x j = some k ↔ (j = i ∧ x = some k) ∨ (j ≠ i ∧ o j = some k) := by
  by_cases hj : j = i
  · rw [hj, update_self]
    exact ⟨fun h => Or.inl ⟨rfl, h⟩, fun h => h.elim And.right fun h => absurd rfl h.1⟩
  · rw [update_of_ne hj]
    exact ⟨fun h => Or.inr ⟨hj, h⟩, fun h => h.elim (fun h => absurd h.1 hj) And.right⟩

/-! ## Acquiring -/

/-- An owner that held nothing acquires a resource. -/
theorem held_acquired (h : o i = none) : held (update o i (some k)) = insert k (held o) := by
  ext k'
  constructor
  · rintro ⟨j, hj⟩
    rcases update_eq_some_iff.mp hj with ⟨-, hk⟩ | ⟨-, hj⟩
    · exact Or.inl (Option.some.inj hk).symm
    · exact Or.inr ⟨j, hj⟩
  · rintro (rfl | ⟨j, hj⟩)
    · exact ⟨i, update_self _ _ _⟩
    · refine ⟨j, update_eq_some_iff.mpr (Or.inr ⟨?_, hj⟩)⟩
      rintro rfl
      rw [h] at hj
      cases hj

/-- What nobody held has one owner after it is acquired. -/
theorem sole_acquired (hsole : Sole o) (hk : k ∉ held o) : Sole (update o i (some k)) := by
  intro j j' k₀ hj hj'
  rcases update_eq_some_iff.mp hj with ⟨rfl, hk₀⟩ | ⟨-, hj⟩
  · cases hk₀
    rcases update_eq_some_iff.mp hj' with ⟨rfl, -⟩ | ⟨-, hj'⟩
    · rfl
    · exact absurd ⟨j', hj'⟩ hk
  · rcases update_eq_some_iff.mp hj' with ⟨-, hk₀⟩ | ⟨-, hj'⟩
    · cases hk₀
      exact absurd ⟨j, hj⟩ hk
    · exact hsole j j' k₀ hj hj'

/-- What an owner held before it acquired something else is held by nobody. -/
theorem not_mem_held_of_reacquired (hsole : Sole o) (h : o i = some k) (hne : k' ≠ k) :
    k ∉ held (update o i (some k')) := by
  rintro ⟨j, hj⟩
  rcases update_eq_some_iff.mp hj with ⟨-, hk⟩ | ⟨hji, hj⟩
  · exact hne (Option.some.inj hk)
  · exact hji (hsole j i k hj h)

/-! ## Releasing -/

/-- What an owner releases is held by nobody. -/
theorem held_released (hsole : Sole o) (h : o i = some k) :
    held (update o i none) = held o \ {k} := by
  ext k'
  constructor
  · rintro ⟨j, hj⟩
    rcases update_eq_some_iff.mp hj with ⟨-, hk'⟩ | ⟨hji, hj⟩
    · cases hk'
    · refine ⟨⟨j, hj⟩, ?_⟩
      rintro rfl
      exact hji (hsole j i _ hj h)
  · rintro ⟨⟨j, hj⟩, hne⟩
    refine ⟨j, update_eq_some_iff.mpr (Or.inr ⟨?_, hj⟩)⟩
    rintro rfl
    rw [h] at hj
    exact hne (Option.some.inj hj).symm

theorem sole_released (hsole : Sole o) : Sole (update o i none) := by
  intro j j' k hj hj'
  rcases update_eq_some_iff.mp hj with ⟨-, hk⟩ | ⟨-, hj⟩
  · cases hk
  · rcases update_eq_some_iff.mp hj' with ⟨-, hk⟩ | ⟨-, hj'⟩
    · cases hk
    · exact hsole j j' k hj hj'

end Ownership
