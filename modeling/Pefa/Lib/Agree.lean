import Mathlib

/-!
# Computations that agree

Two computations agree up to a relation of their results: both stop with the same error, or both
go through with related results. This is stronger than a simulation, which says nothing of the
runs that fail.

Agreement goes along with the ways in which computations are put together, so two programs of one
shape agree if their parts do.
-/

/-- Both fail with one error, or both succeed with related results. -/
inductive Agree {ε α β : Type} (R : α → β → Prop) : Except ε α → Except ε β → Prop where
  | ok {a : α} {b : β} (h : R a b) : Agree R (.ok a) (.ok b)
  | error (e : ε) : Agree R (.error e) (.error e)

namespace Agree

variable {ε α β α' β' γ : Type} {R : α → β → Prop} {S : α' → β' → Prop} {x : Except ε α}
  {y : Except ε β}

theorem ok_left {a : α} {y : Except ε β} (h : Agree R (.ok a) y) : ∃ b, y = .ok b ∧ R a b := by
  cases h with
  | ok hab => exact ⟨_, rfl, hab⟩

theorem error_left {e : ε} {y : Except ε β} (h : Agree R (.error e) y) : y = .error e := by
  cases h with
  | error => rfl

theorem ok_right {x : Except ε α} {b : β} (h : Agree R x (.ok b)) : ∃ a, x = .ok a ∧ R a b := by
  cases h with
  | ok hab => exact ⟨_, rfl, hab⟩

theorem imp {R' : α → β → Prop} (h : Agree R x y) (himp : ∀ a b, R a b → R' a b) :
    Agree R' x y := by
  cases h with
  | ok hab => exact .ok (himp _ _ hab)
  | error e => exact .error e

/-- Computations in two steps agree if the first steps do, and then the second ones. -/
theorem bind {f : α → Except ε α'} {g : β → Except ε β'} (h : Agree R x y)
    (hfg : ∀ a b, R a b → Agree S (f a) (g b)) : Agree S (x >>= f) (y >>= g) := by
  cases h with
  | ok hab => exact hfg _ _ hab
  | error e => exact .error e

/-- One computation on every element of a list, another on every element of a related list. -/
theorem mapM {T : α' → β' → Prop} {f : α' → Except ε α} {g : β' → Except ε β}
    (hfg : ∀ a b, T a b → Agree R (f a) (g b)) {l : List α'} {l' : List β'}
    (h : List.Forall₂ T l l') : Agree (List.Forall₂ R) (l.mapM f) (l'.mapM g) := by
  induction h with
  | nil => exact .ok .nil
  | cons hab _ ih =>
      rw [List.mapM_cons, List.mapM_cons]
      refine bind (hfg _ _ hab) fun a b hr => bind ih fun as bs hrs => ?_
      exact .ok (.cons hr hrs)

/-- One list of steps, taken on two sides. -/
theorem foldlM {f : α → γ → Except ε α} {g : β → γ → Except ε β}
    (hfg : ∀ a b c, R a b → Agree R (f a c) (g b c)) (l : List γ) {a : α} {b : β} (h : R a b) :
    Agree R (l.foldlM f a) (l.foldlM g b) := by
  induction l generalizing a b with
  | nil => exact .ok h
  | cons c l ih =>
      rw [List.foldlM_cons, List.foldlM_cons]
      exact bind (hfg a b c h) fun a' b' h' => ih h'

/-- Agreement up to what a function sees of the one result is equality with what it sees. -/
theorem map_eq {g : β → α} (h : Agree (fun a b => g b = a) x y) : y.map g = x := by
  cases h with
  | ok hab => exact congrArg Except.ok hab
  | error e => rfl

end Agree
