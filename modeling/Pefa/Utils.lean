import Mathlib

/-!
# Errors and machine integers

The program reports failures by C++ exceptions, and has undefined behaviour where it leaves the
bounds of a buffer, follows a null pointer or overflows an `int`. The model has one error type for
both: a run that ends with an exception ends with that exception, and a run whose behaviour is
undefined ends with an error that says where it became so.

Machine integers are natural numbers. `int` variables only ever count up here, so all that can go
wrong with one is to leave the range at the top (`intAdd`). Sums of `size_t` are bounded by the
lengths they add up; differences wrap (`sizeSub`).
-/

namespace Pefa

inductive Error where
  /-- `NotImplementedException` with its message -/
  | notImplemented (msg : String)
  /-- `KernelNotCompiledException` -/
  | kernelNotCompiled
  /-- `UnreachableException` -/
  | unreachable
  /-- `std::bad_variant_access` -/
  | badVariantAccess
  /-- a failed `assert` -/
  | assertFailed
  /-- the verifier rejects the generated module -/
  | brokenModule
  /-- a null pointer is followed -/
  | nullDeref
  /-- a load or store outside the buffer -/
  | outOfBounds
  /-- a shift of a byte by eight or more -/
  | badShift
  /-- an `int` leaves its range -/
  | signedOverflow
  /-- a loop takes more steps than its counter has values -/
  | diverged
  deriving DecidableEq, Repr

/-- The error is a C++ exception, which the caller may catch. -/
def Error.isException : Error → Bool
  | .notImplemented _ => true
  | .kernelNotCompiled => true
  | .unreachable => true
  | .badVariantAccess => true
  | _ => false

/-- `a + b` in `int`, for `a` and `b` that are not negative. -/
def intAdd (a b : Nat) : Except Error Nat :=
  if a + b < 2 ^ 31 then .ok (a + b) else .error .signedOverflow

theorem intAdd_ok {a b : Nat} (h : a + b < 2 ^ 31) : intAdd a b = .ok (a + b) := if_pos h

theorem intAdd_eq_ok {a b c : Nat} (h : intAdd a b = .ok c) : c = a + b ∧ a + b < 2 ^ 31 := by
  unfold intAdd at h
  split at h
  · next hlt => exact ⟨by cases h; rfl, hlt⟩
  · cases h

/-- `a - b` in `size_t`, for `a` and `b` below `2 ^ 64`. -/
def sizeSub (a b : Nat) : Nat := (a + 2 ^ 64 - b) % 2 ^ 64

theorem sizeSub_of_le {a b : Nat} (hba : b ≤ a) (ha : a < 2 ^ 64) : sizeSub a b = a - b := by
  unfold sizeSub
  omega

/-- More iterations than an `int` counter that counts up can take. -/
def intFuel : Nat := 2 ^ 31

/-- Follow a pointer. -/
def deref {α : Type} : Option α → Except Error α
  | some a => .ok a
  | none => .error .nullDeref

/-! ## Runs that do not fail -/

theorem bind_ok {ε α β : Type} (a : α) (f : α → Except ε β) :
    (Except.ok a >>= f) = f a := rfl

theorem bind_error {ε α β : Type} (e : ε) (f : α → Except ε β) :
    ((Except.error e : Except ε α) >>= f) = .error e := rfl

/-- A computation in two steps succeeds when both do. -/
theorem bind_eq_ok {ε α β : Type} {x : Except ε α} {f : α → Except ε β} {b : β} :
    (x >>= f) = .ok b ↔ ∃ a, x = .ok a ∧ f a = .ok b := by
  cases x with
  | error e => simp [bind_error]
  | ok a => simp [bind_ok]

/-- A computation in two steps fails when the first fails, or the second on the first's result. -/
theorem bind_eq_error {ε α β : Type} {x : Except ε α} {f : α → Except ε β} {e : ε} :
    (x >>= f) = .error e ↔ x = .error e ∨ ∃ a, x = .ok a ∧ f a = .error e := by
  cases x with
  | error e => simp [bind_error]
  | ok a => simp [bind_ok]

/-- A computation made on every element of a list succeeds when it does on each element. -/
theorem mapM_ok {ε α β : Type} {R : α → β → Prop} {f : α → Except ε β} :
    ∀ {l : List α}, (∀ a ∈ l, ∃ b, f a = .ok b ∧ R a b) →
      ∃ l', l.mapM f = .ok l' ∧ List.Forall₂ R l l'
  | [], _ => ⟨[], rfl, List.Forall₂.nil⟩
  | a :: l, h => by
      obtain ⟨b, hb, hab⟩ := h a List.mem_cons_self
      obtain ⟨l', hl', hrel⟩ := mapM_ok fun x hx => h x (List.mem_cons_of_mem a hx)
      refine ⟨b :: l', ?_, List.Forall₂.cons hab hrel⟩
      rw [List.mapM_cons, hb, hl']
      rfl

/-- A computation that was made on every element of a list succeeded on each element. -/
theorem mapM_eq_ok {ε α β : Type} {R : α → β → Prop} {f : α → Except ε β} :
    ∀ {l : List α} {l' : List β}, l.mapM f = .ok l' → (∀ a b, f a = .ok b → R a b) →
      List.Forall₂ R l l'
  | [], l', h, _ => by
      cases h
      exact List.Forall₂.nil
  | a :: l, l', h, hR => by
      rw [List.mapM_cons] at h
      obtain ⟨b, hb, h⟩ := bind_eq_ok.mp h
      obtain ⟨bs, hbs, h⟩ := bind_eq_ok.mp h
      cases h
      exact List.Forall₂.cons (hR a b hb) (mapM_eq_ok hbs hR)

/-- A computation made on every element of a list fails only where it fails on one. -/
theorem mapM_ne_error {ε α β : Type} {f : α → Except ε β} {e : ε} {l : List α}
    (h : ∀ a ∈ l, f a ≠ .error e) : l.mapM f ≠ .error e := by
  induction l with
  | nil => exact nofun
  | cons a l ih =>
      intro hl
      rw [List.mapM_cons] at hl
      rcases bind_eq_error.mp hl with hl | ⟨b, -, hl⟩
      · exact h a List.mem_cons_self hl
      · rcases bind_eq_error.mp hl with hl | ⟨bs, -, hl⟩
        · exact ih (fun x hx => h x (List.mem_cons_of_mem a hx)) hl
        · cases hl

/-- The same for computations without a message. -/
theorem mapM_eq_some {α β : Type} {f : α → Option β} {l : List α} {l' : List β} :
    l.mapM f = some l' ↔ List.Forall₂ (fun a b => f a = some b) l l' := by
  constructor
  · intro h
    induction l generalizing l' with
    | nil =>
        cases h
        exact List.Forall₂.nil
    | cons a l ih =>
        rw [List.mapM_cons] at h
        obtain ⟨b, hb, h⟩ := Option.bind_eq_some_iff.mp h
        obtain ⟨bs, hbs, h⟩ := Option.bind_eq_some_iff.mp h
        cases h
        exact List.Forall₂.cons hb (ih hbs)
  · intro h
    induction h with
    | nil => rfl
    | cons hb _ ih =>
        rw [List.mapM_cons, hb, ih]
        rfl

/-- A relation of lists may be weakened with the elements of the left list at hand. -/
theorem forall₂_imp_mem {α β : Type} {R S : α → β → Prop} {l : List α} {l' : List β}
    (h : List.Forall₂ R l l') (himp : ∀ a b, a ∈ l → R a b → S a b) : List.Forall₂ S l l' := by
  induction h with
  | nil => exact List.Forall₂.nil
  | cons hab _ ih =>
      exact List.Forall₂.cons (himp _ _ List.mem_cons_self hab)
        (ih fun a b ha => himp a b (List.mem_cons_of_mem _ ha))

/-- An element on the right of a relation of lists is related to one on the left. -/
theorem forall₂_mem_right {α β : Type} {R : α → β → Prop} {l : List α} {l' : List β}
    (h : List.Forall₂ R l l') {b : β} (hb : b ∈ l') : ∃ a ∈ l, R a b := by
  induction h with
  | nil => cases hb
  | cons hab _ ih =>
      rcases List.mem_cons.mp hb with rfl | hb
      · exact ⟨_, List.mem_cons_self, hab⟩
      · obtain ⟨a, ha, hr⟩ := ih hb
        exact ⟨a, List.mem_cons_of_mem _ ha, hr⟩

theorem forall₂_mem_left {α β : Type} {R : α → β → Prop} {l : List α} {l' : List β}
    (h : List.Forall₂ R l l') {a : α} (ha : a ∈ l) : ∃ b ∈ l', R a b :=
  forall₂_mem_right h.flip ha

end Pefa
