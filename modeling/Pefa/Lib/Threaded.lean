import Mathlib

/-!
# Computations over a state that outlives their failures

A computation that may fail works on a state of its surroundings, and the state is still there when
it has failed: what was acquired before the failure has to be given back, and what was spent is
spent. So the state after is returned with the result, whether that is a value or an error.

The question about such a computation is whether the surroundings show. `Computes` says that they do
not: from every state that meets an invariant the result is that of a plain computation, the
invariant is kept, and what the state has spent grows by no more than a bound, which is met exactly
when the computation succeeds. The rules follow the computation, and the bounds add up.
-/

/-- A computation of an `α` that may fail, over states `σ`. -/
def Threaded (σ ε α : Type) : Type := σ → Except ε α × σ

namespace Threaded

variable {σ ε α β : Type}

/-- A plain computation leaves the state as it is. -/
def ofExcept (x : Except ε α) : Threaded σ ε α := fun s => (x, s)

def bind (m : Threaded σ ε α) (f : α → Threaded σ ε β) : Threaded σ ε β := fun s =>
  match m s with
  | (.ok a, s) => f a s
  | (.error e, s) => (.error e, s)

instance : Monad (Threaded σ ε) where
  pure a := ofExcept (.ok a)
  bind := bind

theorem ofExcept_ok_bind (a : α) (f : α → Threaded σ ε β) : ofExcept (.ok a) >>= f = f a := rfl

theorem ofExcept_error_bind (e : ε) (f : α → Threaded σ ε β) :
    ofExcept (.error e) >>= f = ofExcept (.error e) := rfl

theorem bind_of_ok {m : Threaded σ ε α} {f : α → Threaded σ ε β} {s : σ} {a : α}
    (h : (m s).1 = .ok a) : (m >>= f) s = f a (m s).2 := by
  show bind m f s = _
  rw [bind, ← Prod.mk.eta (p := m s), h]

theorem bind_of_error {m : Threaded σ ε α} {f : α → Threaded σ ε β} {s : σ} {e : ε}
    (h : (m s).1 = .error e) : (m >>= f) s = (.error e, (m s).2) := by
  show bind m f s = _
  rw [bind, ← Prod.mk.eta (p := m s), h]

/-! ## What a computation leaves of the state -/

/-- However it ends, the computation keeps `P`. -/
def Keeps (P : σ → Prop) (m : Threaded σ ε α) : Prop := ∀ s, P s → P (m s).2

namespace Keeps

variable {P : σ → Prop}

theorem ofExcept (x : Except ε α) : Keeps P (Threaded.ofExcept x : Threaded σ ε α) := fun _ hs => hs

theorem bind {m : Threaded σ ε α} {f : α → Threaded σ ε β} (hm : Keeps P m)
    (hf : ∀ a, Keeps P (f a)) : Keeps P (m >>= f) := by
  intro s hs
  cases hresult : (m s).1 with
  | ok a =>
      rw [bind_of_ok hresult]
      exact hf a _ (hm s hs)
  | error e =>
      rw [bind_of_error hresult]
      exact hm s hs

end Keeps

/-! ## Computations that do not see the state -/

variable {P : σ → Prop} {spent : σ → Nat} {exact : Prop}

variable (P spent exact) in
/-- On states that meet `P`, `m` computes `x`, keeps `P` and spends at most `n`; and if the spending
is `exact`, a success has spent `n`. -/
structure Outcome (m : Threaded σ ε α) (x : Except ε α) (n : Nat) (s : σ) : Prop where
  result : (m s).1 = x
  inv : P (m s).2
  spent_ge : spent s ≤ spent (m s).2
  spent_le : spent (m s).2 ≤ spent s + n
  spent_eq : exact → ∀ a, x = .ok a → spent (m s).2 = spent s + n

/-- An outcome from the result and the state after. -/
theorem Outcome.of_run {m : Threaded σ ε α} {x : Except ε α} {n : Nat} {s s' : σ}
    (hrun : m s = (x, s')) (hinv : P s') (hge : spent s ≤ spent s') (hle : spent s' ≤ spent s + n)
    (heq : ∀ a, x = .ok a → spent s' = spent s + n) : Outcome P spent exact m x n s :=
  ⟨by rw [hrun], by rwa [hrun], by rwa [hrun], by rwa [hrun], fun _ => by rwa [hrun]⟩

variable (P spent exact) in
def Computes (m : Threaded σ ε α) (x : Except ε α) (n : Nat) : Prop :=
  ∀ s, P s → Outcome P spent exact m x n s

namespace Computes

theorem ofExcept (x : Except ε α) : Computes P spent exact (Threaded.ofExcept x) x 0 :=
  fun _ hs => ⟨rfl, hs, Nat.le_refl _, Nat.le_refl _, fun _ _ _ => rfl⟩

/-- **One computation after the other**, where the second is only ever asked for what the first
computed. -/
theorem bind {m : Threaded σ ε α} {x : Except ε α} {n k : Nat} {f : α → Threaded σ ε β}
    {g : α → Except ε β} (hm : Computes P spent exact m x n)
    (hf : ∀ a, x = .ok a → Computes P spent exact (f a) (g a) k) :
    Computes P spent exact (m >>= f) (x >>= g) (n + k) := by
  intro s hs
  obtain ⟨hresult, hinv, hge, hle, heq⟩ := hm s hs
  cases x with
  | error e =>
      have hrun := bind_of_error (f := f) hresult
      refine ⟨by rw [hrun]; rfl, by rw [hrun]; exact hinv, by rw [hrun]; exact hge, ?_, ?_⟩
      · rw [hrun]
        exact hle.trans (by omega)
      · rintro - b hb
        cases hb
  | ok a =>
      have hrun := bind_of_ok (f := f) hresult
      obtain ⟨hresult', hinv', hge', hle', heq'⟩ := hf a rfl (m s).2 hinv
      refine ⟨by rw [hrun]; exact hresult', by rw [hrun]; exact hinv', ?_, ?_, ?_⟩
      · rw [hrun]
        exact hge.trans hge'
      · rw [hrun]
        omega
      · intro hexact b hb
        have h := heq hexact a rfl
        have h' := heq' hexact b hb
        rw [hrun]
        omega

/-- A bound that is not met is no exact one. -/
theorem skip {m : Threaded σ ε α} {x : Except ε α} (hm : Computes P spent exact m x 0)
    (hexact : ¬ exact) (n : Nat) : Computes P spent exact m x n := by
  intro s hs
  obtain ⟨hresult, hinv, hge, hle, -⟩ := hm s hs
  exact ⟨hresult, hinv, hge, hle.trans (by omega), fun h => absurd h hexact⟩

end Computes

end Threaded
