import Mathlib

/-!
# Runs of a machine

A machine with states `σ` takes actions `α`, one after another: `step s a` is the state after the
action `a`, and there is none if `a` cannot be taken in the state `s`. What is said of a run is
said of all the states it goes through (`Throughout`), or of all the actions it takes (`Guarded`).

A guard is exact for a property if the steps that keep the property are the guarded ones. Then the
property holds throughout a run if and only if the run is guarded (`throughout_iff_guarded`).
-/

namespace Runs

variable {σ α : Type} (step : σ → α → Option σ)

/-- The property holds in all states of the run that these actions make from a state. A run ends
at the first action that cannot be taken. -/
def Throughout (P : σ → Prop) : σ → List α → Prop
  | s, [] => P s
  | s, a :: as => P s ∧ ∀ s' ∈ step s a, Throughout P s' as

/-- Every action that is taken is guarded in the state in which it is taken. -/
def Guarded (g : σ → α → Prop) : σ → List α → Prop
  | _, [] => True
  | s, a :: as => ∀ s' ∈ step s a, g s a ∧ Guarded g s' as

/-- The state after all these actions. -/
def run : σ → List α → Option σ
  | s, [] => some s
  | s, a :: as => (step s a).bind fun s' => run s' as

variable {step} {P I : σ → Prop} {g : σ → α → Prop}

/-- The state that a run starts from is one of its states. -/
theorem Throughout.start {s : σ} {as : List α} (h : Throughout step P s as) : P s := by
  cases as with
  | nil => exact h
  | cons a as => exact h.1

/-- The state that a run ends in is one of its states. -/
theorem Throughout.last {s' : σ} : ∀ {as : List α} {s : σ}, Throughout step P s as →
    run step s as = some s' → P s' := by
  intro as
  induction as with
  | nil =>
      intro s h hrun
      cases hrun
      exact h
  | cons a as ih =>
      intro s h hrun
      obtain ⟨s₁, hs₁, hrun⟩ := Option.bind_eq_some_iff.mp hrun
      exact ih (h.2 s₁ hs₁) hrun

/-- What follows from the property, in states that an invariant `I` leaves, holds too. -/
theorem Throughout.imp {Q : σ → Prop} (hI : ∀ {s a s'}, I s → step s a = some s' → I s')
    (h : ∀ {s}, I s → P s → Q s) :
    ∀ {as : List α} {s : σ}, I s → Throughout step P s as → Throughout step Q s as := by
  intro as
  induction as with
  | nil => exact fun hs hP => h hs hP
  | cons a as ih => exact fun hs hP => ⟨h hs hP.1, fun s' hs' => ih (hI hs hs') (hP.2 s' hs')⟩

/-- **A guard that is exact for one step is exact for a run**, on the states that an invariant `I`
leaves. -/
theorem throughout_iff_guarded (hI : ∀ {s a s'}, I s → step s a = some s' → I s')
    (hP : ∀ {s a s'}, I s → P s → step s a = some s' → (P s' ↔ g s a)) :
    ∀ {as : List α} {s : σ}, I s → P s →
      (Throughout step P s as ↔ Guarded step g s as) := by
  intro as
  induction as with
  | nil => exact fun _ hs => ⟨fun _ => trivial, fun _ => hs⟩
  | cons a as ih =>
      intro s hIs hs
      constructor
      · rintro ⟨-, hrest⟩ s' hs'
        have hPs' : P s' := (hrest s' hs').start
        exact ⟨(hP hIs hs hs').mp hPs', (ih (hI hIs hs') hPs').mp (hrest s' hs')⟩
      · intro hguard
        refine ⟨hs, fun s' hs' => ?_⟩
        obtain ⟨hga, hrest⟩ := hguard s' hs'
        exact (ih (hI hIs hs') ((hP hIs hs hs').mpr hga)).mpr hrest

end Runs
