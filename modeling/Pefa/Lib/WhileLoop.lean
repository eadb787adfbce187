import Mathlib

/-!
# While loops that may fail

A loop `while (cond) body` over a state `σ` whose body may stop with an error. The loop is run
with `fuel`, the largest number of iterations it may take; a run that would take more stops with
the error `timeout`. So "the loop terminates" is "the loop does not end in `timeout`", and every
total rule below proves it together with what the loop computes.

The rules, by what is known about the states a run goes through:

* `whileLoop_trajectory` — the states are known outright, `at 0, at 1, …, at n`;
* `whileLoop_total` — an invariant and a measure that each iteration decreases;
* `whileLoop_inv`, `whileLoop_error` — what holds of a run that ends, however it ends;
* `Halts.whileLoop` — an invariant and a measure, for a body that may also fail.
-/

namespace WhileLoop

variable {ε σ : Type}

/-- `while (cond) body`, for at most `fuel` iterations. -/
def whileLoop (timeout : ε) (cond : σ → Bool) (body : σ → Except ε σ) : Nat → σ → Except ε σ
  | 0, s => if cond s then .error timeout else .ok s
  | fuel + 1, s => if cond s then body s >>= whileLoop timeout cond body fuel else .ok s

/-- `do body while (cond)`. -/
def doWhile (timeout : ε) (cond : σ → Bool) (body : σ → Except ε σ) (fuel : Nat) (s : σ) :
    Except ε σ :=
  body s >>= whileLoop timeout cond body fuel

variable {timeout : ε} {cond : σ → Bool} {body : σ → Except ε σ}

/-! ## One iteration -/

theorem whileLoop_done {fuel : Nat} {s : σ} (h : cond s = false) :
    whileLoop timeout cond body fuel s = .ok s := by
  cases fuel <;> simp [whileLoop, h]

theorem whileLoop_step {fuel : Nat} {s : σ} (h : cond s = true) :
    whileLoop timeout cond body (fuel + 1) s = body s >>= whileLoop timeout cond body fuel := by
  simp [whileLoop, h]

theorem whileLoop_step_ok {fuel : Nat} {s s' : σ} (h : cond s = true) (hb : body s = .ok s') :
    whileLoop timeout cond body (fuel + 1) s = whileLoop timeout cond body fuel s' := by
  rw [whileLoop_step h, hb]
  rfl

/-! ## The states of the run are known -/

/-- **A loop whose states are known ends in the last of them.** Counted loops are the case in
which the state after `k` iterations is a function of `k`. -/
theorem whileLoop_trajectory (run : Nat → σ) (n : Nat) {fuel : Nat} (hfuel : n ≤ fuel)
    (hcond : ∀ k < n, cond (run k) = true) (hbody : ∀ k < n, body (run k) = .ok (run (k + 1)))
    (hend : cond (run n) = false) :
    whileLoop timeout cond body fuel (run 0) = .ok (run n) := by
  -- generalized to a run that is already at its `k`-th state, by induction on what is left
  suffices h : ∀ m k fuel, k + m = n → m ≤ fuel →
      whileLoop timeout cond body fuel (run k) = .ok (run n) from h n 0 fuel (by omega) hfuel
  intro m
  induction m with
  | zero =>
      intro k fuel hk _
      obtain rfl : k = n := by omega
      exact whileLoop_done hend
  | succ m ih =>
      intro k fuel hk hf
      obtain ⟨f, rfl⟩ : ∃ f, fuel = f + 1 := ⟨fuel - 1, by omega⟩
      rw [whileLoop_step_ok (hcond k (by omega)) (hbody k (by omega))]
      exact ih (k + 1) f (by omega) (by omega)

/-! ## An invariant and a measure -/

/-- **Total correctness**: an invariant that every iteration keeps, and a measure that every
iteration decreases and that starts within the fuel. -/
theorem whileLoop_total (inv : σ → Prop) (measure : σ → Nat)
    (hbody : ∀ s, inv s → cond s = true → ∃ s', body s = .ok s' ∧ inv s' ∧ measure s' < measure s) :
    ∀ {fuel : Nat} {s : σ}, inv s → measure s ≤ fuel →
      ∃ s', whileLoop timeout cond body fuel s = .ok s' ∧ inv s' ∧ cond s' = false := by
  intro fuel
  induction fuel with
  | zero =>
      intro s hs hm
      cases hc : cond s with
      | false => exact ⟨s, whileLoop_done hc, hs, hc⟩
      | true =>
          -- without fuel the measure is zero, which an iteration cannot decrease
          obtain ⟨s', -, -, hlt⟩ := hbody s hs hc
          omega
  | succ fuel ih =>
      intro s hs hm
      cases hc : cond s with
      | false => exact ⟨s, whileLoop_done hc, hs, hc⟩
      | true =>
          obtain ⟨s', hb, hs', hlt⟩ := hbody s hs hc
          rw [whileLoop_step_ok hc hb]
          exact ih hs' (by omega)

/-- `whileLoop_total` for a loop that tests its condition after the body. -/
theorem doWhile_total (inv : σ → Prop) (measure : σ → Nat)
    (hbody : ∀ s, inv s → cond s = true → ∃ s', body s = .ok s' ∧ inv s' ∧ measure s' < measure s)
    {fuel : Nat} {s : σ} (hfirst : ∃ s', body s = .ok s' ∧ inv s' ∧ measure s' ≤ fuel) :
    ∃ s', doWhile timeout cond body fuel s = .ok s' ∧ inv s' ∧ cond s' = false := by
  obtain ⟨s₁, hb, hs₁, hm⟩ := hfirst
  obtain ⟨s', hw, hs', hc⟩ : ∃ s', whileLoop timeout cond body fuel s₁ = .ok s' ∧ inv s' ∧
      cond s' = false := whileLoop_total inv measure hbody hs₁ hm
  exact ⟨s', by rw [doWhile, hb]; exact hw, hs', hc⟩

/-! ## Runs that end -/

/-- **Partial correctness**: what the body keeps holds at the end of every run that ends well. -/
theorem whileLoop_inv (inv : σ → Prop)
    (hbody : ∀ s s', inv s → cond s = true → body s = .ok s' → inv s') :
    ∀ {fuel : Nat} {s s' : σ}, inv s → whileLoop timeout cond body fuel s = .ok s' →
      inv s' ∧ cond s' = false := by
  intro fuel
  induction fuel with
  | zero =>
      intro s s' hs h
      cases hc : cond s with
      | false =>
          rw [whileLoop_done hc] at h
          cases h
          exact ⟨hs, hc⟩
      | true => simp [whileLoop, hc] at h
  | succ fuel ih =>
      intro s s' hs h
      cases hc : cond s with
      | false =>
          rw [whileLoop_done hc] at h
          cases h
          exact ⟨hs, hc⟩
      | true =>
          rw [whileLoop_step hc] at h
          cases hb : body s with
          | error e => rw [hb] at h; cases h
          | ok s₁ =>
              rw [hb] at h
              exact ih (hbody s s₁ hs hc hb) h

/-- An error of a loop is an error of its body, or the loop ran out of fuel. -/
theorem whileLoop_error (P : ε → Prop) (htimeout : P timeout)
    (hbody : ∀ s e, body s = .error e → P e) :
    ∀ {fuel : Nat} {s : σ} {e : ε}, whileLoop timeout cond body fuel s = .error e → P e := by
  intro fuel
  induction fuel with
  | zero =>
      intro s e h
      cases hc : cond s with
      | false => rw [whileLoop_done hc] at h; cases h
      | true =>
          simp only [whileLoop, hc, if_true] at h
          cases h
          exact htimeout
  | succ fuel ih =>
      intro s e h
      cases hc : cond s with
      | false => rw [whileLoop_done hc] at h; cases h
      | true =>
          rw [whileLoop_step hc] at h
          cases hb : body s with
          | error e' =>
              rw [hb] at h
              cases h
              exact hbody s _ hb
          | ok s₁ =>
              rw [hb] at h
              exact ih h

/-! ## Loops that come to an end -/

/-- The computation comes to an end: it does not stop for want of fuel. -/
def Halts {α : Type} (timeout : ε) (x : Except ε α) : Prop := x ≠ .error timeout

namespace Halts

variable {α β : Type}

theorem ok (a : α) : Halts timeout (.ok a) := nofun

theorem error {e : ε} (h : e ≠ timeout) : Halts timeout (.error e : Except ε α) := by
  intro he
  cases he
  exact h rfl

/-- Two steps come to an end if the first does, and the second on what the first returns. -/
theorem bind {x : Except ε α} {f : α → Except ε β} (hx : Halts timeout x)
    (hf : ∀ a, x = .ok a → Halts timeout (f a)) : Halts timeout (x >>= f) := by
  cases x with
  | error e =>
      intro h
      cases h
      exact hx rfl
  | ok a => exact hf a rfl

/-- The first of two steps comes to an end if both do. -/
theorem of_bind {x : Except ε α} {f : α → Except ε β} (h : Halts timeout (x >>= f)) :
    Halts timeout x := by
  intro hx
  rw [hx] at h
  exact h rfl

theorem mapM {f : α → Except ε β} {l : List α} (h : ∀ a ∈ l, Halts timeout (f a)) :
    Halts timeout (l.mapM f) := by
  induction l with
  | nil => exact .ok []
  | cons a l ih =>
      rw [List.mapM_cons]
      refine (h a List.mem_cons_self).bind fun b _ => ?_
      exact (ih fun a' ha' => h a' (List.mem_cons_of_mem a ha')).bind fun bs _ => .ok _

/-- **A loop comes to an end** if every iteration does, the measure is not zero when there is one
more, and every iteration that succeeds keeps the invariant and decreases the measure. -/
theorem whileLoop (inv : σ → Prop) (measure : σ → Nat)
    (hpos : ∀ s, inv s → cond s = true → 0 < measure s)
    (hbody : ∀ s, inv s → cond s = true → Halts timeout (body s))
    (hstep : ∀ s s', inv s → cond s = true → body s = .ok s' → inv s' ∧ measure s' < measure s) :
    ∀ {fuel : Nat} {s : σ}, inv s → measure s ≤ fuel →
      Halts timeout (WhileLoop.whileLoop timeout cond body fuel s) := by
  intro fuel
  induction fuel with
  | zero =>
      intro s hs hm
      cases hc : cond s with
      | false =>
          rw [whileLoop_done hc]
          exact .ok s
      | true =>
          have := hpos s hs hc
          omega
  | succ fuel ih =>
      intro s hs hm
      cases hc : cond s with
      | false =>
          rw [whileLoop_done hc]
          exact .ok s
      | true =>
          rw [whileLoop_step hc]
          refine (hbody s hs hc).bind fun s' hs' => ?_
          obtain ⟨hinv, hlt⟩ := hstep s s' hs hc hs'
          exact ih hinv (by omega)

end Halts

end WhileLoop
