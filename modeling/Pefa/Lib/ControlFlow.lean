import Pefa.Lib.WhileLoop

/-!
# Graphs of basic blocks

A function in basic blocks, over a state `σ`: each block changes the state and says where control
goes, to another block or out of the function, or it stops with an error. A run goes through at most
`fuel` blocks; how a function comes to an end does not depend on it (`Ends.run`).

Such a graph is compared with a structured program, whose loops are `whileLoop`s. `Follows` says
that from some block on the graph does what a computation says: it fails where the computation
fails, and otherwise control comes to a block and a state that belong to what is returned. It goes
through the structure of the computation: `Follows.bind` for a sequence and `Follows.whileLoop` for
a loop, whose test is at one block that every turn comes back to.
-/

namespace ControlFlow

open WhileLoop

variable {ε L σ ρ τ υ : Type}

/-- Where control goes at the end of a block. -/
inductive Next (L ρ : Type) where
  | goto (label : L)
  | return (result : ρ)

/-- A run from a block on, through at most `fuel` blocks. -/
def run (timeout : ε) (code : L → σ → Except ε (Next L ρ × σ)) :
    Nat → L → σ → Except ε (ρ × σ)
  | 0, _, _ => .error timeout
  | fuel + 1, l, s => do
      let (next, s) ← code l s
      match next with
      | .goto l => run timeout code fuel l s
      | .return r => .ok (r, s)

variable (code : L → σ → Except ε (Next L ρ × σ))

/-- How the run from a block on comes to an end. -/
inductive Ends : L → σ → Except ε (ρ × σ) → Prop
  | error {l : L} {s : σ} {e : ε} (h : code l s = .error e) : Ends l s (.error e)
  | return {l : L} {s s' : σ} {r : ρ} (h : code l s = .ok (.return r, s')) : Ends l s (.ok (r, s'))
  | goto {l l' : L} {s s' : σ} {out : Except ε (ρ × σ)} (h : code l s = .ok (.goto l', s'))
      (rest : Ends l' s' out) : Ends l s out

/-- From a block on the graph does what the computation `x` says: it ends in the error of `x`, or
control comes to a block and a state that `post` allows for what `x` returns. -/
inductive Follows (x : Except ε τ) (post : τ → L → σ → Prop) : L → σ → Prop
  | here {l : L} {s : σ} {t : τ} (hx : x = .ok t) (h : post t l s) : Follows x post l s
  | error {l : L} {s : σ} {e : ε} (hx : x = .error e) (h : code l s = .error e) :
      Follows x post l s
  | goto {l l' : L} {s s' : σ} (h : code l s = .ok (.goto l', s')) (rest : Follows x post l' s') :
      Follows x post l s

variable {code}

/-- A run with enough fuel ends as it ends. -/
theorem Ends.run {l : L} {s : σ} {out : Except ε (ρ × σ)} (h : Ends code l s out)
    (timeout : ε) : ∃ n, ∀ fuel, n ≤ fuel → run timeout code fuel l s = out := by
  induction h with
  | error h =>
      refine ⟨1, fun fuel hfuel => ?_⟩
      obtain ⟨f, rfl⟩ : ∃ f, fuel = f + 1 := ⟨fuel - 1, by omega⟩
      rw [ControlFlow.run, h]
      rfl
  | «return» h =>
      refine ⟨1, fun fuel hfuel => ?_⟩
      obtain ⟨f, rfl⟩ : ∃ f, fuel = f + 1 := ⟨fuel - 1, by omega⟩
      rw [ControlFlow.run, h]
      rfl
  | goto h _ ih =>
      obtain ⟨n, hn⟩ := ih
      refine ⟨n + 1, fun fuel hfuel => ?_⟩
      obtain ⟨f, rfl⟩ : ∃ f, fuel = f + 1 := ⟨fuel - 1, by omega⟩
      rw [ControlFlow.run, h]
      exact hn f (by omega)

namespace Follows

variable {x : Except ε τ} {post : τ → L → σ → Prop} {l : L} {s : σ}

/-- One block does what `x` says: it fails where `x` does, and otherwise goes on. -/
theorem block (herror : ∀ e, x = .error e → code l s = .error e)
    (hok : ∀ t, x = .ok t → ∃ l' s', code l s = .ok (.goto l', s') ∧ post t l' s') :
    Follows code x post l s := by
  cases hx : x with
  | error e => exact .error rfl (herror e hx)
  | ok t =>
      obtain ⟨l', s', hcode, hpost⟩ := hok t hx
      exact .goto hcode (.here rfl hpost)

/-- **Sequence**: after what `x` says the graph does what `f` says of what `x` returned. -/
theorem bind {f : τ → Except ε υ} {post' : υ → L → σ → Prop} (h : Follows code x post l s)
    (hf : ∀ t l s, x = .ok t → post t l s → Follows code (f t) post' l s) :
    Follows code (x >>= f) post' l s := by
  induction h with
  | here hx h =>
      have hnext := hf _ _ _ hx h
      rw [hx]
      exact hnext
  | error hx h =>
      rw [hx]
      exact .error rfl h
  | goto h _ ih => exact .goto h ih

/-- **Loop**: the blocks of one turn lead from the block with the test back to it. -/
theorem whileLoop {timeout : ε} {cond : τ → Bool} {body : τ → Except ε τ} {head : L}
    (inv : τ → σ → Prop)
    (hbody : ∀ t s, inv t s → cond t = true → Halts timeout (body t) →
      Follows code (body t) (fun t' l s' => l = head ∧ inv t' s') head s)
    (hexit : ∀ t s, inv t s → cond t = false → Follows code (.ok t) post head s) :
    ∀ {fuel : Nat} {t : τ} {s : σ}, inv t s →
      Halts timeout (WhileLoop.whileLoop timeout cond body fuel t) →
      Follows code (WhileLoop.whileLoop timeout cond body fuel t) post head s := by
  intro fuel
  induction fuel with
  | zero =>
      intro t s hinv hhalts
      cases hc : cond t with
      | false =>
          rw [whileLoop_done hc]
          exact hexit t s hinv hc
      | true =>
          -- without fuel the loop does not come to an end
          simp only [WhileLoop.whileLoop, hc, if_true] at hhalts
          exact absurd rfl hhalts
  | succ fuel ih =>
      intro t s hinv hhalts
      cases hc : cond t with
      | false =>
          rw [whileLoop_done hc]
          exact hexit t s hinv hc
      | true =>
          rw [whileLoop_step hc] at hhalts ⊢
          refine (hbody t s hinv hc hhalts.of_bind).bind fun t' l s' ht hpost => ?_
          obtain ⟨rfl, hinv'⟩ := hpost
          rw [ht] at hhalts
          exact ih hinv' hhalts

/-- A graph that follows a computation to a block that returns ends as the computation does. -/
theorem ends {result : τ → ρ → σ → Prop}
    (h : Follows code x (fun t l s => ∃ r s', code l s = .ok (.return r, s') ∧ result t r s') l s) :
    (∃ e, x = .error e ∧ Ends code l s (.error e)) ∨
      ∃ t r s', x = .ok t ∧ result t r s' ∧ Ends code l s (.ok (r, s')) := by
  induction h with
  | here hx h =>
      obtain ⟨r, s', hcode, hresult⟩ := h
      exact .inr ⟨_, r, s', hx, hresult, .return hcode⟩
  | error hx h => exact .inl ⟨_, hx, .error h⟩
  | goto h _ ih =>
      rcases ih with ⟨e, hx, hends⟩ | ⟨t, r, s', hx, hresult, hends⟩
      · exact .inl ⟨e, hx, .goto h hends⟩
      · exact .inr ⟨t, r, s', hx, hresult, .goto h hends⟩

end Follows

end ControlFlow
