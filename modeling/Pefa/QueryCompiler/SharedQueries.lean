import Pefa.Lib.Agree
import Pefa.QueryCompiler.PlanHeap

/-!
# Queries are values

A program derives queries from queries that it has, and executes any of them as often as it likes.
Their plans share nodes, and every execution runs a pass that assigns to nodes. None of this shows:
a query is the list of the calls that it was made with, and an execution returns what these calls
return on a new query (`queries_are_values`).

What carries the proof is that no operation changes a node that is there already. So a pointer that
stands for a plan stands for it for ever (`Stands.of_frame`).
-/

namespace Pefa

open Arena

/-! ## Programs -/

/-- What a program does with its queries. The queries are numbered in the order in which they are
made. -/
inductive QueryOp where
  | call (query : Nat) (step : Step)
  | execute (query : Nat) (table : Table)

/-- The query that an operation is on. -/
def queryAt {α : Type} (queries : List α) (i : Nat) : Except Error α :=
  match queries[i]? with
  | some query => .ok query
  | none => .error .outOfBounds

/-- A program goes on after an exception, and ends with any other failure. -/
def caught {α : Type} : Except Error α → Except Error (Except Error α)
  | .ok a => .ok (.ok a)
  | .error e => if e.isException then .ok (.error e) else .error e

/-- The heap, the `m_plan` of every `QueryCompiler`, and what the executions so far have returned
or thrown. -/
structure QueryState where
  heap : PlanHeap
  queries : List (Option Nat)
  results : List (Except Error Table)

namespace QueryState

/-- An empty heap and one new `QueryCompiler`. -/
def start : QueryState where
  heap := { cells := [], descends := fun h => by simp at h }
  queries := [none]
  results := []

/-- An operation of the program. -/
def step (s : QueryState) : QueryOp → Except Error QueryState
  | .call query call => do
      let plan ← queryAt s.queries query
      let (heap, plan) ← stepOn s.heap plan call
      .ok { s with heap := heap, queries := s.queries ++ [plan] }
  | .execute query table => do
      let plan ← queryAt s.queries query
      let out := executeOn s.heap plan table
      let result ← caught out.1
      .ok { s with heap := out.2, results := s.results ++ [result] }

end QueryState

/-- What the queries of a program are for: each is the list of its calls. -/
structure QueryValues where
  queries : List (List Step)
  results : List (Except Error Table)

namespace QueryValues

/-- One query without calls. -/
def start : QueryValues := ⟨[[]], []⟩

/-- An operation of the program. -/
def step (v : QueryValues) : QueryOp → Except Error QueryValues
  | .call query call => do
      let calls ← queryAt v.queries query
      .ok { v with queries := v.queries ++ [calls ++ [call]] }
  | .execute query table => do
      let calls ← queryAt v.queries query
      let result ← caught (Pefa.execute (.build calls) table)
      .ok { v with results := v.results ++ [result] }

end QueryValues

/-! ## The queries on the heap refine the values -/

/-- The pointer stands for the plan of these calls. -/
structure Stands (heap : PlanHeap) (p : Option Nat) (calls : List Step) : Prop where
  valid : heap.Valid p
  plan_eq : planAt heap p = .build calls

/-- What a pointer stands for does not change where no node changes. -/
theorem Stands.of_frame {heap heap' : PlanHeap} {p : Option Nat} {calls : List Step}
    (h : Stands heap p calls) (hframe : ∀ a < heap.size, heap'.cells[a]? = heap.cells[a]?) :
    Stands heap' p calls where
  valid a ha := by
    obtain ⟨node, hnode⟩ := exists_cell (h.valid a ha)
    rw [← hframe a (h.valid a ha)] at hnode
    exact lt_size hnode
  plan_eq := by
    rw [planAt, chain_of_extends hframe h.valid]
    exact h.plan_eq

/-- Every query on the heap stands for its calls, and the executions have had the same results. -/
structure QueryState.Refines (s : QueryState) (v : QueryValues) : Prop where
  queries : List.Forall₂ (Stands s.heap) s.queries v.queries
  results : s.results = v.results

theorem queryAt_agree {α β : Type} {R : α → β → Prop} {l : List α} {l' : List β}
    (h : List.Forall₂ R l l') (i : Nat) : Agree R (queryAt l i) (queryAt l' i) := by
  induction h generalizing i with
  | nil => exact .error _
  | cons hab _ ih =>
      cases i with
      | zero => exact .ok hab
      | succ i => exact ih i

theorem forall₂_concat {α β : Type} {R : α → β → Prop} {l : List α} {l' : List β} {a : α} {b : β}
    (h : List.Forall₂ R l l') (hab : R a b) : List.Forall₂ R (l ++ [a]) (l' ++ [b]) :=
  List.rel_append h (.cons hab .nil)

/-- **One operation**: it changes no node, so the queries that were there stand for what they stood
for. -/
theorem step_refines {s : QueryState} {v : QueryValues} (h : s.Refines v) (op : QueryOp) :
    Agree QueryState.Refines (s.step op) (v.step op) := by
  cases op with
  | call query call =>
      refine (queryAt_agree h.queries query).bind fun p calls hp => ?_
      obtain ⟨heap', p', hstep, hframe, hvalid, hplan⟩ := stepOn_ok hp.valid call
      rw [hstep, bind_ok]
      refine .ok ⟨forall₂_concat (h.queries.imp fun _ _ hq => hq.of_frame hframe) ?_, h.results⟩
      exact ⟨hvalid, by rw [hplan, hp.plan_eq, LogicalPlan.build_concat]⟩
  | execute query table =>
      refine (queryAt_agree h.queries query).bind fun p calls hp => ?_
      obtain ⟨hresult, -, hframe⟩ := executeOn_ok hp.valid table
      rw [hp.plan_eq] at hresult
      dsimp only
      rw [hresult]
      cases caught (Pefa.execute (.build calls) table) with
      | error e => exact .error e
      | ok result =>
          refine .ok ⟨h.queries.imp fun _ _ hq => hq.of_frame hframe, ?_⟩
          show s.results ++ [_] = v.results ++ [_]
          rw [h.results]

/-- **Queries are values**: whatever a program derives from what, and whatever it executes in
between, every query stands for the calls it was made with, and every execution returns, throws or
ends the program as executing these calls on a new query does. -/
theorem queries_are_values (ops : List QueryOp) :
    Agree QueryState.Refines (ops.foldlM QueryState.step .start)
      (ops.foldlM QueryValues.step .start) := by
  refine Agree.foldlM (fun s v op h => step_refines h op) ops ⟨?_, rfl⟩
  exact .cons ⟨nofun, planAt_none _⟩ .nil

end Pefa
