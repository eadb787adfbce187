import Pefa.Lib.Rechunk
import Pefa.QueryCompiler.QueryCompiler
import Pefa.Reference.RowTable

/-!
# Executing a plan on rows

The contexts of the executor with everything but the rows left out: a table of rows and, after a
filter, a mark for each row. A filter replaces the marks, a projection drops them, and a
materialization keeps the marked rows and fails if there are no marks.

On these contexts it can be said what the optimizer does to a query. Two filters that are each
materialized are one filter by the conjunction, whatever comparisons mean (`joins_filters`), so
the optimized plan does the same as the plan (`optimize_preserves`); and what the plan does is the
meaning of the query (`visit_interpret`).
-/

namespace Pefa

open Rechunk

/-! ## Contexts of rows -/

/-- A meaning of comparisons, and the calls that are admitted. -/
structure RowSemantics where
  compare : Compare
  admitsProject : List String → Bool
  admitsFilter : List Field → BooleanExpr → Bool
  admitsFilter_and : ∀ fields e e', admitsFilter fields (e.and e') =
    (admitsFilter fields e && admitsFilter fields e')

structure RowContext where
  table : RowTable
  marks : Option (List Bool)

namespace RowTable

/-- Keep the marked rows. -/
def keep (t : RowTable) (marks : List Bool) : RowTable where
  fields := t.fields
  rows := kept (marks.zip t.rows)
  fields_eq row hrow := by
    obtain ⟨p, hp, rfl⟩ := List.mem_map.mp hrow
    exact t.fields_eq p.2 (List.of_mem_zip (List.mem_of_mem_filter hp)).2

/-- Marking the rows that pass and keeping the marked ones is filtering. -/
theorem keep_map (t : RowTable) (p : List Cell → Bool) : t.keep (t.rows.map p) = t.filter p := by
  refine ext rfl ?_
  show kept ((t.rows.map p).zip t.rows) = t.rows.filter p
  induction t.rows with
  | nil => rfl
  | cons row rows ih =>
      rw [List.map_cons, List.zip_cons_cons, kept_cons, ih, List.filter_cons]

/-- Filtering twice is filtering by the conjunction. -/
theorem filter_and (t : RowTable) (compare : Compare) (e e' : BooleanExpr) :
    (t.filter (truthOfRow compare e)).filter (truthOfRow compare e') =
      t.filter (truthOfRow compare (e.and e')) := by
  refine ext rfl ?_
  show (t.rows.filter _).filter _ = t.rows.filter _
  rw [List.filter_filter]
  exact List.filter_congr fun row _ => Bool.and_comm _ _

end RowTable

/-- The operations on contexts of rows. -/
def rowOps (S : RowSemantics) : ExecutionOps RowContext where
  project ctx names :=
    if S.admitsProject names then
      match ctx.table.project names with
      | some t => .ok ⟨t, none⟩
      | none => .error .nullDeref
    else .error .nullDeref
  generateFilterBitmap ctx e :=
    if S.admitsFilter ctx.table.fields e then
      .ok ⟨ctx.table, some (ctx.table.rows.map (truthOfRow S.compare e))⟩
    else .error .nullDeref
  materializeFilter ctx :=
    match ctx.marks with
    | some marks => .ok ⟨ctx.table.keep marks, none⟩
    | none => .error .unreachable

/-- `ExecutePlanVisitor` on contexts of rows. -/
def rowVisitor (S : RowSemantics) : PlanVisitor RowContext := executePlanVisitor (rowOps S)

variable (S : RowSemantics)

/-! ## The optimizer on contexts of rows -/

theorem visitStep_filter (ctx : RowContext) (e : BooleanExpr) :
    (rowVisitor S).visitStep ctx (.filter e) =
      if S.admitsFilter ctx.table.fields e then
        .ok ⟨ctx.table.filter (truthOfRow S.compare e), none⟩
      else .error .nullDeref := by
  show (if _ then _ else _) >>= _ = _
  split
  · rw [bind_ok]
    show Except.ok (RowContext.mk (ctx.table.keep _) none) = _
    rw [RowTable.keep_map]
  · rfl

/-- **Two filters are one**, each followed by its materialization. -/
theorem joins_filters (ctx : RowContext) (e e' : BooleanExpr) :
    (rowVisitor S).visitStep ctx (.filter (e.and e')) =
      (rowVisitor S).visitStep ctx (.filter e) >>= fun c =>
        (rowVisitor S).visitStep c (.filter e') := by
  rw [visitStep_filter, visitStep_filter, S.admitsFilter_and]
  cases hadm : S.admitsFilter ctx.table.fields e with
  | false => rfl
  | true =>
      rw [Bool.true_and, if_pos rfl, bind_ok, visitStep_filter, RowTable.filter_and]
      rfl

theorem foldlM_reverse_cons {σ : Type} (f : σ → Step → Except Error σ) (s : Step)
    (calls : List Step) (c : σ) :
    (s :: calls).reverse.foldlM f c = calls.reverse.foldlM f c >>= fun c => f c s := by
  simp [List.foldlM_append]

/-- Joining a call with the calls before it changes nothing. -/
theorem foldlM_joinStep (calls : List Step) (s : Step) (ctx : RowContext) :
    (joinStep calls s).reverse.foldlM (rowVisitor S).visitStep ctx =
      (s :: calls).reverse.foldlM (rowVisitor S).visitStep ctx := by
  cases s with
  | project columns => rw [joinStep_project]
  | filter e' =>
      cases calls with
      | nil => rfl
      | cons s calls =>
          cases s with
          | project columns => rw [joinStep_project_filter]
          | filter e =>
              -- the joined filter stands at the place of the two
              rw [joinStep_filter_filter, foldlM_reverse_cons, foldlM_reverse_cons _ (.filter e'),
                foldlM_reverse_cons, bind_assoc]
              exact congrArg _ (funext fun c => joins_filters S c e e')

/-- **The optimized calls do what the calls do.** -/
theorem visit_joinSteps (steps : List Step) (ctx : RowContext) :
    (rowVisitor S).visit (.build (joinSteps steps).reverse) ctx =
      (rowVisitor S).visit (.build steps) ctx := by
  rw [PlanVisitor.visit_build, PlanVisitor.visit_build]
  induction steps using List.reverseRecOn generalizing ctx with
  | nil => rfl
  | append_singleton steps s ih =>
      rw [joinSteps_concat, foldlM_joinStep, foldlM_reverse_cons, ih, List.foldlM_append]
      simp

/-! ## Queries all of whose calls are admitted -/

namespace RowSemantics

/-- The calls are admitted one after another, on a table with these fields. -/
def Admits : List Field → List Step → Prop
  | _, [] => True
  | fields, .project names :: steps => S.admitsProject names = true ∧
      ∃ picked, RowTable.pickFields fields names = some picked ∧ Admits picked steps
  | fields, .filter e :: steps => S.admitsFilter fields e = true ∧ Admits fields steps

instance instDecidableAdmits : (fields : List Field) → (steps : List Step) →
    Decidable (S.Admits fields steps)
  | _, [] => inferInstanceAs (Decidable True)
  | fields, .project names :: steps =>
      match h : RowTable.pickFields fields names with
      | none => isFalse fun ⟨_, _, hpicked, _⟩ => by rw [h] at hpicked; cases hpicked
      | some picked =>
          have := instDecidableAdmits picked steps
          decidable_of_iff (S.admitsProject names = true ∧ S.Admits picked steps) <| by
            show _ ↔ _ ∧ ∃ picked, RowTable.pickFields fields names = some picked ∧ _
            simp [h]
  | fields, .filter e :: steps =>
      @instDecidableAnd _ _ inferInstance (instDecidableAdmits fields steps)

/-- Names that each stand for one column. -/
def resolving (compare : Compare) : RowSemantics where
  compare := compare
  admitsProject _ := true
  admitsFilter fields e :=
    decide (e.AllCompare fun lhs _ _ => (onlyNamed (·.name) fields lhs.name).isSome = true)
  admitsFilter_and _ _ _ := by simp

end RowSemantics

/-- **A plan does what its query means**, if all calls are admitted. -/
theorem visit_interpret {steps : List Step} : ∀ {t : RowTable}, S.Admits t.fields steps →
    ∃ t', t.interpret S.compare steps = some t' ∧
      (rowVisitor S).visit (.build steps) ⟨t, none⟩ = .ok ⟨t', none⟩ := by
  induction steps with
  | nil => exact fun _ => ⟨_, rfl, rfl⟩
  | cons s steps ih =>
      intro t hadm
      rw [PlanVisitor.visit_build, List.foldlM_cons]
      cases s with
      | project names =>
          obtain ⟨hnames, picked, hpicked, hadm⟩ := hadm
          obtain ⟨t₁, ht₁, hfields⟩ := RowTable.exists_project hpicked
          obtain ⟨t', ht', hvisit⟩ := ih (t := t₁) (by rw [hfields]; exact hadm)
          have hstep : (rowVisitor S).visitStep ⟨t, none⟩ (.project names) = .ok ⟨t₁, none⟩ := by
            show (if _ then _ else _) = _
            rw [if_pos hnames, ht₁]
          refine ⟨t', ?_, ?_⟩
          · rw [RowTable.interpret, List.foldlM_cons]
            exact Option.bind_eq_some_iff.mpr ⟨t₁, ht₁, ht'⟩
          · rw [hstep, bind_ok, ← PlanVisitor.visit_build]
            exact hvisit
      | filter e =>
          obtain ⟨he, hadm⟩ := hadm
          obtain ⟨t', ht', hvisit⟩ := ih (t := t.filter (truthOfRow S.compare e)) hadm
          have hstep := visitStep_filter S ⟨t, none⟩ e
          rw [if_pos he] at hstep
          refine ⟨t', ?_, ?_⟩
          · rw [RowTable.interpret, List.foldlM_cons]
            exact ht'
          · rw [hstep, bind_ok, ← PlanVisitor.visit_build]
            exact hvisit

/-- **The optimizer preserves the meaning of plans**: on a table on which all names stand for one
column, the plan and the optimized plan both go through and leave the same rows and columns. -/
theorem optimize_preserves (compare : Compare) (t : RowTable) {steps : List Step}
    (hsteps : steps ≠ []) (hnames : (RowSemantics.resolving compare).Admits t.fields steps) :
    ∃ out, (rowVisitor (.resolving compare)).start (.build steps) ⟨t, none⟩ = .ok out ∧
      (optimize (.build steps) >>= fun plan =>
        (rowVisitor (.resolving compare)).start plan ⟨t, none⟩) = .ok out := by
  obtain ⟨t', -, hvisit⟩ := visit_interpret _ hnames
  have hjoined : (joinSteps steps).reverse ≠ [] := by
    simpa using joinSteps_ne_nil hsteps
  refine ⟨⟨t', none⟩, ?_, ?_⟩
  · rw [PlanVisitor.start_of_ne (LogicalPlan.build_ne_nullptr hsteps), hvisit]
  · rw [optimize_build hsteps, bind_ok,
      PlanVisitor.start_of_ne (LogicalPlan.build_ne_nullptr hjoined), visit_joinSteps, hvisit]

/-- Two rows with two integers each. -/
def twoRows : RowTable where
  fields := [⟨"a", .int32⟩, ⟨"b", .uint8⟩]
  rows := [[⟨"a", .int32, some 7#32⟩, ⟨"b", .uint8, some 1#8⟩],
    [⟨"a", .int32, some 2#32⟩, ⟨"b", .uint8, some 9#8⟩]]
  fields_eq := by decide

/-- A query with two neighbouring filters. -/
def filterTwice : List Step :=
  [.filter ((col "a").gt (lit 1)), .filter ((col "b").lt (lit 5)), .project ["b"]]

theorem optimize_preserves_twoRows :
    ∃ out, (rowVisitor (.resolving Cell.compare)).start (.build filterTwice) ⟨twoRows, none⟩ =
        .ok out ∧
      (optimize (.build filterTwice) >>= fun plan =>
        (rowVisitor (.resolving Cell.compare)).start plan ⟨twoRows, none⟩) = .ok out :=
  optimize_preserves Cell.compare twoRows (by decide) (by decide)

end Pefa
