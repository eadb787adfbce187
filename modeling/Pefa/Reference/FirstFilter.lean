import Pefa.Reference.Simulation

/-!
# The first filter of a query

A table that was materialized has a chunk in every column, no offsets and no nulls, whatever went
in. So what is odd about the table of a query matters up to the first filter only: which columns
that filter sees (`firstFiltered`), whether the first of them has a chunk to look at, and whether
an `int` can count the rows.

This module follows the calls of a query one by one. The calls executed are those of the optimized
plan, in which neighbouring filters are joined; `joinSteps_congr` carries over to them whatever
cannot tell a joined filter from its two parts.
-/

namespace Pefa

/-! ## Joined calls -/

/-- What cannot tell a joined filter from its parts cannot tell the joined calls from the calls. -/
theorem joinSteps_congr {β : Type} {f : List Step → β}
    (h : ∀ before e e' after, f (before ++ .filter e :: .filter e' :: after) =
      f (before ++ .filter (e.and e') :: after)) (steps after : List Step) :
    f ((joinSteps steps).reverse ++ after) = f (steps ++ after) := by
  induction steps using List.reverseRecOn generalizing after with
  | nil => rfl
  | append_singleton steps s ih =>
      rw [joinSteps_concat, List.append_assoc, List.singleton_append, ← ih (s :: after)]
      cases s with
      | project columns =>
          rw [joinStep_project, List.reverse_cons, List.append_assoc, List.singleton_append]
      | filter e' =>
          cases joinSteps steps with
          | nil => rfl
          | cons s calls =>
              cases s with
              | project columns =>
                  rw [joinStep_project_filter, List.reverse_cons, List.append_assoc,
                    List.singleton_append]
              | filter e =>
                  rw [joinStep_filter_filter, List.reverse_cons, List.reverse_cons,
                    List.append_assoc, List.append_assoc, List.singleton_append,
                    List.singleton_append, h]

variable {S : RowSemantics}

theorem admits_joinSteps (S : RowSemantics) (fields : List Field) (steps : List Step) :
    S.Admits fields (joinSteps steps).reverse = S.Admits fields steps := by
  have hjoin : ∀ before e e' after, S.Admits fields (before ++ .filter e :: .filter e' :: after) =
      S.Admits fields (before ++ .filter (e.and e') :: after) := by
    intro before
    induction before generalizing fields with
    | nil =>
        intro e e' after
        simp only [List.nil_append, RowSemantics.Admits, S.admitsFilter_and, Bool.and_eq_true,
          and_assoc]
    | cons s before ih =>
        intro e e' after
        cases s with
        | project names => simp only [List.cons_append, RowSemantics.Admits, ih]
        | filter e₀ => simp only [List.cons_append, RowSemantics.Admits, ih]
  simpa using joinSteps_congr hjoin steps []

/-- Joining filters does not change what a query means. -/
theorem interpret_joinSteps (compare : Compare) (t : RowTable) (steps : List Step) :
    t.interpret compare (joinSteps steps).reverse = t.interpret compare steps := by
  have hjoin : ∀ before e e' after,
      t.interpret compare (before ++ .filter e :: .filter e' :: after) =
        t.interpret compare (before ++ .filter (e.and e') :: after) := by
    intro before e e' after
    simp only [RowTable.interpret, List.foldlM_append, List.foldlM_cons]
    refine congrArg (before.foldlM (RowTable.step compare) t >>= ·) (funext fun t₁ => ?_)
    show after.foldlM _ ((t₁.filter _).filter _) = after.foldlM _ (t₁.filter _)
    rw [RowTable.filter_and]
  simpa using joinSteps_congr hjoin steps []

/-! ## The columns that the first filter sees -/

/-- The columns of the table that the first filter of a query is evaluated on, if there is a
filter and the names before it stand for columns. -/
def firstFiltered : List Column → List Step → Option (List Column)
  | _, [] => none
  | columns, .project names :: steps => do
      let columns ← names.mapM (onlyNamed (·.name) columns)
      firstFiltered columns steps
  | columns, .filter _ :: _ => some columns

theorem firstFiltered_joinSteps (columns : List Column) (steps : List Step) :
    firstFiltered columns (joinSteps steps).reverse = firstFiltered columns steps := by
  have hjoin : ∀ before e e' after,
      firstFiltered columns (before ++ .filter e :: .filter e' :: after) =
        firstFiltered columns (before ++ .filter (e.and e') :: after) := by
    intro before
    induction before generalizing columns with
    | nil => exact fun _ _ _ => rfl
    | cons s before ih =>
        intro e e' after
        cases s with
        | project names => simp only [List.cons_append, firstFiltered, ih]
        | filter e₀ => rfl
  simpa using joinSteps_congr hjoin steps []

theorem firstFiltered_project {columns cols : List Column} {names : List String}
    (h : Picks columns names cols) (steps : List Step) :
    firstFiltered columns (.project names :: steps) = firstFiltered cols steps := by
  rw [firstFiltered, mapM_eq_some.mpr h]
  rfl

/-- The first of the columns that the first filter sees has a chunk. -/
def FirstHasChunk (columns : List Column) (steps : List Step) : Prop :=
  ∀ cols ∈ firstFiltered columns steps, ∀ c ∈ cols.head?, c.data.chunks ≠ []

theorem FirstHasChunk.project {columns cols : List Column} {names : List String}
    {steps : List Step} (h : FirstHasChunk columns (.project names :: steps))
    (hcols : Picks columns names cols) : FirstHasChunk cols steps := by
  rwa [FirstHasChunk, firstFiltered_project hcols] at h

/-- Where every column has a chunk, so have the columns that a filter sees later. -/
theorem HasChunks.firstHasChunk {columns : List Column} (h : HasChunks ⟨columns⟩) :
    ∀ steps : List Step, FirstHasChunk columns steps := by
  intro steps
  induction steps generalizing columns with
  | nil => exact fun _ hcols => by cases hcols
  | cons s steps ih =>
      cases s with
      | filter e =>
          intro cols hcols c hc
          cases hcols
          exact h c (List.mem_of_mem_head? hc)
      | project names =>
          intro cols hcols c hc
          obtain ⟨picked, hpicked, hcols⟩ := Option.bind_eq_some_iff.mp hcols
          have hpicks : Picks columns names picked := mapM_eq_some.mp hpicked
          exact ih (fun c hc => h c (hpicks.mem hc)) cols hcols c hc

/-! ## The calls one by one -/

/-- `ExecutePlanVisitor` with the operations of the program. -/
abbrev executor : PlanVisitor ExecutionContext := executePlanVisitor executionOps

/-- **What is executed**: the joined calls, one after another. -/
theorem execute_steps {steps : List Step} (h : steps ≠ []) (table : Table) :
    execute (.build steps) table = (do
      let ctx ← ExecutionContext.create table
      let ctx ← (joinSteps steps).reverse.foldlM executor.visitStep ctx
      .ok ctx.table) := by
  rw [execute_build h]
  simp only [PlanVisitor.visit_build]

theorem visitStep_project (ctx : ExecutionContext) (names : List String) :
    executor.visitStep ctx (.project names) = project ctx names := rfl

theorem visitStep_filter_ok {ctx ctx' : ExecutionContext} {e : BooleanExpr} :
    executor.visitStep ctx (.filter e) = .ok ctx' ↔
      ∃ ctx₁, generateFilterBitmap ctx e = .ok ctx₁ ∧ materializeFilter ctx₁ = .ok ctx' :=
  bind_eq_ok

/-- A projection has the fields picked. -/
theorem fields_of_project {ctx ctx' : ExecutionContext} {names : List String}
    {picked : List Field} (h : project ctx names = .ok ctx')
    (hpicked : RowTable.pickFields ctx.table.fields names = some picked) :
    ctx'.table.fields = picked := by
  obtain ⟨cols, hcols, htable⟩ := project_picks h
  obtain ⟨cols', hcols', rfl⟩ := pickFields_columns hpicked
  rw [htable, hcols.unique hcols']
  rfl

/-- A run without filters reads nothing: whatever the cells of a column are, it goes through and
leaves what the calls mean. -/
theorem run_projections (hS : S.Compiled)
    (cells : (c : Column) → List (Option c.type.CType)) {calls : List Step} :
    ∀ {ctx : ExecutionContext}, calls.any Step.isFilter = false → ctx.table.Valid →
    (∀ c ∈ ctx.table.columns, ∃ m, createEmptyChunkMetadata c.type = .ok m) →
    S.Admits ctx.table.fields calls →
    ∃ ctx', calls.foldlM executor.visitStep ctx = .ok ctx' ∧
      (ctx.table.rowsBy cells).interpret S.compare calls = some (ctx'.table.rowsBy cells) := by
  induction calls with
  | nil => exact fun _ _ _ _ => ⟨_, rfl, rfl⟩
  | cons s calls ih =>
      intro ctx hnone hvalid hmeta hadm
      rw [List.foldlM_cons, RowTable.interpret, List.foldlM_cons]
      cases s with
      | filter e => simp [Step.isFilter] at hnone
      | project names =>
          obtain ⟨hnames, picked, hpicked, hadm⟩ := hadm
          obtain ⟨rt, hrt, -⟩ := RowTable.exists_project (t := ctx.table.rowsBy cells) hpicked
          obtain ⟨ctx₁, hctx₁, -, hmem, hnum, hrows⟩ := project_rows cells hvalid hmeta
            (hS.project hnames) hrt
          obtain ⟨ctx', hctx', hmeaning⟩ := ih (by simpa [Step.isFilter] using hnone)
            (fun c hc => by rw [hnum, hvalid c (hmem c hc)]) (fun c hc => hmeta c (hmem c hc))
            (by rw [fields_of_project hctx₁ hpicked]; exact hadm)
          refine ⟨ctx', by rw [visitStep_project, hctx₁, bind_ok, hctx'], ?_⟩
          exact Option.bind_eq_some_iff.mpr ⟨rt, hrt, by rw [← hrows]; exact hmeaning⟩

/-- **A run with a filter goes through only if an `int` can count the rows.** -/
theorem run_rows_lt (hS : S.Compiled) {n : Nat} {calls : List Step} :
    ∀ {ctx ctx' : ExecutionContext}, calls.any Step.isFilter = true →
    (∀ c ∈ ctx.table.columns, c.data.length = n) → S.Admits ctx.table.fields calls →
    calls.foldlM executor.visitStep ctx = .ok ctx' → n < 2 ^ 31 := by
  induction calls with
  | nil => exact fun hany => by cases hany
  | cons s calls ih =>
      intro ctx ctx' hany hlen hadm hrun
      rw [List.foldlM_cons] at hrun
      obtain ⟨ctx₁, hctx₁, hrest⟩ := bind_eq_ok.mp hrun
      cases s with
      | project names =>
          obtain ⟨-, picked, hpicked, hadm⟩ := hadm
          exact ih (by simpa [Step.isFilter] using hany)
            (fun c hc => hlen c (project_mem hctx₁ c hc))
            (by rw [fields_of_project hctx₁ hpicked]; exact hadm) hrest
      | filter e =>
          obtain ⟨hfree, hleaves⟩ := hS.filter hadm.1
          obtain ⟨lhs, l, op, hleaf⟩ := exists_leaf hleaves hfree.startsWithConst_eq
          obtain ⟨c, hcol, -⟩ := hleaf.column
          have hmem := (Table.getColumnByName_mem hcol).1
          -- the column of the leaf is materialized, and its rows are counted in an `int`
          obtain ⟨ctx₂, hctx₂, hmat⟩ := visitStep_filter_ok.mp hctx₁
          have hmade := materializeFilter_madeBy hmat
          rw [generateFilterBitmap_table hctx₂] at hmade
          obtain ⟨c', -, data, -, hdata⟩ := forall₂_mem_left hmade hmem
          rw [← hlen c hmem]
          exact hdata.rows

end Pefa
