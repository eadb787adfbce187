import Pefa.Reference.Outcome

/-!
# Queries row by row

What the snapshot of a table that is cut right says about whole classes of tables. Whether a query
throws, and what, depends on the fields of the table and on which columns have a chunk, never on a
cell (`Alike`). And a query that goes through does the same to every row, whatever the other rows
are: there is a function on rows that is the query (`execute_rowWise`). In particular a filter
leaves no trace of how its table was cut into chunks (`execute_layout`).
-/

namespace Pefa

open Rechunk

/-! ## Tables that a query cannot tell apart before it looks at rows -/

/-- What is looked at of a column before its rows. -/
def ColumnShape.kind (s : ColumnShape) : Field × Bool := (s.field, s.hasChunk)

namespace Snapshot

def kinds (s : Snapshot) : List (Field × Bool) := s.shape.map (·.kind)

/-- Snapshots with the same fields, and with chunks in the same columns. -/
def Alike (s s' : Snapshot) : Prop := s.kinds = s'.kinds

theorem map_fst_kinds (s : Snapshot) : s.kinds.map (·.1) = s.fields := by
  rw [kinds, fields, List.map_map]
  rfl

theorem Alike.fields_eq {s s' : Snapshot} (h : Alike s s') : s.fields = s'.fields := by
  rw [← map_fst_kinds, ← map_fst_kinds, h]

end Snapshot

theorem lensOf_ne_nil {c : Nat} (hc : 0 < c) (marks : List Bool) : lensOf c marks ≠ [] := by
  have hmarks : marks = (marks.map fun b => (b, ())).map (·.1) := by
    rw [List.map_map]
    exact (List.map_id marks).symm
  rw [hmarks, ← map_length_rechunk hc]
  simpa using rechunk_ne_nil c _

theorem kind_of_materialized (f : Field) (marks : List Bool) :
    ColumnShape.kind ⟨f, lensOf chunkSize marks⟩ = (f, true) := by
  simp [ColumnShape.kind, ColumnShape.hasChunk, lensOf_ne_nil chunkSize_pos]

/-! ## One call -/

namespace Snapshot

/-- The kinds of the columns after a projection. -/
def projectKinds (kinds : List (Field × Bool)) (names : List String) :
    Except Error (List (Field × Bool)) :=
  names.mapM fun name => deref (onlyNamed (·.1.name) kinds name)

/-- What a filter is read as, on columns of these kinds. -/
def readKinds (kinds : List (Field × Bool)) (e : BooleanExpr) :
    Except Error (Option BooleanExpr) :=
  if kinds.head?.any (·.2) then e.read (kinds.map (·.1)) none else .ok none

def materializeKind (k : Field × Bool) : Except Error (Field × Bool) :=
  if k.1.type.isMaterializable then .ok (k.1, true)
  else .error (.notImplemented ("Type " ++ k.1.type.toString ++ " is not supported yet"))

/-- The kinds of the columns after a filter, and what the filter is read as. -/
def filterKinds (kinds : List (Field × Bool)) (e : BooleanExpr) :
    Except Error (BooleanExpr × List (Field × Bool)) := do
  match ← readKinds kinds e with
  | none => .error .unreachable
  | some e' =>
      let kinds ← kinds.mapM materializeKind
      .ok (e', kinds)

/-- What a call does to a row: nothing is left of a row that does not pass, or of any row if no
column is left. -/
def stepRow (kinds : List (Field × Bool)) (row : List Cell) : Step → Option (List Cell)
  | .project names => if names.isEmpty then none else some (RowTable.pickCells row names)
  | .filter e =>
      match filterKinds kinds e with
      | .ok (e', _) => if truthOfRow Cell.compiled e' row then some row else none
      | .error _ => none

/-- The kinds of the columns after a call. -/
def stepKinds (kinds : List (Field × Bool)) : Step → Except Error (List (Field × Bool))
  | .project names => projectKinds kinds names
  | .filter e => (filterKinds kinds e).map (·.2)

theorem readFilter_eq (s : Snapshot) (e : BooleanExpr) : s.readFilter e = readKinds s.kinds e := by
  rw [readFilter, readKinds, map_fst_kinds, kinds, List.head?_map, Option.any_map]
  rfl

theorem project_rowWise (s : Snapshot) (names : List String) :
    Agree (fun kinds s' => s'.kinds = kinds ∧
        s'.rows = s.rows.filterMap fun row => stepRow s.kinds row (.project names))
      (projectKinds s.kinds names) (s.project names) := by
  have hpick : ∀ name name' : String, name = name' →
      Agree (fun (k : Field × Bool) c => k = ColumnShape.kind c)
        (deref (onlyNamed (·.1.name) s.kinds name))
        (deref (onlyNamed (·.field.name) s.shape name')) := by
    rintro name _ rfl
    rw [kinds, onlyNamed_map]
    show Agree _ (deref ((onlyNamed (·.field.name) s.shape name).map _)) _
    cases onlyNamed (·.field.name) s.shape name with
    | none => exact .error _
    | some c => exact .ok rfl
  have hagree := Agree.mapM hpick (List.forall₂_same.mpr fun name (_ : name ∈ names) => rfl)
  rw [projectKinds, project, ← bind_pure (names.mapM _)]
  refine hagree.bind fun kinds shape hshape => .ok ⟨?_, ?_⟩
  · exact (List.forall₂_eq_eq_eq ▸ List.forall₂_map_right_iff.mpr hshape : kinds = _).symm
  · show (if names.isEmpty then [] else s.rows.map (RowTable.pickCells · names)) = _
    cases names with
    | nil => simp [stepRow]
    | cons name names => simp [stepRow]

theorem materialize_rowWise (s : Snapshot) (marks : List Bool) :
    Agree (fun kinds shape => shape.map (·.kind) = kinds) (s.kinds.mapM materializeKind)
      (s.shape.mapM (materializeShape (lensOf chunkSize marks))) := by
  have hcolumn : ∀ (k : Field × Bool) (c : ColumnShape), k = c.kind →
      Agree (fun k' c' => k' = ColumnShape.kind c') (materializeKind k)
        (materializeShape (lensOf chunkSize marks) c) := by
    rintro _ c rfl
    unfold materializeKind materializeShape
    show Agree _ (if c.field.type.isMaterializable then _ else _) _
    split
    · exact .ok (kind_of_materialized _ _).symm
    · exact .error _
  have hcolumns : List.Forall₂ (fun k c => k = ColumnShape.kind c) s.kinds s.shape :=
    List.forall₂_map_left_iff.mpr (List.forall₂_same.mpr fun _ _ => rfl)
  refine (Agree.mapM hcolumn hcolumns).imp fun kinds shape h => ?_
  exact (List.forall₂_eq_eq_eq ▸ List.forall₂_map_right_iff.mpr h : kinds = _).symm

theorem filter_rowWise (s : Snapshot) (e : BooleanExpr) :
    Agree (fun kinds s' => s'.kinds = kinds ∧
        s'.rows = s.rows.filterMap fun row => stepRow s.kinds row (.filter e))
      ((filterKinds s.kinds e).map (·.2)) (s.filter e) := by
  unfold filter stepRow filterKinds
  rw [readFilter_eq]
  cases hread : readKinds s.kinds e with
  | error err => exact .error err
  | ok read =>
      cases read with
      | none => exact .error _
      | some e' =>
          have hagree := materialize_rowWise s (s.rows.map (truthOfRow Cell.compiled e'))
          simp only [bind_ok]
          cases hkinds : s.kinds.mapM materializeKind with
          | error err =>
              rw [hkinds] at hagree
              rw [hagree.error_left]
              exact .error err
          | ok kinds =>
              rw [hkinds] at hagree
              obtain ⟨shape, hshape, hkind⟩ := hagree.ok_left
              rw [hshape]
              refine .ok ⟨hkind, ?_⟩
              simp only [hread, bind_ok]
              rw [← List.filterMap_eq_filter]
              exact List.filterMap_congr fun row _ => rfl

/-- **One call** does to every row what it does to any. -/
theorem step_rowWise (s : Snapshot) (call : Step) :
    Agree (fun kinds s' => s'.kinds = kinds ∧
        s'.rows = s.rows.filterMap fun row => stepRow s.kinds row call)
      (stepKinds s.kinds call) (s.step call) := by
  cases call with
  | project names => exact project_rowWise s names
  | filter e => exact filter_rowWise s e

/-! ## Queries -/

/-- What a sequence of calls does to a row. -/
def runRow (kinds : List (Field × Bool)) : List Step → List Cell → Option (List Cell)
  | [], row => some row
  | call :: calls, row =>
      match stepKinds kinds call with
      | .ok kinds' => (stepRow kinds row call).bind (runRow kinds' calls)
      | .error _ => none

/-- **A sequence of calls** does to every row what it does to any. -/
theorem run_rowWise (calls : List Step) : ∀ s : Snapshot,
    Agree (fun kinds s' => s'.kinds = kinds ∧ s'.rows = s.rows.filterMap (runRow s.kinds calls))
      (calls.foldlM stepKinds s.kinds) (calls.foldlM step s) := by
  induction calls with
  | nil => exact fun s => .ok ⟨rfl, by simp [runRow]⟩
  | cons call calls ih =>
      intro s
      rw [List.foldlM_cons, List.foldlM_cons]
      have hstep := step_rowWise s call
      cases hkinds : stepKinds s.kinds call with
      | error err =>
          rw [hkinds] at hstep
          rw [hstep.error_left]
          exact .error err
      | ok kinds =>
          rw [hkinds] at hstep
          obtain ⟨s', hs', rfl, hrows⟩ := hstep.ok_left
          rw [hs', bind_ok, bind_ok]
          refine (ih s').imp fun kinds s'' h => ⟨h.1, ?_⟩
          rw [h.2, hrows, List.filterMap_filterMap]
          simp only [runRow, hkinds]

/-- The kinds that the columns of a table have for a context to be built. -/
def contextKinds (kinds : List (Field × Bool)) : Except Error Unit := do
  let _ ← kinds.mapM fun k => if k.2 then do
      let _ ← createEmptyChunkMetadata k.1.type
      .ok ()
    else .ok ()
  .ok ()

theorem checkContext_eq (shape : List ColumnShape) :
    checkContext shape = contextKinds (shape.map (·.kind)) := by
  rw [checkContext, contextKinds, List.mapM_map]
  rfl

/-- What becomes of the columns in a query, decided by the kinds of the columns alone. -/
def queryKinds (kinds : List (Field × Bool)) (steps : List Step) :
    Except Error (List (Field × Bool)) :=
  if steps = [] then .error .nullDeref
  else do
    contextKinds kinds
    (joinSteps steps).reverse.foldlM stepKinds kinds

/-- What becomes of a row in a query. -/
def queryRow (kinds : List (Field × Bool)) (steps : List Step) : List Cell → Option (List Cell) :=
  runRow kinds (joinSteps steps).reverse

theorem execute_kinds (s : Snapshot) (steps : List Step) :
    Agree (fun kinds s' => s'.kinds = kinds ∧ s'.rows = s.rows.filterMap (queryRow s.kinds steps))
      (queryKinds s.kinds steps) (s.execute steps) := by
  unfold queryKinds execute
  split
  · exact .error _
  · rw [checkContext_eq]
    show Agree _ (contextKinds s.kinds >>= _) (contextKinds s.kinds >>= _)
    cases contextKinds s.kinds with
    | error err => exact .error err
    | ok u => exact run_rowWise _ s

/-- A query on rows of the same kinds, one after the other. -/
theorem rows_execute_append {s s₁ s₂ : Snapshot} (h₁ : Alike s₁ s) (h₂ : Alike s₂ s)
    (hrows : s.rows = s₁.rows ++ s₂.rows) (steps : List Step) :
    (s.execute steps).map (·.rows) = (do
      let out₁ ← s₁.execute steps
      let out₂ ← s₂.execute steps
      .ok (out₁.rows ++ out₂.rows)) := by
  have hq := s.execute_kinds steps
  have hq₁ := s₁.execute_kinds steps
  have hq₂ := s₂.execute_kinds steps
  rw [h₁] at hq₁
  rw [h₂] at hq₂
  cases hk : queryKinds s.kinds steps with
  | error err =>
      rw [hk] at hq hq₁
      rw [hq.error_left, hq₁.error_left]
      rfl
  | ok kinds =>
      rw [hk] at hq hq₁ hq₂
      obtain ⟨out, hout, -, ho⟩ := hq.ok_left
      obtain ⟨out₁, hout₁, -, ho₁⟩ := hq₁.ok_left
      obtain ⟨out₂, hout₂, -, ho₂⟩ := hq₂.ok_left
      rw [hout, hout₁, hout₂, bind_ok, bind_ok, ho₁, ho₂, ← List.filterMap_append, ← hrows, ← ho]
      rfl

end Snapshot

/-- The kinds of the columns of a table. -/
def Table.kinds (t : Table) : List (Field × Bool) := t.snapshot.kinds

/-- **A query is a function on rows**: on all tables that are cut right and have the same fields,
and chunks in the same columns, it throws the same exception, or it does the same to every row of
any of them. The rows are those at the front of the value buffers. -/
theorem execute_rowWise {t : Table} (h : Laid t) (steps : List Step) :
    Agree (fun kinds out => out.kinds = kinds ∧
        out.frontRows.rows = t.frontRows.rows.filterMap (Snapshot.queryRow t.kinds steps))
      (Snapshot.queryKinds t.kinds steps) (execute (.build steps) t) := by
  have hkinds := Snapshot.execute_kinds t.snapshot steps
  have hagree := execute_agrees h steps
  show Agree _ (Snapshot.queryKinds t.snapshot.kinds steps) _
  cases hs : t.snapshot.execute steps with
  | error err =>
      rw [hs] at hkinds hagree
      rw [hagree.error_left]
      generalize Snapshot.queryKinds _ _ = x at hkinds ⊢
      cases hkinds
      exact .error err
  | ok s =>
      rw [hs] at hkinds hagree
      obtain ⟨kinds, hk, hkinds, hrows⟩ := hkinds.ok_right
      obtain ⟨out, hout, -, rfl⟩ := hagree.ok_left
      rw [hk, hout]
      exact .ok ⟨hkinds, hrows⟩

theorem execute_rowWise_nineRows :
    Agree (fun kinds out => out.kinds = kinds ∧
        out.frontRows.rows =
          nineRows.frontRows.rows.filterMap (Snapshot.queryRow nineRows.kinds filterTwice))
      (Snapshot.queryKinds nineRows.kinds filterTwice) (execute (.build filterTwice) nineRows) :=
  execute_rowWise readable_nineRows.laid filterTwice

/-- **A query distributes over the parts of a table**: on a table that has the rows of two tables
of its kinds, all three cut right, it returns the rows it returns on the one and then those it
returns on the other, and throws what it throws on either. -/
theorem execute_append {t t₁ t₂ : Table} (h : Laid t) (h₁ : Laid t₁) (h₂ : Laid t₂)
    (hkinds₁ : t₁.kinds = t.kinds) (hkinds₂ : t₂.kinds = t.kinds)
    (hrows : t.frontRows.rows = t₁.frontRows.rows ++ t₂.frontRows.rows) (steps : List Step) :
    (execute (.build steps) t).map (·.frontRows.rows) = (do
      let out₁ ← execute (.build steps) t₁
      let out₂ ← execute (.build steps) t₂
      .ok (out₁.frontRows.rows ++ out₂.frontRows.rows)) := by
  have hsnapshot : ∀ {t : Table}, Laid t →
      (execute (.build steps) t).map Table.snapshot = t.snapshot.execute steps := fun h =>
    ((execute_agrees h steps).imp fun _ _ h => h.2).map_eq
  have happend := Snapshot.rows_execute_append hkinds₁ hkinds₂ hrows steps
  rw [← hsnapshot h, ← hsnapshot h₁, ← hsnapshot h₂] at happend
  generalize execute (.build steps) t = x, execute (.build steps) t₁ = x₁,
    execute (.build steps) t₂ = x₂ at happend ⊢
  cases x <;> cases x₁ <;> cases x₂ <;> exact happend

/-- The first eight of the nine rows. -/
def firstEight : Table :=
  ⟨[⟨"a", .int32, ⟨[.ofList (List.replicate 8 7#32) (by decide)], by decide⟩⟩,
    ⟨"b", .uint8, ⟨[.ofList (List.replicate 8 1#8) (by decide)], by decide⟩⟩]⟩

/-- The last of them. -/
def lastOne : Table :=
  ⟨[⟨"a", .int32, ⟨[.ofList (List.replicate 1 2#32) (by decide)], by decide⟩⟩,
    ⟨"b", .uint8, ⟨[.ofList [1#8] (by decide)], by decide⟩⟩]⟩

theorem laid_of_few {t : Table} (hvalid : t.Valid) (hrows : t.numRows < 2 ^ 31)
    (hchunks : ∀ c ∈ t.columns, c.data.numChunks < 2 ^ 31)
    (hheads : ∀ c ∈ t.columns, HeadsReached c.data.lens) : Laid t :=
  ⟨hvalid, hrows, fun c hc => counted_of_lt (hchunks c hc), hheads⟩

theorem execute_append_nineRows :
    (execute (.build filterTwice) nineRows).map (·.frontRows.rows) = (do
      let out₁ ← execute (.build filterTwice) firstEight
      let out₂ ← execute (.build filterTwice) lastOne
      .ok (out₁.frontRows.rows ++ out₂.frontRows.rows)) :=
  execute_append readable_nineRows.laid
    (laid_of_few (by decide) (by decide) (by decide) (by decide))
    (laid_of_few (by decide) (by decide) (by decide) (by decide)) (by decide) (by decide)
    (by decide) filterTwice

/-! ## Layouts -/

namespace Snapshot

theorem materialize_fields (s : Snapshot) (lens : List Nat) :
    s.shape.mapM (materializeShape lens) =
      s.fields.mapM fun f => materializeShape lens ⟨f, []⟩ := by
  rw [fields, List.mapM_map]
  rfl

/-- A filter does not see how its table is cut. -/
theorem filter_layout {s s' : Snapshot} (hkinds : Alike s s') (hrows : s.rows = s'.rows)
    (e : BooleanExpr) : s.filter e = s'.filter e := by
  unfold filter
  rw [readFilter_eq, readFilter_eq, hkinds]
  simp only [materialize_fields, hkinds.fields_eq, hrows]

theorem project_layout {s s' : Snapshot} (hkinds : Alike s s') (hrows : s.rows = s'.rows)
    (names : List String) :
    Agree (fun a b => Alike a b ∧ a.rows = b.rows) (s.project names) (s'.project names) := by
  have h := project_rowWise s names
  have h' := project_rowWise s' names
  rw [← hkinds, ← hrows] at h'
  cases hk : projectKinds s.kinds names with
  | error err =>
      rw [hk] at h h'
      rw [h.error_left, h'.error_left]
      exact .error err
  | ok kinds =>
      rw [hk] at h h'
      obtain ⟨a, ha, hka, hra⟩ := h.ok_left
      obtain ⟨b, hb, hkb, hrb⟩ := h'.ok_left
      rw [ha, hb]
      exact .ok ⟨hka.trans hkb.symm, hra.trans hrb.symm⟩

/-- **After a filter** nothing is left of how the table was cut. -/
theorem run_layout {calls : List Step} : ∀ {s s' : Snapshot}, calls.any Step.isFilter = true →
    Alike s s' → s.rows = s'.rows → calls.foldlM step s = calls.foldlM step s' := by
  induction calls with
  | nil => exact fun hany => by cases hany
  | cons call calls ih =>
      intro s s' hany hkinds hrows
      rw [List.foldlM_cons, List.foldlM_cons]
      cases call with
      | filter e =>
          show s.filter e >>= _ = s'.filter e >>= _
          rw [filter_layout hkinds hrows]
      | project names =>
          have hagree := project_layout hkinds hrows names
          show s.project names >>= _ = s'.project names >>= _
          generalize s.project names = x, s'.project names = y at hagree ⊢
          cases hagree with
          | error err => rfl
          | ok h => exact ih (by simpa [Step.isFilter] using hany) h.1 h.2

end Snapshot

/-- **The layout of a table does not show**, as long as it is right: two tables with the same rows
at the front of their value buffers, cut right but at different places, have the same result after
every query with a filter, the chunks of the result included. -/
theorem execute_layout {t t' : Table} (h : Laid t) (h' : Laid t') (hkinds : t.kinds = t'.kinds)
    (hrows : t.frontRows.rows = t'.frontRows.rows) {steps : List Step}
    (hfilter : steps.any Step.isFilter = true) :
    (execute (.build steps) t).map Table.snapshot =
      (execute (.build steps) t').map Table.snapshot := by
  have hsteps : steps ≠ [] := by
    rintro rfl
    cases hfilter
  have hcheck : checkContext t.snapshot.shape = checkContext t'.snapshot.shape := by
    rw [Snapshot.checkContext_eq, Snapshot.checkContext_eq]
    exact congrArg Snapshot.contextKinds hkinds
  rw [((execute_agrees h steps).imp fun _ _ h => h.2).map_eq,
    ((execute_agrees h' steps).imp fun _ _ h => h.2).map_eq, Snapshot.execute, Snapshot.execute,
    if_neg hsteps, if_neg hsteps, hcheck]
  rw [Snapshot.run_layout (by rwa [List.any_reverse, joinSteps_isFilter]) hkinds hrows]

/-- The nine rows, cut elsewhere. -/
def nineRowsCut : Table :=
  ⟨[⟨"a", .int32, ⟨[.ofList (List.replicate 8 7#32 ++ [2#32]) (by decide)], by decide⟩⟩,
    ⟨"b", .uint8, ⟨[.ofList [1#8] (by decide), .ofList (List.replicate 8 1#8) (by decide)],
      by decide⟩⟩]⟩

theorem execute_layout_nineRows :
    (execute (.build filterTwice) nineRows).map Table.snapshot =
      (execute (.build filterTwice) nineRowsCut).map Table.snapshot :=
  execute_layout readable_nineRows.laid
    (laid_of_few (by decide) (by decide) (by decide) (by decide)) (by decide) (by decide)
    (by decide)

end Pefa
