import Pefa.Reference.RowWise

/-!
# Queries on the results of queries

A query may be built in two parts, and the second part executed on what the first part returns.
Then a filter at the end of the first part and one at the beginning of the second are not joined:
between them a table is materialized, cut anew and given to a new context. Except for the cuts
between the chunks the result is the same, and there is one if and only if executing the whole query
has one (`execute_execute`).

The second part has to have no filter that starts with a constant. Such a filter is read with what
stands before it, and on the result of the first part nothing does.
-/

namespace Pefa

/-! ## Tables without their cuts -/

/-- What is left of a table when the cuts between its chunks are forgotten: the kinds of its
columns, and its rows. -/
structure Outline where
  kinds : List (Field × Bool)
  rows : List (List Cell)

def Snapshot.outline (s : Snapshot) : Outline := ⟨s.kinds, s.rows⟩

def Table.outline (t : Table) : Outline := t.snapshot.outline

namespace Outline

/-- One call. -/
def step (o : Outline) (call : Step) : Except Error Outline := do
  let kinds ← Snapshot.stepKinds o.kinds call
  .ok ⟨kinds, o.rows.filterMap (Snapshot.stepRow o.kinds · call)⟩

/-- One call after another. -/
def run (calls : List Step) (o : Outline) : Except Error Outline := calls.foldlM step o

theorem run_append (calls calls' : List Step) (o : Outline) :
    run (calls ++ calls') o = run calls o >>= run calls' := List.foldlM_append

theorem run_concat {calls : List Step} {call : Step} {o o'' : Outline} :
    run (calls ++ [call]) o = .ok o'' ↔ ∃ o', run calls o = .ok o' ∧ o'.step call = .ok o'' := by
  rw [run_append, bind_eq_ok]
  refine exists_congr fun o' => and_congr_right fun _ => ?_
  show (o'.step call >>= pure) = .ok o'' ↔ _
  rw [bind_pure]

end Outline

/-- The calls of a query see no cut. -/
theorem Snapshot.step_outline (s : Snapshot) (call : Step) :
    Agree (fun o s' => Snapshot.outline s' = o) (s.outline.step call) (s.step call) := by
  have h := step_rowWise s call
  show Agree _ (stepKinds s.kinds call >>= _) _
  cases hkinds : stepKinds s.kinds call with
  | error err =>
      rw [hkinds] at h
      rw [h.error_left]
      exact .error err
  | ok kinds =>
      rw [hkinds] at h
      obtain ⟨s', hs', hkinds', hrows⟩ := h.ok_left
      rw [hs', bind_ok]
      exact .ok (by rw [outline, hkinds', hrows]; rfl)

/-! ## Filters that are joined -/

/-- The call is a filter whose leftmost leaf is a constant. -/
def Step.startsWithConst : Step → Bool
  | .project _ => false
  | .filter e => e.startsWithConst

/-- What stands before a tree does not matter if the tree does not start with a constant. -/
theorem BooleanExpr.read_left {fields : List Field} : ∀ {e : BooleanExpr},
    e.startsWithConst = false → ∀ left, e.read fields left = e.read fields none := by
  intro e
  induction e with
  | booleanConst value => exact fun h => by cases h
  | predicateExpr lhs rhs op ihl ihr =>
      intro h left
      rw [BooleanExpr.read, BooleanExpr.read, ihl h]
  | compareExpr lhs l op => exact fun _ _ => rfl

namespace Snapshot

variable {kinds : List (Field × Bool)} {e e' : BooleanExpr}

/-- **Two filters that are joined** are read as the two. -/
theorem readKinds_and (h : e'.startsWithConst = false) {r : BooleanExpr} :
    readKinds kinds (e.and e') = .ok (some r) ↔ ∃ p q, readKinds kinds e = .ok (some p) ∧
      readKinds kinds e' = .ok (some q) ∧ r = p.and q := by
  unfold readKinds
  split
  · rw [BooleanExpr.and, BooleanExpr.read, bind_eq_ok]
    constructor
    · rintro ⟨p, hp, hr⟩
      obtain ⟨q, hq, hr⟩ := bind_eq_ok.mp hr
      rw [BooleanExpr.read_left h] at hq
      cases p with
      | none => cases hr
      | some p =>
          cases q with
          | none => cases hr
          | some q =>
              rw [h] at hr
              cases hr
              exact ⟨p, q, hp, hq, rfl⟩
    · rintro ⟨p, q, hp, hq, rfl⟩
      refine ⟨some p, hp, ?_⟩
      rw [BooleanExpr.read_left h, hq, bind_ok, h]
      rfl
  · constructor
    · intro h
      cases h
    · rintro ⟨p, q, hp, -⟩
      cases hp

/-- The kinds of the columns after a materialization. -/
def materialized (kinds : List (Field × Bool)) : List (Field × Bool) :=
  kinds.map fun k => (k.1, true)

theorem materialized_materialized (kinds : List (Field × Bool)) :
    materialized (materialized kinds) = materialized kinds := by
  rw [materialized, materialized, List.map_map]
  rfl

theorem mapM_materializeKind {kinds' : List (Field × Bool)} :
    kinds.mapM materializeKind = .ok kinds' ↔
      (∀ k ∈ kinds, k.1.type.isMaterializable = true) ∧ kinds' = materialized kinds := by
  induction kinds generalizing kinds' with
  | nil =>
      constructor
      · intro h
        cases h
        exact ⟨fun _ hk => absurd hk List.not_mem_nil, rfl⟩
      · rintro ⟨-, rfl⟩
        rfl
  | cons k kinds ih =>
      rw [List.mapM_cons, List.forall_mem_cons, bind_eq_ok]
      unfold materializeKind
      constructor
      · rintro ⟨k', hk', h⟩
        obtain ⟨rest, hrest, h⟩ := bind_eq_ok.mp h
        split at hk'
        · next htype =>
            cases hk'
            cases h
            obtain ⟨hall, rfl⟩ := ih.mp hrest
            exact ⟨⟨htype, hall⟩, rfl⟩
        · cases hk'
      · rintro ⟨⟨htype, hall⟩, rfl⟩
        exact ⟨_, if_pos htype, bind_eq_ok.mpr ⟨_, ih.mpr ⟨hall, rfl⟩, rfl⟩⟩

theorem filterKinds_eq_ok {r : BooleanExpr} {kinds' : List (Field × Bool)} :
    filterKinds kinds e = .ok (r, kinds') ↔ readKinds kinds e = .ok (some r) ∧
      (∀ k ∈ kinds, k.1.type.isMaterializable = true) ∧ kinds' = materialized kinds := by
  unfold filterKinds
  rw [← mapM_materializeKind, bind_eq_ok]
  constructor
  · rintro ⟨read, hread, h⟩
    cases read with
    | none => cases h
    | some r' =>
        obtain ⟨kinds'', hkinds, h⟩ := bind_eq_ok.mp h
        cases h
        exact ⟨hread, hkinds⟩
  · rintro ⟨hread, hkinds⟩
    exact ⟨some r, hread, bind_eq_ok.mpr ⟨kinds', hkinds, rfl⟩⟩

/-- What is read is read on what a materialization leaves too. -/
theorem readKinds_materialized {r : BooleanExpr} (h : readKinds kinds e = .ok (some r))
    (e' : BooleanExpr) : readKinds (materialized kinds) e' = readKinds kinds e' := by
  have hhead : kinds.head?.any (·.2) = true := by
    unfold readKinds at h
    split at h
    · next hhead => exact hhead
    · cases h
  have hhead' : (materialized kinds).head?.any (·.2) = true := by
    cases kinds with
    | nil => cases hhead
    | cons k kinds => rfl
  have hfields : (materialized kinds).map (·.1) = kinds.map (·.1) := by
    rw [materialized, List.map_map]
    rfl
  rw [readKinds, readKinds, if_pos hhead, if_pos hhead', hfields]

end Snapshot

namespace Outline

open Snapshot

variable {o o' o'' : Outline} {e e' : BooleanExpr}

/-- **What a filter returns, and when.** -/
theorem step_filter : o.step (.filter e) = .ok o' ↔ ∃ r, readKinds o.kinds e = .ok (some r) ∧
    (∀ k ∈ o.kinds, k.1.type.isMaterializable = true) ∧
    o' = ⟨materialized o.kinds, o.rows.filter (truthOfRow Cell.compiled r)⟩ := by
  have hstep : ∀ r kinds, filterKinds o.kinds e = .ok (r, kinds) → o.step (.filter e) =
      .ok ⟨kinds, o.rows.filter (truthOfRow Cell.compiled r)⟩ := by
    intro r kinds h
    have hrows : o.rows.filterMap (Snapshot.stepRow o.kinds · (.filter e)) =
        o.rows.filter (truthOfRow Cell.compiled r) := by
      rw [← List.filterMap_eq_filter]
      refine List.filterMap_congr fun row _ => ?_
      simp only [stepRow, h]
      rfl
    show (stepKinds o.kinds (.filter e) >>= _) = _
    rw [stepKinds, h, hrows]
    rfl
  cases hfilter : filterKinds o.kinds e with
  | error err =>
      constructor
      · intro h
        obtain ⟨kinds, hkinds, -⟩ := bind_eq_ok.mp h
        rw [stepKinds, hfilter] at hkinds
        cases hkinds
      · rintro ⟨r, hr, hall, -⟩
        rw [filterKinds_eq_ok.mpr ⟨hr, hall, rfl⟩] at hfilter
        cases hfilter
  | ok found =>
      obtain ⟨r, kinds⟩ := found
      obtain ⟨hread, hall, rfl⟩ := filterKinds_eq_ok.mp hfilter
      rw [hstep r _ hfilter]
      constructor
      · intro h
        cases h
        exact ⟨r, hread, hall, rfl⟩
      · rintro ⟨r', hr', -, rfl⟩
        rw [hread] at hr'
        cases hr'
        rfl

theorem filter_and (p q : BooleanExpr) (rows : List (List Cell)) :
    rows.filter (truthOfRow Cell.compiled (p.and q)) =
      (rows.filter (truthOfRow Cell.compiled p)).filter (truthOfRow Cell.compiled q) := by
  rw [List.filter_filter]
  exact List.filter_congr fun row _ => Bool.and_comm _ _

/-- **A join of two filters is the one filter after the other.** -/
theorem step_and (h : e'.startsWithConst = false) : o.step (.filter (e.and e')) = .ok o'' ↔
    ∃ o', o.step (.filter e) = .ok o' ∧ o'.step (.filter e') = .ok o'' := by
  rw [step_filter]
  constructor
  · rintro ⟨r, hr, hall, rfl⟩
    obtain ⟨p, q, hp, hq, rfl⟩ := (readKinds_and h).mp hr
    refine ⟨_, step_filter.mpr ⟨p, hp, hall, rfl⟩, step_filter.mpr ⟨q, ?_, ?_, ?_⟩⟩
    · rw [readKinds_materialized hp, hq]
    · intro k hk
      obtain ⟨k', hk', rfl⟩ := List.mem_map.mp hk
      exact hall k' hk'
    · rw [materialized_materialized, filter_and]
  · rintro ⟨o', ho', ho''⟩
    obtain ⟨p, hp, hall, rfl⟩ := step_filter.mp ho'
    obtain ⟨q, hq, -, rfl⟩ := step_filter.mp ho''
    rw [readKinds_materialized hp] at hq
    refine ⟨p.and q, (readKinds_and h).mpr ⟨p, q, hp, hq, rfl⟩, hall, ?_⟩
    rw [materialized_materialized, filter_and]

/-- **Joining a call with the calls before it** changes nothing. -/
theorem run_joinStep {call : Step} (h : call.startsWithConst = false) (calls : List Step) :
    run (joinStep calls call).reverse o = .ok o'' ↔
      ∃ o', run calls.reverse o = .ok o' ∧ o'.step call = .ok o'' := by
  have hcons : run (call :: calls).reverse o = .ok o'' ↔
      ∃ o', run calls.reverse o = .ok o' ∧ o'.step call = .ok o'' := by
    rw [List.reverse_cons, run_concat]
  cases call with
  | project names => rwa [joinStep_project]
  | filter e' =>
      match calls, hcons with
      | [], hcons => exact hcons
      | .project names :: calls, hcons => rwa [joinStep_project_filter]
      | .filter e :: calls, hcons =>
          have hfilter : e'.startsWithConst = false := h
          rw [joinStep_filter_filter, List.reverse_cons, run_concat]
          simp only [step_and hfilter, List.reverse_cons, run_concat]
          constructor
          · rintro ⟨o₁, h₁, o₂, h₂, h₃⟩
            exact ⟨o₂, ⟨o₁, h₁, h₂⟩, h₃⟩
          · rintro ⟨o₂, ⟨o₁, h₁, h₂⟩, h₃⟩
            exact ⟨o₁, h₁, o₂, h₂, h₃⟩

/-- **Joining changes nothing**: the calls with their filters joined return what the calls return
one after another. -/
theorem run_joined {calls : List Step} (h : ∀ call ∈ calls, call.startsWithConst = false)
    (before : List Step) {o o' : Outline} :
    run (calls.foldl joinStep before).reverse o = .ok o' ↔
      run (before.reverse ++ calls) o = .ok o' := by
  induction calls using List.reverseRecOn generalizing o' with
  | nil => rw [List.foldl_nil, List.append_nil]
  | append_singleton calls call ih =>
      have hinit := fun call hcall => h call (List.mem_append_left _ hcall)
      have hcall := h call (List.mem_append_right _ (List.mem_singleton_self call))
      rw [List.foldl_concat, ← List.append_assoc, run_concat, run_joinStep hcall]
      simp only [ih hinit]

/-! ## Contexts -/

/-- A context can be built for columns of these kinds. -/
def HasContext (kinds : List (Field × Bool)) : Prop :=
  ∀ k ∈ kinds, k.2 = true → ∃ m, createEmptyChunkMetadata k.1.type = .ok m

theorem contextKinds_eq_ok {kinds : List (Field × Bool)} :
    contextKinds kinds = .ok () ↔ HasContext kinds := by
  constructor
  · intro h k hk hchunk
    obtain ⟨us, hus, -⟩ := bind_eq_ok.mp h
    obtain ⟨u, -, hu⟩ := forall₂_mem_left (mapM_eq_ok hus fun k u hu => hu) hk
    rw [if_pos hchunk] at hu
    obtain ⟨m, hm, -⟩ := bind_eq_ok.mp hu
    exact ⟨m, hm⟩
  · intro h
    have hcheck : ∀ k ∈ kinds, ∃ u, (if k.2 then do
        let _ ← createEmptyChunkMetadata k.1.type
        .ok ()
      else .ok () : Except Error Unit) = .ok u ∧ True := by
      intro k hk
      refine ⟨(), ?_, trivial⟩
      split
      · next hchunk =>
          obtain ⟨m, hm⟩ := h k hk hchunk
          rw [hm]
          rfl
      · rfl
    obtain ⟨us, hus, -⟩ := mapM_ok hcheck
    exact bind_eq_ok.mpr ⟨us, hus, rfl⟩

/-- **What a call returns there is a context for.** -/
theorem hasContext_step {call : Step} (ho : HasContext o.kinds) (h : o.step call = .ok o') :
    HasContext o'.kinds := by
  cases call with
  | project names =>
      obtain ⟨kinds, hkinds, h⟩ := bind_eq_ok.mp h
      cases h
      intro k hk
      obtain ⟨name, -, hname⟩ := forall₂_mem_right (mapM_eq_ok hkinds fun name k hk => hk) hk
      cases hnamed : onlyNamed (·.1.name) o.kinds name with
      | none =>
          rw [hnamed] at hname
          cases hname
      | some k' =>
          rw [hnamed] at hname
          cases hname
          exact ho k (onlyNamed_mem hnamed)
  | filter e =>
      obtain ⟨r, -, hall, rfl⟩ := step_filter.mp h
      intro k hk _
      obtain ⟨k', hk', rfl⟩ := List.mem_map.mp hk
      exact createEmptyChunkMetadata_ok (hall k' hk')

theorem hasContext_run {calls : List Step} (ho : HasContext o.kinds) (h : run calls o = .ok o') :
    HasContext o'.kinds := by
  induction calls generalizing o with
  | nil =>
      cases h
      exact ho
  | cons call calls ih =>
      obtain ⟨o₁, h₁, h⟩ := bind_eq_ok.mp (show (o.step call >>= run calls) = _ from h)
      exact ih (hasContext_step ho h₁) h

end Outline

/-! ## Queries -/

open Outline

/-- The calls of a query see no cut, and neither does the query. -/
theorem Snapshot.execute_outline (s : Snapshot) {steps : List Step} (hsteps : steps ≠ [])
    {o : Outline} : (∃ s', s.execute steps = .ok s' ∧ s'.outline = o) ↔
      HasContext s.outline.kinds ∧ run (joinSteps steps).reverse s.outline = .ok o := by
  have hrun : Agree (fun o s' => Snapshot.outline s' = o)
      (run (joinSteps steps).reverse s.outline)
      ((joinSteps steps).reverse.foldlM Snapshot.step s) :=
    Agree.foldlM (fun o s call hs => by
      subst hs
      exact s.step_outline call) _ rfl
  have hcheck : checkContext s.shape = .ok () ↔ HasContext s.outline.kinds := by
    rw [checkContext_eq]
    exact contextKinds_eq_ok
  rw [Snapshot.execute, if_neg hsteps, ← hcheck]
  constructor
  · rintro ⟨s', hs', rfl⟩
    obtain ⟨⟨⟩, hmeta, hs'⟩ := bind_eq_ok.mp hs'
    rw [hs'] at hrun
    obtain ⟨o, ho, rfl⟩ := hrun.ok_right
    exact ⟨hmeta, ho⟩
  · rintro ⟨hmeta, ho⟩
    rw [ho] at hrun
    obtain ⟨s', hs', houtline⟩ := hrun.ok_left
    exact ⟨s', bind_eq_ok.mpr ⟨(), hmeta, hs'⟩, houtline⟩

/-- **What a query returns**, but for the cuts. -/
theorem execute_outline {t : Table} (h : Laid t) {steps : List Step} (hsteps : steps ≠ [])
    {o : Outline} : (∃ out, execute (.build steps) t = .ok out ∧ out.outline = o) ↔
      HasContext t.outline.kinds ∧ run (joinSteps steps).reverse t.outline = .ok o := by
  have hagree := execute_agrees h steps
  refine Iff.trans ⟨?_, ?_⟩ (t.snapshot.execute_outline hsteps)
  · rintro ⟨out, hout, houtline⟩
    rw [hout] at hagree
    obtain ⟨s, hs, -, rfl⟩ := hagree.ok_right
    exact ⟨_, hs, houtline⟩
  · rintro ⟨s, hs, houtline⟩
    rw [hs] at hagree
    obtain ⟨out, hout, -, rfl⟩ := hagree.ok_left
    exact ⟨out, hout, houtline⟩

/-- What a query returns is cut right again. -/
theorem laid_of_execute {t out : Table} (h : Laid t) {steps : List Step}
    (hout : execute (.build steps) t = .ok out) : Laid out := by
  have hagree := execute_agrees h steps
  rw [hout] at hagree
  obtain ⟨s, -, hlaid, -⟩ := hagree.ok_right
  exact hlaid

/-- **A query on the result of a query**, of which the table is cut right, returns what the whole
query returns, but for the cuts between the chunks; and it returns something if and only if the
whole query does. -/
theorem execute_execute {t : Table} (h : Laid t) {steps steps' : List Step} (hsteps : steps ≠ [])
    (hsteps' : steps' ≠ []) (hconst : ∀ call ∈ steps', call.startsWithConst = false) :
    (execute (.build (steps ++ steps')) t).toOption.map Table.outline = (do
      let mid ← (execute (.build steps) t).toOption
      let out ← (execute (.build steps') mid).toOption
      some out.outline) := by
  have hoption : ∀ {ε α : Type} {x : Except ε α} {a : α}, x.toOption = some a ↔ x = .ok a := by
    intro ε α x a
    cases x <;> simp [Except.toOption]
  have hjoined : ∀ o, run (joinSteps (steps ++ steps')).reverse t.outline = .ok o ↔
      ∃ o', run (joinSteps steps).reverse t.outline = .ok o' ∧
        run (joinSteps steps').reverse o' = .ok o := by
    intro o
    rw [joinSteps, List.foldl_append, run_joined hconst, run_append, bind_eq_ok]
    refine exists_congr fun o' => and_congr_right fun _ => ?_
    rw [joinSteps, run_joined hconst]
    rfl
  have hwhole := fun o =>
    execute_outline h (List.append_ne_nil_of_left_ne_nil hsteps steps') (o := o)
  ext o
  simp only [Option.map_eq_some_iff, hoption, Option.bind_eq_bind, Option.bind_eq_some_iff,
    Option.some.injEq]
  rw [hwhole, hjoined]
  constructor
  · rintro ⟨hmeta, o', ho', hrun'⟩
    -- the first part leaves a table that there is a context for
    obtain ⟨mid, hmid, rfl⟩ := (execute_outline h hsteps).mpr ⟨hmeta, ho'⟩
    obtain ⟨out, hout, houtline⟩ := (execute_outline (laid_of_execute h hmid) hsteps').mpr
      ⟨hasContext_run hmeta ho', hrun'⟩
    exact ⟨mid, hmid, out, hout, houtline⟩
  · rintro ⟨mid, hmid, out, hout, houtline⟩
    obtain ⟨hmeta, ho'⟩ := (execute_outline h hsteps).mp ⟨mid, hmid, rfl⟩
    obtain ⟨-, hrun'⟩ :=
      (execute_outline (laid_of_execute h hmid) hsteps').mp ⟨out, hout, houtline⟩
    exact ⟨hmeta, mid.outline, ho', hrun'⟩

/-- A filter, and two calls on its result. -/
theorem execute_execute_nineRows :
    (execute (.build ([.filter ((col "a").gt (lit 1))] ++
        [.filter ((col "b").lt (lit 5)), .project ["b"]])) nineRows).toOption.map Table.outline =
      (do
        let mid ← (execute (.build [.filter ((col "a").gt (lit 1))]) nineRows).toOption
        let out ← (execute (.build [.filter ((col "b").lt (lit 5)), .project ["b"]]) mid).toOption
        some out.outline) :=
  execute_execute readable_nineRows.laid (List.cons_ne_nil _ _) (List.cons_ne_nil _ _) (by decide)

end Pefa
