import Pefa.Reference.FirstFilter

/-!
# What lies in the buffers

The kernels and `materializeColumn` take the pointer of a value buffer and read from its front:
they add no offset and look at no validity buffer. So what a query with a filter returns is what
it means on the rows at the front, whatever Arrow says that the rows are. Two tables with the same
rows are told apart by a query if and only if it means something else on their fronts
(`sameResult_iff`), and some query tells them apart whenever their fronts differ
(`sameResult_all_iff`).
-/

namespace Pefa

/-! ## Queries on tables of one chunk -/

section

variable {S : RowSemantics} {t t' : Table} {steps : List Step}

theorem SingleChunk.readable (h : SingleChunk t) (hrows : t.numRows < 2 ^ 31) : Readable t where
  valid := h.valid
  rows := hrows
  integral := h.integral
  counted c hc := counted_of_lt (by
    obtain ⟨chunk, hchunk⟩ := h.single c hc
    rw [ChunkedArray.numChunks, hchunk]
    norm_num)
  heads c hc := by
    obtain ⟨chunk, hchunk⟩ := h.single c hc
    have hlens : c.data.lens.dropLast = [] := by rw [ChunkedArray.lens, hchunk]; rfl
    exact headsReached_of_dropLast (c := 0) (by rw [hlens]; exact fun _ hlen => by cases hlen)

theorem SingleChunk.hasChunks (h : SingleChunk t) : HasChunks t := by
  intro c hc
  obtain ⟨chunk, hchunk⟩ := h.single c hc
  rw [hchunk]
  exact List.cons_ne_nil _ _

/-- Joining filters leaves a filter where there was one, and none where there was none. -/
theorem joined_isFilter (steps : List Step) :
    (joinSteps steps).reverse.any Step.isFilter = steps.any Step.isFilter := by
  rw [List.any_reverse, joinSteps_isFilter]

/-- What is left after a filter has no offsets and no nulls. -/
theorem clean_of_filtered (hsteps : steps ≠ []) (hany : steps.any Step.isFilter = true)
    {out : Table} (h : execute (.build steps) t = .ok out) : out.Clean := by
  obtain ⟨ctx, ctx', -, hvisit, rfl⟩ := execute_eq_ok hsteps h
  refine executor_keeps_clean.visit_materializes clean_of_materializeFilter ?_ hvisit
  rw [LogicalPlan.materializes_build, joined_isFilter, hany]

/-- **A query with a filter** returns what it means at the front. -/
theorem execute_filtered (hS : S.Compiled) (h : SingleChunk t) (hrows : t.numRows < 2 ^ 31)
    (hsteps : steps ≠ []) (hadm : S.Admits t.fields steps)
    (hany : steps.any Step.isFilter = true) :
    ∃ out, execute (.build steps) t = .ok out ∧
      t.frontRows.interpret S.compare steps = some out.logicalRows := by
  obtain ⟨out, hout, hmeaning⟩ := execute_front hS (h.readable hrows) h.hasChunks hsteps hadm
  exact ⟨out, hout, by rw [hmeaning, Table.frontRows_eq (clean_of_filtered hsteps hany hout)]⟩

/-- **A query without a filter** returns what it means. -/
theorem execute_projected (hS : S.Compiled) (h : SingleChunk t) (hsteps : steps ≠ [])
    (hadm : S.Admits t.fields steps) (hnone : steps.any Step.isFilter = false) :
    ∃ out, execute (.build steps) t = .ok out ∧
      t.logicalRows.interpret S.compare steps = some out.logicalRows := by
  have hmeta : ∀ c ∈ t.columns, ∃ m, createEmptyChunkMetadata c.type = .ok m :=
    fun c hc => createEmptyChunkMetadata_integral (h.integral c hc)
  obtain ⟨ctx, hctx, htable, -⟩ := ExecutionContext.create_ok t hmeta
  rw [← joined_isFilter] at hnone
  rw [← admits_joinSteps] at hadm
  have hvalid : ctx.table.Valid := by rw [htable]; exact h.valid
  obtain ⟨ctx', hctx', hmeaning⟩ := run_projections hS (fun c => c.data.cells) hnone hvalid
    (by rw [htable]; exact hmeta) (by rw [htable]; exact hadm)
  rw [interpret_joinSteps, htable] at hmeaning
  exact ⟨ctx'.table, by rw [execute_steps hsteps, hctx, bind_ok, hctx', bind_ok], hmeaning⟩

/-- A query with a filter returns only if an `int` can count the rows. -/
theorem numRows_lt_of_execute (hS : S.Compiled) (hvalid : t.Valid) (hsteps : steps ≠ [])
    (hadm : S.Admits t.fields steps) (hany : steps.any Step.isFilter = true) {out : Table}
    (h : execute (.build steps) t = .ok out) : t.numRows < 2 ^ 31 := by
  rw [execute_steps hsteps] at h
  obtain ⟨ctx, hctx, h⟩ := bind_eq_ok.mp h
  obtain ⟨ctx', hrun, -⟩ := bind_eq_ok.mp h
  have htable := (ExecutionContext.create_eq_ok hctx).1
  rw [← joined_isFilter] at hany
  rw [← admits_joinSteps, ← htable] at hadm
  exact run_rows_lt hS hany (by rw [htable]; exact hvalid) hadm hrun

end

/-! ## Two tables with the same rows -/

/-- A query returns the same rows on both tables. -/
def SameResult (t t' : Table) (steps : List Step) : Prop :=
  ∃ out out', execute (.build steps) t = .ok out ∧ execute (.build steps) t' = .ok out' ∧
    out.logicalRows = out'.logicalRows

section

variable {S : RowSemantics} {t t' : Table} {steps : List Step}

/-- **When a query returns the same rows** on two tables with the same rows: it has no filter, or
an `int` can count the rows and the query means the same at both fronts. -/
theorem sameResult_iff (hS : S.Compiled) (h : SingleChunk t) (h' : SingleChunk t')
    (hnum : t'.numRows = t.numRows) (hrows : t'.logicalRows = t.logicalRows) (hsteps : steps ≠ [])
    (hadm : S.Admits t.fields steps) :
    SameResult t t' steps ↔ (steps.any Step.isFilter = true → t.numRows < 2 ^ 31 ∧
      t.frontRows.interpret S.compare steps = t'.frontRows.interpret S.compare steps) := by
  have hadm' : S.Admits t'.fields steps := by
    have hfields : t'.fields = t.fields := congrArg RowTable.fields hrows
    rwa [hfields]
  constructor
  · rintro ⟨out, out', hout, hout', hsame⟩ hany
    have hlt := numRows_lt_of_execute hS h.valid hsteps hadm hany hout
    obtain ⟨res, hres, hmeaning⟩ := execute_filtered hS h hlt hsteps hadm hany
    obtain ⟨res', hres', hmeaning'⟩ := execute_filtered hS h' (by omega) hsteps hadm' hany
    obtain rfl : out = res := Except.ok.inj (hout.symm.trans hres)
    obtain rfl : out' = res' := Except.ok.inj (hout'.symm.trans hres')
    exact ⟨hlt, by rw [hmeaning, hmeaning', hsame]⟩
  · intro hfilter
    cases hany : steps.any Step.isFilter with
    | false =>
        obtain ⟨out, hout, hmeaning⟩ := execute_projected hS h hsteps hadm hany
        obtain ⟨out', hout', hmeaning'⟩ := execute_projected hS h' hsteps hadm' hany
        rw [hrows, hmeaning] at hmeaning'
        exact ⟨out, out', hout, hout', Option.some.inj hmeaning'⟩
    | true =>
        obtain ⟨hlt, hsame⟩ := hfilter hany
        obtain ⟨out, hout, hmeaning⟩ := execute_filtered hS h hlt hsteps hadm hany
        obtain ⟨out', hout', hmeaning'⟩ := execute_filtered hS h' (by omega) hsteps hadm' hany
        rw [← hsame, hmeaning] at hmeaning'
        exact ⟨out, out', hout, hout', Option.some.inj hmeaning'⟩

/-- `name = 0 OR name ≠ 0` -/
def keepAll (name : String) : BooleanExpr := ((col name).eq (lit 0)).or ((col name).neq (lit 0))

/-- On an integer column `keepAll` is admitted, and passes every value. -/
def RowSemantics.KeepsAll (S : RowSemantics) : Prop :=
  ∀ {fields : List Field} {name : String} {f : Field}, onlyNamed (·.name) fields name = some f →
    f.type.isIntegral = true → S.admitsFilter fields (keepAll name) = true ∧
      ∀ x : f.type.CType, (S.compare ⟨f.name, f.type, some x⟩ (lit 0) .eq ||
        S.compare ⟨f.name, f.type, some x⟩ (lit 0) .neq) = true

theorem Table.onlyNamed_fields {name : String} {c : Column} (h : t.getColumnByName name = some c) :
    onlyNamed (·.name) t.fields name = some c.field := by
  rw [Table.fields, Table.onlyNamed_field, ← getColumnByName_eq, h, Option.map_some]

theorem Table.getColumnByName_of_fields {name : String} {f : Field}
    (h : onlyNamed (·.name) t.fields name = some f) : ∃ c, t.getColumnByName name = some c := by
  rw [Table.fields, Table.onlyNamed_field, ← getColumnByName_eq] at h
  obtain ⟨c, hc, -⟩ := Option.map_eq_some_iff.mp h
  exact ⟨c, hc⟩

/-- A filter by `keepAll` keeps all rows. -/
theorem interpret_keepAll (hkeep : S.KeepsAll) (h : SingleChunk t) {name : String} {c : Column}
    (hc : t.getColumnByName name = some c) :
    t.frontRows.interpret S.compare [.filter (keepAll name)] = some t.frontRows := by
  have hmem := (Table.getColumnByName_mem hc).1
  obtain ⟨-, hpass⟩ := hkeep (Table.onlyNamed_fields hc) (h.integral c hmem)
  refine congrArg some (RowTable.ext rfl (List.filter_eq_self.mpr fun row hrow => ?_))
  obtain ⟨r, hr, rfl⟩ := List.mem_map.mp hrow
  rw [List.mem_range, ← h.valid c hmem, ← ChunkedArray.length_front] at hr
  have hatom : ∀ op, atomOfRow S.compare (t.frontRow r) (col name) (lit 0) op =
      S.compare ⟨c.name, c.type, some c.data.front[r]⟩ (lit 0) op := by
    intro op
    show (onlyNamed (·.name) (t.frontRow r) name).any _ = _
    rw [Table.frontRow, Table.onlyNamed_cellAt, ← getColumnByName_eq, hc, Option.map_some,
      Table.cellAt_front, List.getElem?_eq_getElem hr, Option.any_some]
  show (atomOfRow S.compare (t.frontRow r) (col name) (lit 0) .eq ||
    atomOfRow S.compare (t.frontRow r) (col name) (lit 0) .neq) = true
  rw [hatom, hatom]
  exact hpass _

/-- Some name stands for a column. -/
def HasNamed (t : Table) : Prop := ∃ name c, t.getColumnByName name = some c

/-- A query names a column. -/
theorem hasNamed_of_admits (hS : S.Compiled) (hsteps : steps ≠ [])
    (hadm : S.Admits t.fields steps) : HasNamed t := by
  cases steps with
  | nil => exact absurd rfl hsteps
  | cons s steps =>
      cases s with
      | filter e =>
          obtain ⟨hfree, hleaves⟩ := hS.filter hadm.1
          obtain ⟨lhs, l, op, hleaf⟩ := exists_leaf hleaves hfree.startsWithConst_eq
          obtain ⟨c, hc, -⟩ := hleaf.column
          exact ⟨lhs.name, c, hc⟩
      | project names =>
          obtain ⟨hnames, picked, hpicked, -⟩ := hadm
          cases names with
          | nil => exact absurd rfl (hS.project hnames)
          | cons name names =>
              rw [RowTable.pickFields, List.mapM_cons] at hpicked
              obtain ⟨f, hf, -⟩ := Option.bind_eq_some_iff.mp hpicked
              obtain ⟨c, hc⟩ := Table.getColumnByName_of_fields hf
              exact ⟨name, c, hc⟩

/-- **When every query returns the same rows** on two tables with the same rows: there is no column
that a query could name, or an `int` can count the rows and the fronts are the same. -/
theorem sameResult_all_iff (hS : S.Compiled) (hkeep : S.KeepsAll) (h : SingleChunk t)
    (h' : SingleChunk t') (hnum : t'.numRows = t.numRows) (hrows : t'.logicalRows = t.logicalRows) :
    (∀ steps ≠ [], S.Admits t.fields steps → SameResult t t' steps) ↔
      (HasNamed t → t.numRows < 2 ^ 31 ∧ t.frontRows = t'.frontRows) := by
  constructor
  · rintro hall ⟨name, c, hc⟩
    have hfield := Table.onlyNamed_fields hc
    have hadm : S.Admits t.fields [.filter (keepAll name)] :=
      ⟨(hkeep hfield (h.integral c (Table.getColumnByName_mem hc).1)).1, trivial⟩
    have hfields : t'.fields = t.fields := congrArg RowTable.fields hrows
    rw [← hfields] at hfield
    obtain ⟨c', hc'⟩ := Table.getColumnByName_of_fields hfield
    have hsteps : [Step.filter (keepAll name)] ≠ [] := List.cons_ne_nil _ _
    obtain ⟨hlt, hfront⟩ := (sameResult_iff hS h h' hnum hrows hsteps hadm).mp
      (hall _ hsteps hadm) rfl
    rw [interpret_keepAll hkeep h hc, interpret_keepAll hkeep h' hc'] at hfront
    exact ⟨hlt, Option.some.inj hfront⟩
  · intro hfronts steps hsteps hadm
    obtain ⟨hlt, hfront⟩ := hfronts (hasNamed_of_admits hS hsteps hadm)
    exact (sameResult_iff hS h h' hnum hrows hsteps hadm).mpr fun _ => ⟨hlt, by rw [hfront]⟩

end

theorem integers_keepsAll : RowSemantics.integers.KeepsAll := by
  intro fields name f hf hintegral
  obtain ⟨fname, type⟩ := f
  cases type with
  | integral s w =>
      have hfits : (lit 0).Fits (.integral s w) := by cases s <;> cases w <;> decide
      refine ⟨decide_eq_true ⟨⟨trivial, trivial⟩, ⟨_, hf, hfits⟩, ⟨_, hf, hfits⟩⟩, fun x => ?_⟩
      show (CompareOp.holds .eq (intValue s x) (0#32).toInt ||
        CompareOp.holds .neq (intValue s x) (0#32).toInt) = true
      simp [CompareOp.holds]
  | _ => cases hintegral

end Pefa
