import Pefa.Execution.DualPartition
import Pefa.Reference.RowWise

/-!
# Queries on numbers

The meaning of queries on integer and floating-point columns: a comparison is that of two integers
or of two floating-point numbers, and the literal is one that the column's type has. Such queries
are among those whose kernels compute what they mean (`RowSemantics.Compiled`), and a query of that
kind returns what it means on every table that is cut right, whatever the numeric types of its
columns are (`execute_compiled`, `execute_numeric`).
-/

namespace Pefa

open Rechunk

/-! ## Queries whose kernels compute what they mean -/

theorem generated_of_compile {f : Field} {e : BooleanExpr} {predicate : f.type.CType → Bool}
    (h : (FilterKernel.createCpu f e).compile = .ok ⟨e, some predicate⟩) :
    genPredicateFunc f e = .ok predicate := by
  obtain ⟨p, hp, hk⟩ := bind_eq_ok.mp h
  cases hk
  exact hp

section

variable {compare : Compare} {fields : List Field} {lhs : ColumnRef} {l : LiteralExpr}
  {op : CompareOp}

theorem CompilesOn.check (h : CompilesOn compare fields lhs l op) :
    checkCompare fields lhs l op = .ok () := by
  obtain ⟨f, hf, hcompile⟩ := h
  simp only [checkCompare, Option.mem_def.mp hf, deref, bind_ok, generated_of_compile hcompile]

/-- On a row without nulls the compiled comparison is the comparison. -/
theorem CompilesOn.atomOfRow_eq (h : CompilesOn compare fields lhs l op) {row : List Cell}
    (hrow : row.map (·.field) = fields) (hvalues : ∀ c ∈ row, ∃ x, c.value = some x) :
    atomOfRow Cell.compiled row lhs l op = atomOfRow compare row lhs l op := by
  obtain ⟨f, hf, hcompile⟩ := h
  rw [Option.mem_def, ← hrow, onlyNamed_map] at hf
  obtain ⟨c, hc, rfl⟩ := Option.map_eq_some_iff.mp hf
  have hcell : onlyNamed (·.name) row lhs.name = some c := hc
  obtain ⟨name, type, value⟩ := c
  have hfield : onlyNamed (·.name) fields lhs.name = some ⟨name, type⟩ := by
    rw [← hrow, onlyNamed_map, hc]
    rfl
  have hname : lhs = col name := congrArg ColumnRef.mk (onlyNamed_name hfield).symm
  have hgen := generated_of_compile hcompile
  rw [hname] at hgen
  cases value with
  | none =>
      obtain ⟨x, hx⟩ := hvalues _ (onlyNamed_mem hcell)
      cases hx
  | some x =>
      simp only [atomOfRow, hcell, Option.any_some]
      exact Cell.compiled_of_generated hgen x

end

/-- A tree of comparisons that compile is read as it is. -/
theorem read_of_compiles {compare : Compare} {fields : List Field} : ∀ {e : BooleanExpr},
    e.ConstFree → e.AllCompare (CompilesOn compare fields) → ∀ left,
    e.read fields left = .ok (some e)
  | .booleanConst _, hfree, _, _ => hfree.elim
  | .predicateExpr lhs rhs op, hfree, hleaves, left => by
      rw [BooleanExpr.read, read_of_compiles hfree.1 hleaves.1, bind_ok,
        read_of_compiles hfree.2 hleaves.2, bind_ok]
      simp [hfree.2.startsWithConst_eq]
  | .compareExpr lhs l op, _, hleaf, _ => by
      rw [BooleanExpr.read, CompilesOn.check hleaf, bind_ok]

namespace Snapshot

/-- A snapshot of a table of rows without nulls, of columns that have chunks and can be
materialized. -/
structure Plain (s : Snapshot) (rt : RowTable) : Prop where
  fields : s.fields = rt.fields
  rows : s.rows = rt.rows
  columns : ∀ c ∈ s.shape, c.hasChunk = true ∧ c.field.type.isMaterializable = true
  values : ∀ row ∈ s.rows, ∀ c ∈ row, ∃ x, c.value = some x

/-- The columns that names stand for. -/
theorem exists_shape {shape : List ColumnShape} {names : List String} {picked : List Field} :
    RowTable.pickFields (shape.map (·.field)) names = some picked →
      ∃ shape', (names.mapM fun name => deref (onlyNamed (·.field.name) shape name)) = .ok shape' ∧
        shape'.map (·.field) = picked ∧ ∀ c ∈ shape', c ∈ shape := by
  intro h
  have hpick := mapM_eq_some.mp h
  clear h
  induction hpick with
  | nil => exact ⟨[], rfl, rfl, nofun⟩
  | @cons name f names fs hf _ ih =>
      obtain ⟨shape', hmap, hfields, hmem⟩ := ih
      rw [onlyNamed_map] at hf
      obtain ⟨c, hc, rfl⟩ := Option.map_eq_some_iff.mp hf
      have hshape : onlyNamed (·.field.name) shape name = some c := hc
      refine ⟨c :: shape', ?_, by rw [List.map_cons, hfields], ?_⟩
      · rw [List.mapM_cons, hshape, hmap]
        rfl
      · exact List.forall_mem_cons.mpr ⟨onlyNamed_mem hshape, hmem⟩

variable {S : RowSemantics}

theorem Plain.project (hS : S.Compiled) {s : Snapshot} {rt : RowTable} (h : s.Plain rt)
    {names : List String} (hnames : S.admitsProject names = true) {picked : List Field}
    (hpicked : RowTable.pickFields s.fields names = some picked) :
    ∃ s' rt', s.project names = .ok s' ∧ rt.project names = some rt' ∧ s'.Plain rt' ∧
      s'.fields = picked := by
  obtain ⟨shape, hshape, hfields, hmem⟩ := exists_shape hpicked
  rw [h.fields] at hpicked
  obtain ⟨rt', hrt', hfields'⟩ := RowTable.exists_project hpicked
  have hrows := (RowTable.project_eq_some.mp hrt').2
  have hempty : names.isEmpty = false := by simpa using hS.project hnames
  refine ⟨⟨shape, s.rows.map (RowTable.pickCells · names)⟩, rt', ?_, hrt',
    ⟨hfields.trans hfields'.symm, ?_, fun c hc => h.columns c (hmem c hc), ?_⟩, hfields⟩
  · simp only [Snapshot.project, hshape, bind_ok, hempty, Bool.false_eq_true, if_false]
  · rw [hrows, h.rows]
  · intro cells hcells c hc
    obtain ⟨row, hrow, rfl⟩ := List.mem_map.mp hcells
    obtain ⟨name, -, hname⟩ := List.mem_filterMap.mp hc
    exact h.values row hrow c (onlyNamed_mem hname)

theorem Plain.filter (hS : S.Compiled) {s : Snapshot} {rt : RowTable} (h : s.Plain rt)
    {e : BooleanExpr} (he : S.admitsFilter s.fields e = true) :
    ∃ s', s.filter e = .ok s' ∧ s'.Plain (rt.filter (truthOfRow S.compare e)) ∧
      s'.fields = s.fields := by
  obtain ⟨hfree, hleaves⟩ := hS.filter he
  -- a comparison compiles, so its column is there, and the first column has a chunk
  have hfirst : s.shape.head?.any (·.hasChunk) = true := by
    obtain ⟨lhs, l, op, f, hf, -⟩ := exists_leaf hleaves hfree.startsWithConst_eq
    obtain ⟨c, hc, -⟩ := List.mem_map.mp (onlyNamed_mem hf)
    obtain ⟨c', cs, hshape⟩ := List.exists_cons_of_ne_nil (List.ne_nil_of_mem hc)
    rw [hshape]
    exact (h.columns c' (by rw [hshape]; exact List.mem_cons_self)).1
  have hread : s.readFilter e = .ok (some e) := by
    rw [readFilter, if_pos hfirst, read_of_compiles hfree hleaves]
  have htruth : ∀ row ∈ s.rows, truthOfRow Cell.compiled e row = truthOfRow S.compare e row := by
    intro row hrow
    have hfields := rt.fields_eq row (by rw [← h.rows]; exact hrow)
    exact BooleanExpr.truth_congr (hleaves.imp fun lhs l op hleaf =>
      hleaf.atomOfRow_eq (hfields.trans h.fields.symm) (h.values row hrow))
  obtain ⟨shape, hshape, hrel⟩ := mapM_ok (l := s.shape)
    (f := materializeShape (lensOf chunkSize (s.rows.map (truthOfRow Cell.compiled e))))
    (R := fun c c' => c'.field = c.field ∧ c'.hasChunk = true) fun c hc => by
      refine ⟨⟨c.field, lensOf chunkSize (s.rows.map (truthOfRow Cell.compiled e))⟩, ?_, rfl, ?_⟩
      · rw [materializeShape, if_pos (h.columns c hc).2]
      · exact congrArg Prod.snd (kind_of_materialized c.field _)
  have hfields : shape.map (·.field) = s.fields :=
    (List.forall₂_eq_eq_eq ▸ List.forall₂_map_left_iff.mpr (List.forall₂_map_right_iff.mpr
      (hrel.imp fun _ _ h => h.1.symm)) : s.fields = _).symm
  refine ⟨⟨shape, s.rows.filter (truthOfRow Cell.compiled e)⟩, ?_, ⟨hfields.trans h.fields, ?_, ?_,
    fun row hrow => h.values row (List.mem_of_mem_filter hrow)⟩, hfields⟩
  · simp only [Snapshot.filter, hread, bind_ok, hshape]
  · show s.rows.filter _ = rt.rows.filter _
    rw [← h.rows]
    exact List.filter_congr htruth
  · intro c' hc'
    obtain ⟨c, hc, hfield, hchunk⟩ := forall₂_mem_right hrel hc'
    exact ⟨hchunk, by rw [hfield]; exact (h.columns c hc).2⟩

/-- **Admitted calls on a snapshot** do what they mean. -/
theorem Plain.run (hS : S.Compiled) {calls : List Step} : ∀ {s : Snapshot} {rt : RowTable},
    s.Plain rt → S.Admits s.fields calls →
    ∃ s' rt', calls.foldlM step s = .ok s' ∧ rt.interpret S.compare calls = some rt' ∧
      s'.Plain rt' := by
  induction calls with
  | nil => exact fun h _ => ⟨_, _, rfl, rfl, h⟩
  | cons call calls ih =>
      intro s rt h hadm
      rw [List.foldlM_cons, RowTable.interpret, List.foldlM_cons]
      cases call with
      | project names =>
          obtain ⟨hnames, picked, hpicked, hadm⟩ := hadm
          obtain ⟨s₁, rt₁, hs₁, hrt₁, h₁, hfields₁⟩ := h.project hS hnames hpicked
          obtain ⟨s', rt', hs', hrt', h'⟩ := ih h₁ (by rw [hfields₁]; exact hadm)
          refine ⟨s', rt', ?_, Option.bind_eq_some_iff.mpr ⟨rt₁, hrt₁, hrt'⟩, h'⟩
          show s.project names >>= _ = _
          rw [hs₁, bind_ok, hs']
      | filter e =>
          obtain ⟨he, hadm⟩ := hadm
          obtain ⟨s₁, hs₁, h₁, hfields₁⟩ := h.filter hS he
          obtain ⟨s', rt', hs', hrt', h'⟩ := ih h₁ (by rw [hfields₁]; exact hadm)
          refine ⟨s', rt', ?_, hrt', h'⟩
          show s.filter e >>= _ = _
          rw [hs₁, bind_ok, hs']

end Snapshot

/-- No cell at the front of a buffer is null. -/
theorem values_frontRows {t : Table} (hvalid : t.Valid) :
    ∀ row ∈ t.frontRows.rows, ∀ c ∈ row, ∃ x, c.value = some x := by
  intro row hrow c hc
  obtain ⟨r, hr, rfl⟩ := List.mem_map.mp hrow
  obtain ⟨col, hcol, rfl⟩ := List.mem_map.mp hc
  rw [Table.cellAt_front]
  have hlt : r < col.data.front.length := by
    rw [ChunkedArray.length_front, hvalid col hcol]
    exact List.mem_range.mp hr
  exact ⟨_, List.getElem?_eq_getElem hlt⟩

/-- A table the compiled queries can be executed on: cut right, with a chunk in every column, and
of types that can be materialized. -/
structure Table.Executable (t : Table) : Prop where
  laid : Laid t
  chunks : HasChunks t
  types : ∀ c ∈ t.columns, c.type.isMaterializable = true

theorem plain_snapshot {t : Table} (h : t.Executable) : t.snapshot.Plain t.frontRows where
  fields := t.map_field_shape
  rows := rfl
  columns := by
    intro c hc
    obtain ⟨col, hcol, rfl⟩ := List.mem_map.mp hc
    exact ⟨by rw [hasChunk_shape]; simpa using h.chunks col hcol, h.types col hcol⟩
  values := values_frontRows h.laid.valid

/-- **A query whose kernels compute what it means** returns what it means at the front. -/
theorem execute_compiled {S : RowSemantics} (hS : S.Compiled) {t : Table} (h : t.Executable)
    {steps : List Step} (hsteps : steps ≠ []) (hadm : S.Admits t.fields steps) :
    ∃ out, execute (.build steps) t = .ok out ∧
      t.frontRows.interpret S.compare steps = some out.frontRows := by
  have hplain := plain_snapshot h
  have hcheck : checkContext t.snapshot.shape = .ok () :=
    checkContext_eq_ok.mpr fun c hc => checkMetadata_materializable (hplain.columns c hc).2
  have hadm : S.Admits t.snapshot.fields (joinSteps steps).reverse := by
    rw [admits_joinSteps]
    show S.Admits (t.shape.map (·.field)) steps
    rwa [t.map_field_shape]
  obtain ⟨s', rt', hs', hrt', h'⟩ := hplain.run hS hadm
  rw [interpret_joinSteps] at hrt'
  have hagree := execute_agrees h.laid steps
  rw [Snapshot.execute, if_neg hsteps, hcheck, bind_ok, hs'] at hagree
  obtain ⟨out, hout, -, rfl⟩ := hagree.ok_left
  have hfront : rt' = out.frontRows :=
    RowTable.ext (h'.fields.symm.trans out.map_field_shape) h'.rows.symm
  exact ⟨out, hout, by rw [hrt', hfront]⟩

/-! ## Numbers -/

/-- The comparison of a value of a numeric column with a literal. -/
def CompareOp.compareNumeric (op : CompareOp) (type : DataType) (x : type.CType)
    (l : LiteralExpr) : Bool :=
  match type, x, l with
  | .integral s _, x, .int val => op.holds (intValue s x) val.toInt
  | .floating _, x, l =>
      match l.getDouble with
      | .ok y => op.holdsFloat x y
      | .error _ => false
  | _, _, _ => false

/-- **A comparison with a literal that the column's type has** is compiled to what it says. -/
theorem compileCompare_numeric {field : Field} {lhs : ColumnRef} {l : LiteralExpr}
    (h : l.FitsNumeric field.type) (op : CompareOp) (hname : lhs.name = field.name) :
    (FilterKernel.createCpu field (.compareExpr lhs l op)).compile =
      .ok ⟨.compareExpr lhs l op, some fun x => op.compareNumeric field.type x l⟩ := by
  obtain ⟨name, type⟩ := field
  obtain rfl : lhs = col name := congrArg ColumnRef.mk hname
  refine FilterKernel.compile_of_emit h.fromArrow ?_
  cases type with
  | integral s w =>
      obtain ⟨s', w', val, htype, rfl, -⟩ := LiteralExpr.Fits.isIntegral h
      have hfits : (LiteralExpr.int val).Fits (.integral s w) := h
      exact FilterKernel.irEmitVisit_compareExpr rfl (compileCompare_fits hfits op) none
  | floating w =>
      obtain ⟨y, hy, hround⟩ := h
      rw [irEmitVisit_float name w hy, hround]
      refine congrArg (fun p => Except.ok (some p)) (funext fun x => ?_)
      simp only [CompareOp.compareNumeric, hy]
  | _ => exact h.elim

instance : (l : LiteralExpr) → (type : DataType) → Decidable (l.FitsNumeric type)
  | l, .integral s w => inferInstanceAs (Decidable (l.Fits (.integral s w)))
  | l, .floating w =>
      match h : l.getDouble with
      | .ok y => decidable_of_iff (w.round y = y)
          ⟨fun hy => ⟨y, h, hy⟩, fun ⟨_, hy, hround⟩ => Except.ok.inj (h.symm.trans hy) ▸ hround⟩
      | .error _ => isFalse fun ⟨_, hy, _⟩ => nomatch h.symm.trans hy
  | _, .string | _, .bool | _, .na | _, .other _ _ _ => inferInstanceAs (Decidable False)

/-- The literal fits the one field that has the name. -/
def NumericFits (fields : List Field) (lhs : ColumnRef) (l : LiteralExpr) (_ : CompareOp) : Prop :=
  ∃ f ∈ onlyNamed (·.name) fields lhs.name, l.FitsNumeric f.type

instance (fields : List Field) (lhs : ColumnRef) (l : LiteralExpr) (op : CompareOp) :
    Decidable (NumericFits fields lhs l op) :=
  inferInstanceAs (Decidable (∃ f ∈ onlyNamed (·.name) fields lhs.name, l.FitsNumeric f.type))

/-- Queries on numbers: projections to at least one column, and trees of comparisons with literals
that the types of their columns have. -/
def RowSemantics.numbers : RowSemantics where
  compare c l op := c.value.any fun x => op.compareNumeric c.type x l
  admitsProject names := !names.isEmpty
  admitsFilter fields e := decide (e.ConstFree ∧ e.AllCompare (NumericFits fields))
  admitsFilter_and fields e e' := by
    rw [← Bool.decide_and, decide_eq_decide, BooleanExpr.constFree_and, BooleanExpr.allCompare_and]
    exact and_and_and_comm

theorem numbers_compiled : RowSemantics.numbers.Compiled where
  project h := by simpa [RowSemantics.numbers] using h
  filter h := by
    obtain ⟨hfree, hfits⟩ := of_decide_eq_true h
    refine ⟨hfree, hfits.imp fun lhs l op hleaf => ?_⟩
    obtain ⟨f, hf, hfit⟩ := hleaf
    exact ⟨f, hf, compileCompare_numeric hfit op (onlyNamed_name hf).symm⟩

/-- **What a query on numbers returns is what it means**, on integer and floating-point columns in
any mix, if the table is cut right and has a chunk in every column, no nulls and no slices. -/
theorem execute_numeric {t : Table} (h : t.Executable) (hclean : t.Clean) {steps : List Step}
    (hsteps : steps ≠ []) (hadm : RowSemantics.numbers.Admits t.fields steps) :
    ∃ out, execute (.build steps) t = .ok out ∧
      t.logicalRows.interpret RowSemantics.numbers.compare steps = some out.logicalRows := by
  obtain ⟨out, hout, hmeaning⟩ := execute_compiled numbers_compiled h hsteps hadm
  refine ⟨out, hout, ?_⟩
  rw [← Table.frontRows_eq hclean, hmeaning, Table.frontRows_eq (execute_clean hsteps hclean hout)]

/-- A `DOUBLE` column with a NaN in it, next to a `UINT8` column. -/
def threePrices : Table :=
  ⟨[⟨"price", .double, ⟨[.ofList [.num (1 / 2), .nan, .num 3] (by decide)], by decide⟩⟩,
    ⟨"count", .uint8, ⟨[.ofList [1#8, 1#8, 9#8] (by decide)], by decide⟩⟩]⟩

theorem executable_threePrices : threePrices.Executable :=
  ⟨laid_of_few (by decide) (by decide) (by decide) (by decide), by decide, by decide⟩

/-- A literal that every `DOUBLE` column has, and one that a `UINT8` column has. -/
def cheapOrFew : List Step :=
  [.filter (((col "price").lt (.double (.num (3 / 4)))).or ((col "count").lt (lit 2))),
    .project ["count"]]

theorem execute_numeric_threePrices :
    ∃ out, execute (.build cheapOrFew) threePrices = .ok out ∧
      threePrices.logicalRows.interpret RowSemantics.numbers.compare cheapOrFew =
        some out.logicalRows :=
  execute_numeric executable_threePrices (by decide) (by decide) (by decide +kernel)

end Pefa
