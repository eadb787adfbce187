import Pefa.QueryCompiler.QueryCompiler
import Pefa.QueryCompiler.PlanComparisons
import Pefa.Lib.Threaded
import Pefa.Jit.OwnCode
import Pefa.Jit.Ownership
import Pefa.Reference.BitmapFound

/-!
# Executing a query through the JIT

The executor as it runs: every comparison creates a kernel, compiles it into the one JIT of the
process, calls it through the function pointers that the JIT returned, and destroys it, also when an
exception ends the comparison. So the JIT is a state of its own that outlives a query that fails.

The rest of the model has the executor without the JIT. They agree as long as no module is loaded
that exports a name of one of the table's columns; and where a loaded module does, the comparisons
of that column are answered by it (`execute_computes`).

## Sections

* `FitlerKernelImpl` — calls through function pointers
* The executor
* The module of a comparison
* What a comparison computes
* What a query computes
-/

namespace Pefa

open Function

variable {llvm : Llvm}

/-! ## `FitlerKernelImpl` -/

/-- The predicate that the code at a function pointer runs, when it is called as the function `name`
on elements of a type. Running code that was unloaded, or that was generated for other arguments, is
undefined. So is, in the model, running code that was generated for another type: it ends the
process, where the real code reads the bytes as elements of its own type and may go on. -/
def JIT.predicateAt (jit : JIT llvm) (type : DataType) (name : Field → String) :
    Option JITSymbol → Except Error (type.CType → Bool)
  | none => .error .nullDeref
  | some sym =>
      match jit.loaded sym.key with
      | none => .error .outOfBounds
      | some m =>
          if sym.symbol = llvm.mangle (name m.field) then
            if h : m.field.type = type then .ok (h ▸ m.predicate) else .error .outOfBounds
          else .error .outOfBounds

namespace FitlerKernelImpl

/-- `FitlerKernelImpl::execute` on an array of some type; `bitmap` points to byte `byte` of the
buffer. -/
def execute (k : FitlerKernelImpl) (jit : JIT llvm) (type : DataType)
    (column : ArrayData type.CType) (bitmap : Bitmap) (byte offset : Nat) :
    Except Error (Bitmap × List Access) :=
  if k.isCompiled then
    match type.bitWidth with
    | some bitWidth => do
        let predicate ← jit.predicateAt type filterName k.filterFunc
        Pefa.filterFunc predicate column.values (bitWidth / 8) (bitWidth * offset % 2 ^ 64 / 8)
          bitmap (byte + if offset ≠ 0 then 1 else 0)
          (BitVec.ofNat 64 (sizeSub column.length offset))
    | none =>
        .error (.notImplemented "Variable length type filtering does not implemented yet")
  else .error .kernelNotCompiled

/-- `FitlerKernelImpl::execute_remaining` -/
def executeRemaining (k : FitlerKernelImpl) (jit : JIT llvm) (type : DataType)
    (column : ArrayData type.CType) (bitmap : Bitmap) (byte arrayOffset : Nat)
    (bitOffset : BitVec 8) : Except Error (Bitmap × List Access) :=
  if k.isCompiled then
    match type.bitWidth with
    | some bitWidth => do
        let predicate ← jit.predicateAt type filterRemainingName k.filterRemainingFunc
        Pefa.filterRemainingFunc predicate column.values (bitWidth / 8)
          (bitWidth * arrayOffset % 2 ^ 64 / 8) bitmap byte
          (FilterKernel.remainingLen column.length arrayOffset bitOffset) bitOffset
    | none =>
        .error (.notImplemented "Variable length type filtering does not implemented yet")
  else .error .kernelNotCompiled

/-- Make one call. -/
def runCall (k : FitlerKernelImpl) (jit : JIT llvm) (type : DataType)
    (column : ChunkedArray type.CType) (bitmap : Bitmap) :
    KernelCall → Except Error (Bitmap × List Access)
  | .execute chunk byte offset =>
      match column.chunks[chunk]? with
      | some c => k.execute jit type c bitmap byte offset
      | none => .error .outOfBounds
  | .executeRemaining chunk byte arrayOffset bitOffset =>
      match column.chunks[chunk]? with
      | some c => k.executeRemaining jit type c bitmap byte arrayOffset bitOffset
      | none => .error .outOfBounds

/-- Make the calls one after another. -/
def runCalls (k : FitlerKernelImpl) (jit : JIT llvm) (type : DataType)
    (column : ChunkedArray type.CType) : List KernelCall → Bitmap → Except Error Bitmap
  | [], bitmap => .ok bitmap
  | call :: calls, bitmap => do
      let (bitmap, _) ← k.runCall jit type column bitmap call
      k.runCalls jit type column calls bitmap

end FitlerKernelImpl

/-! ## The executor -/

namespace Jitted

/-- The buffer that `FilterExprExecutor::visit(const CompareExpr &)` fills. The kernel is destroyed
at the end of the visit, or when an exception leaves it. -/
def compareBuffer (table : Table) (lhs : ColumnRef) (rhs : LiteralExpr) (op : CompareOp) :
    Threaded (JIT llvm) Error Bitmap := fun jit =>
  let buffer := allocateFullBitmap table.numRows
  match table.getColumnByName lhs.name with
  | none => (.error .nullDeref, jit)
  | some column =>
      let kernel : FitlerKernelImpl := { field := column.field, expr := .compareExpr lhs rhs op }
      match kernel.compile jit with
      | .error e => (.error e, kernel.destroy jit)
      | .ok (kernel, jit) =>
          (kernel.runCalls jit column.field.type column.data (kernelCalls column.data.lens) buffer,
            kernel.destroy jit)

/-- `FilterExprExecutor::visit` -/
def visit (table : Table) : BooleanExpr → FilterExprExecutor →
    Threaded (JIT llvm) Error FilterExprExecutor
  | .booleanConst _, s => pure s
  | .predicateExpr lhs rhs op, s => do
      let s ← visit table lhs s
      let lhsBuf := s.mBuffer
      let s ← visit table rhs s
      let rhsBuf := s.mBuffer
      let buffers ← Threaded.ofExcept (combine op lhsBuf rhsBuf s.buffers)
      pure ⟨buffers, lhsBuf⟩
  | .compareExpr lhs rhs op, s => do
      let buffer ← compareBuffer table lhs rhs op
      pure ⟨s.buffers ++ [buffer], some s.buffers.length⟩

/-- `execution::generate_filter_bitmap` -/
def generateFilterBitmap (ctx : ExecutionContext) (expr : BooleanExpr) :
    Threaded (JIT llvm) Error ExecutionContext :=
  match ctx.table.columns with
  | [] => Threaded.ofExcept (ExecutionContext.create ctx.table)
  | c :: _ =>
      if c.data.numChunks = 0 then Threaded.ofExcept (ExecutionContext.create ctx.table)
      else do
        let s ← visit ctx.table expr ⟨[], none⟩
        let res ← Threaded.ofExcept (ExecutionContext.create ctx.table)
        pure { res with metadata := { res.metadata with filterBitmap := s.result } }

/-- `ExecutePlanVisitor`, on a plan that is not null. -/
def executePlan : LogicalPlan → ExecutionContext → Threaded (JIT llvm) Error ExecutionContext
  | .nullptr, ctx => pure ctx
  | .projectionNode input fields, ctx => do
      let ctx ← executePlan input ctx
      Threaded.ofExcept (project ctx fields)
  | .filterNode input expr, ctx => do
      let ctx ← executePlan input ctx
      generateFilterBitmap ctx expr
  | .materializeFilterNode input, ctx => do
      let ctx ← executePlan input ctx
      Threaded.ofExcept (materializeFilter ctx)

/-- `QueryCompiler::execute`; a plan that is optimized is not null. -/
def execute (plan : LogicalPlan) (table : Table) : Threaded (JIT llvm) Error Table := do
  let plan ← Threaded.ofExcept (optimize plan)
  let ctx ← Threaded.ofExcept (ExecutionContext.create table)
  let ctx ← executePlan plan ctx
  pure ctx.table

end Jitted

/-! ## The module of a comparison -/

/-- The keys of the resolvers were given out. -/
def JIT.ResolversGiven (jit : JIT llvm) : Prop :=
  ∀ key ∈ jit.resolvers, key ≤ llvm.layers.lastKey jit.layers

/-- The JIT after a module was added and removed again. -/
def JIT.passed (jit : JIT llvm) (m : FilterModule) : JIT llvm :=
  (jit.addModule m).2.removeModule (jit.addModule m).1

theorem JIT.lastKey_addModule (jit : JIT llvm) (m : FilterModule) :
    llvm.layers.lastKey (jit.addModule m).2.layers = (jit.addModule m).1 :=
  (llvm.layers.lastKey_add _ _ _).trans (llvm.layers.lastKey_allocate _)

theorem JIT.lastKey_passed (jit : JIT llvm) (m : FilterModule) :
    llvm.layers.lastKey (jit.passed m).layers = (jit.addModule m).1 :=
  (llvm.layers.lastKey_remove _ _).trans (jit.lastKey_addModule m)

theorem JIT.ResolversGiven.passed {jit : JIT llvm} (h : jit.ResolversGiven) (m : FilterModule) :
    (jit.passed m).ResolversGiven := by
  intro key hkey
  rw [JIT.lastKey_passed]
  rcases Finset.mem_insert.mp hkey with rfl | hkey
  · exact le_refl _
  · exact (h key hkey).trans (llvm.layers.lt_allocate jit.layers).le

theorem JIT.ResolversGiven.card_passed {jit : JIT llvm} (h : jit.ResolversGiven)
    (m : FilterModule) : (jit.passed m).resolvers.card = jit.resolvers.card + 1 := by
  have hnew : (jit.addModule m).1 ∉ jit.resolvers := fun hkey =>
    absurd (h _ hkey) (Nat.not_le_of_lt (llvm.layers.lt_allocate jit.layers))
  exact Finset.card_insert_of_notMem hnew

/-! ## What a comparison computes -/

theorem generate_of_predicate {field : Field} {expr : BooleanExpr}
    {predicate : field.type.CType → Bool} (h : genPredicateFunc field expr = .ok predicate) :
    generate field expr = .ok ⟨field, expr, predicate, h⟩ := by
  unfold generate
  split
  · next predicate' h' =>
      cases h.symm.trans h'
      rfl
  · next e h' => cases h.symm.trans h'

theorem generate_of_error {field : Field} {expr : BooleanExpr} {e : Error}
    (h : genPredicateFunc field expr = .error e) : generate field expr = .error e := by
  unfold generate
  split
  · next predicate' h' => cases h.symm.trans h'
  · next e' h' =>
      cases h.symm.trans h'
      rfl

/-- The pointers to both functions of a kernel lead to one predicate. -/
structure FitlerKernelImpl.Runs (k : FitlerKernelImpl) (jit : JIT llvm) (type : DataType)
    (predicate : type.CType → Bool) : Prop where
  isCompiled : k.isCompiled = true
  filter : jit.predicateAt type filterName k.filterFunc = .ok predicate
  filterRemaining :
    jit.predicateAt type filterRemainingName k.filterRemainingFunc = .ok predicate

section Runs

variable {k : FitlerKernelImpl} {jit : JIT llvm} {field : Field}
  {predicate : field.type.CType → Bool} (h : k.Runs jit field.type predicate)
  {kernel : FilterKernel field} (hkernel : kernel.predicate = some predicate)
include h hkernel

namespace FitlerKernelImpl.Runs

theorem execute (c : ArrayData field.type.CType) (bitmap : Bitmap) (byte offset : Nat) :
    k.execute jit field.type c bitmap byte offset = kernel.execute c bitmap byte offset := by
  cases hwidth : field.type.bitWidth with
  | none =>
      simp only [FitlerKernelImpl.execute, h.isCompiled, if_true, hwidth, FilterKernel.execute,
        hkernel]
  | some bitWidth =>
      have hkernel : kernel.execute c bitmap byte offset =
          Pefa.filterFunc predicate c.values (bitWidth / 8) (bitWidth * offset % 2 ^ 64 / 8) bitmap
            (byte + if offset ≠ 0 then 1 else 0) (BitVec.ofNat 64 (sizeSub c.length offset)) := by
        simp only [FilterKernel.execute, hkernel, hwidth]
      rw [hkernel, FitlerKernelImpl.execute, if_pos h.isCompiled]
      simp only [hwidth]
      rw [h.filter, bind_ok]

theorem executeRemaining (c : ArrayData field.type.CType) (bitmap : Bitmap) (byte arrayOffset : Nat)
    (bitOffset : BitVec 8) :
    k.executeRemaining jit field.type c bitmap byte arrayOffset bitOffset =
      kernel.executeRemaining c bitmap byte arrayOffset bitOffset := by
  cases hwidth : field.type.bitWidth with
  | none =>
      simp only [FitlerKernelImpl.executeRemaining, h.isCompiled, if_true, hwidth,
        FilterKernel.executeRemaining, hkernel]
  | some bitWidth =>
      have hkernel : kernel.executeRemaining c bitmap byte arrayOffset bitOffset =
          Pefa.filterRemainingFunc predicate c.values (bitWidth / 8)
            (bitWidth * arrayOffset % 2 ^ 64 / 8) bitmap byte
            (FilterKernel.remainingLen c.length arrayOffset bitOffset) bitOffset := by
        simp only [FilterKernel.executeRemaining, hkernel, hwidth]
      rw [hkernel, FitlerKernelImpl.executeRemaining, if_pos h.isCompiled]
      simp only [hwidth]
      rw [h.filterRemaining, bind_ok]

variable (column : ChunkedArray field.type.CType)

theorem runCall (bitmap : Bitmap) (call : KernelCall) :
    k.runCall jit field.type column bitmap call = Pefa.runCall kernel column bitmap call := by
  cases call with
  | execute chunk byte offset =>
      rw [FitlerKernelImpl.runCall, Pefa.runCall]
      cases hchunk : column.chunks[chunk]? with
      | none => rfl
      | some c => exact h.execute hkernel c bitmap byte offset
  | executeRemaining chunk byte arrayOffset bitOffset =>
      rw [FitlerKernelImpl.runCall, Pefa.runCall]
      cases hchunk : column.chunks[chunk]? with
      | none => rfl
      | some c => exact h.executeRemaining hkernel c bitmap byte arrayOffset bitOffset

/-- **What a kernel computes** whose pointers lead to a predicate. -/
theorem runCalls (calls : List KernelCall) (bitmap : Bitmap) :
    k.runCalls jit field.type column calls bitmap = Pefa.runCalls kernel column calls bitmap := by
  induction calls generalizing bitmap with
  | nil => rfl
  | cons call calls ih =>
      rw [FitlerKernelImpl.runCalls, Pefa.runCalls, h.runCall hkernel]
      simp only [ih]

end FitlerKernelImpl.Runs

end Runs

/-- What the comparisons of a field's column are answered by: by themselves, where no module exports
a name of the field, or by the comparison that both of its names lead to. -/
structure Answers (jit : JIT llvm) (held : String → Option (LiteralExpr × CompareOp)) (f : Field) :
    Prop where
  own : held f.name = none →
    jit.findSymbol (filterName f) = none ∧ jit.findSymbol (filterRemainingName f) = none
  other : ∀ answer, held f.name = some answer → ∃ predicate,
    genPredicateFunc f (.compareExpr ⟨f.name⟩ answer.1 answer.2) = .ok predicate ∧
      jit.predicateAt f.type filterName (jit.findSymbol (filterName f)) = .ok predicate ∧
      jit.predicateAt f.type filterRemainingName (jit.findSymbol (filterRemainingName f)) =
        .ok predicate

/-- The JIT as it is between two comparisons: the modules are those that were loaded before. -/
structure Beside (jit₀ jit : JIT llvm) : Prop where
  keysGiven : jit.KeysGiven
  resolversGiven : jit.ResolversGiven
  loaded : jit.loaded = jit₀.loaded
  lastKey_le : llvm.layers.lastKey jit₀.layers ≤ llvm.layers.lastKey jit.layers

/-- What is found depends on what is loaded. -/
theorem JIT.findSymbol_congr {jit jit' : JIT llvm} (h : jit.loaded = jit'.loaded) (name : String) :
    jit.findSymbol name = jit'.findSymbol name := by
  have hfind : llvm.layers.find jit.layers (llvm.mangle name) =
      llvm.layers.find jit'.layers (llvm.mangle name) := by
    apply Option.ext
    intro key
    have hloaded : llvm.layers.loaded jit.layers = llvm.layers.loaded jit'.layers := h
    rw [llvm.layers.find_eq_some, llvm.layers.find_eq_some, hloaded]
  rw [findSymbol, findSymbol, hfind]

theorem JIT.predicateAt_congr {jit jit' : JIT llvm} (h : jit.loaded = jit'.loaded) (type : DataType)
    (name : Field → String) (f : Option JITSymbol) :
    jit.predicateAt type name f = jit'.predicateAt type name f := by
  cases f with
  | none => rfl
  | some sym => rw [predicateAt, predicateAt, h]

theorem Answers.congr {jit jit' : JIT llvm} {held : String → Option (LiteralExpr × CompareOp)}
    {f : Field} (h : jit.loaded = jit'.loaded) (ha : Answers jit' held f) : Answers jit held f := by
  constructor
  · simp only [JIT.findSymbol_congr h]
    exact ha.own
  · simp only [JIT.findSymbol_congr h, JIT.predicateAt_congr h]
    exact ha.other

section Compiled

variable {jit : JIT llvm} (hkeys : jit.KeysGiven) (m : FilterModule)
include hkeys

/-- A predicate that was run before is still run when a module was added. -/
theorem JIT.predicateAt_addModule {type : DataType} {name : Field → String} {f : Option JITSymbol}
    {predicate : type.CType → Bool} (h : jit.predicateAt type name f = .ok predicate) :
    (jit.addModule m).2.predicateAt type name f = .ok predicate := by
  cases f with
  | none => cases h
  | some sym =>
      cases hloaded : jit.loaded sym.key with
      | none =>
          simp only [predicateAt, hloaded] at h
          cases h
      | some m' =>
          have hne : sym.key ≠ (jit.addModule m).1 := by
            intro heq
            rw [heq, loaded_newKey hkeys] at hloaded
            cases hloaded
          simp only [predicateAt, loaded_addModule, update_of_ne hne]
          simp only [predicateAt] at h
          exact h

/-- A name that is found once a module was added leads where it led before. -/
theorem JIT.predicateAt_found {type : DataType} {name : Field → String} {symbol : String}
    {predicate : type.CType → Bool}
    (h : jit.predicateAt type name (jit.findSymbol symbol) = .ok predicate) :
    (jit.addModule m).2.predicateAt type name ((jit.addModule m).2.findSymbol symbol) =
      .ok predicate := by
  cases hfind : jit.findSymbol symbol with
  | none =>
      rw [hfind] at h
      cases h
  | some sym =>
      rw [findSymbol_addModule_of_some hkeys hfind, ← hfind]
      exact predicateAt_addModule hkeys m h

omit hkeys in
/-- A name that was not found before leads to the new module. -/
theorem JIT.predicateAt_new {name : Field → String}
    (hfind : jit.findSymbol (name m.field) = none)
    (hname : llvm.mangle (name m.field) ∈ m.exports llvm.mangle) :
    (jit.addModule m).2.predicateAt m.field.type name
      ((jit.addModule m).2.findSymbol (name m.field)) = .ok m.predicate := by
  rw [findSymbol_addModule_of_none hfind hname]
  simp only [predicateAt, loaded_addModule, update_self, if_true, dite_true]

/-- Adding a module and removing it again leaves what was loaded. -/
theorem JIT.loaded_passed : (jit.passed m).loaded = jit.loaded := by
  rw [passed, loaded_removeModule, loaded_addModule, update_idem]
  have hnone := loaded_newKey hkeys m
  rw [← hnone]
  exact update_eq_self _ _

end Compiled

theorem Beside.passed {jit₀ jit : JIT llvm} (h : Beside jit₀ jit) (m : FilterModule) :
    Beside jit₀ (jit.passed m) where
  keysGiven := Linker.keysGiven_remove (Linker.keysGiven_add h.keysGiven m) _
  resolversGiven := h.resolversGiven.passed m
  loaded := (JIT.loaded_passed h.keysGiven m).trans h.loaded
  lastKey_le := by
    rw [JIT.lastKey_passed]
    exact h.lastKey_le.trans (llvm.layers.lt_allocate _).le

/-- The number of resolvers. -/
def JIT.resolverCount (jit : JIT llvm) : Nat := jit.resolvers.card

section Query

variable {jit₀ : JIT llvm} {held : String → Option (LiteralExpr × CompareOp)} {exact : Prop}

/-- The comparisons that are answered by another one compile. -/
def HeldCompile (held : String → Option (LiteralExpr × CompareOp)) (fields : List Field)
    (leaf : ColumnRef × LiteralExpr × CompareOp) : Prop :=
  ∀ f ∈ fields, f.name = leaf.1.name → (held leaf.1.name).isSome →
    ∃ m, generate f (.compareExpr leaf.1 leaf.2.1 leaf.2.2) = .ok m

theorem FitlerKernelImpl.compile_of_generate {k : FitlerKernelImpl} {m : FilterModule}
    (h : generate k.field k.expr = .ok m) (jit : JIT llvm) :
    k.compile jit = .ok ({ k with
      moduleKey := (jit.addModule m).1
      filterFunc := (jit.addModule m).2.findSymbol (filterName k.field)
      filterRemainingFunc := (jit.addModule m).2.findSymbol (filterRemainingName k.field)
      isCompiled := true }, (jit.addModule m).2) := by
  rw [compile, h, bind_ok]

/-- The kernel of a comparison runs what its column is answered by. -/
theorem runs_compiled {jit : JIT llvm} (hkeys : jit.KeysGiven) {field : Field} {rhs : LiteralExpr}
    {op : CompareOp} {predicate : field.type.CType → Bool} (hanswer : Answers jit held field)
    (hgen : genPredicateFunc field (.compareExpr ⟨field.name⟩ rhs op) = .ok predicate) :
    ∃ p k, genPredicateFunc field (.compareExpr ⟨field.name⟩ ((held field.name).getD (rhs, op)).1
        ((held field.name).getD (rhs, op)).2) = .ok p ∧
      FitlerKernelImpl.compile { field := field, expr := .compareExpr ⟨field.name⟩ rhs op } jit =
        .ok (k, (jit.addModule ⟨field, _, predicate, hgen⟩).2) ∧
      k.moduleKey = (jit.addModule ⟨field, _, predicate, hgen⟩).1 ∧
      k.Runs (jit.addModule ⟨field, _, predicate, hgen⟩).2 field.type p := by
  have hcompile := FitlerKernelImpl.compile_of_generate
    (k := { field := field, expr := .compareExpr ⟨field.name⟩ rhs op })
    (generate_of_predicate hgen) jit
  cases hheld : held field.name with
  | none =>
      obtain ⟨hfilter, hremaining⟩ := hanswer.own hheld
      exact ⟨predicate, _, hgen, hcompile, rfl, rfl,
        JIT.predicateAt_new ⟨field, _, predicate, hgen⟩ hfilter (exports_filterName rfl),
        JIT.predicateAt_new ⟨field, _, predicate, hgen⟩ hremaining
          (exports_filterRemainingName rfl)⟩
  | some answer =>
      obtain ⟨p, hp, hfilter, hremaining⟩ := hanswer.other answer hheld
      exact ⟨p, _, hp, hcompile, rfl, rfl, JIT.predicateAt_found hkeys _ hfilter,
        JIT.predicateAt_found hkeys _ hremaining⟩

/-- **What a comparison computes** through the JIT: the comparison that its column is answered
by. -/
theorem compareBuffer_computes {table : Table} (lhs : ColumnRef) (rhs : LiteralExpr)
    (op : CompareOp) (hanswers : ∀ f ∈ table.fields, Answers jit₀ held f)
    (hcompile : HeldCompile held table.fields (lhs, rhs, op)) :
    Threaded.Computes (Beside jit₀) JIT.resolverCount exact (Jitted.compareBuffer table lhs rhs op)
      (compareBuffer table lhs ((held lhs.name).getD (rhs, op)).1
        ((held lhs.name).getD (rhs, op)).2) 1 := by
  intro jit hjit
  cases hcolumn : table.getColumnByName lhs.name with
  | none =>
      have hplain : compareBuffer table lhs ((held lhs.name).getD (rhs, op)).1
          ((held lhs.name).getD (rhs, op)).2 = .error .nullDeref := by
        simp only [compareBuffer, hcolumn]
      have hrun : Jitted.compareBuffer table lhs rhs op jit = (.error .nullDeref, jit) := by
        simp only [Jitted.compareBuffer, hcolumn]
      rw [hplain]
      exact .of_run hrun hjit (Nat.le_refl _) (Nat.le_succ _) fun _ h => by cases h
  | some column =>
      obtain ⟨hmem, hname⟩ := Table.getColumnByName_mem hcolumn
      have hfield : column.field ∈ table.fields := List.mem_map_of_mem hmem
      have hanswer := (hanswers _ hfield).congr hjit.loaded
      obtain ⟨name⟩ := lhs
      obtain rfl : column.name = name := hname
      cases hgen : genPredicateFunc column.field (.compareExpr ⟨column.name⟩ rhs op) with
      | error e =>
          -- the exception is thrown before a module is added
          have hheld : held column.name = none := by
            by_contra hsome
            obtain ⟨m, hm⟩ := hcompile _ hfield rfl (Option.isSome_iff_ne_none.mpr hsome)
            cases (generate_of_error hgen).symm.trans hm
          have hplain : compareBuffer table ⟨column.name⟩ rhs op = .error e := by
            simp only [compareBuffer, hcolumn, FilterKernel.compile, FilterKernel.createCpu, hgen,
              bind_error]
          have hrun : Jitted.compareBuffer table ⟨column.name⟩ rhs op jit = (.error e, jit) := by
            simp only [Jitted.compareBuffer, hcolumn, FitlerKernelImpl.compile,
              generate_of_error hgen, bind_error, FitlerKernelImpl.destroy]
            rfl
          rw [hheld, Option.getD_none, hplain]
          exact .of_run hrun hjit (Nat.le_refl _) (Nat.le_succ _) fun _ h => by cases h
      | ok predicate =>
          obtain ⟨p, k, hp, hcompiled, hkey, hruns⟩ := runs_compiled hjit.keysGiven hanswer hgen
          generalize (held column.name).getD (rhs, op) = answer at hp ⊢
          obtain ⟨kernel, hkernel⟩ : ∃ kernel : FilterKernel column.field,
              kernel = ⟨.compareExpr ⟨column.name⟩ answer.1 answer.2, some p⟩ := ⟨_, rfl⟩
          have hplain : compareBuffer table ⟨column.name⟩ answer.1 answer.2 =
              runCalls kernel column.data (kernelCalls column.data.lens)
                (allocateFullBitmap table.numRows) := by
            simp only [compareBuffer, hcolumn, FilterKernel.compile, FilterKernel.createCpu, hp,
              bind_ok, hkernel]
          have hrun : Jitted.compareBuffer table ⟨column.name⟩ rhs op jit =
              (runCalls kernel column.data (kernelCalls column.data.lens)
                (allocateFullBitmap table.numRows),
                jit.passed ⟨column.field, _, predicate, hgen⟩) := by
            simp only [Jitted.compareBuffer, hcolumn, hcompiled]
            have hp : kernel.predicate = some p := by rw [hkernel]
            rw [hruns.runCalls hp, FitlerKernelImpl.destroy, if_pos hruns.isCompiled, hkey]
            rfl
          have hspent := hjit.resolversGiven.card_passed ⟨column.field, _, predicate, hgen⟩
          rw [hplain]
          exact .of_run hrun (hjit.passed _) (Nat.le_of_succ_le hspent.ge) hspent.le
            fun _ _ => hspent

/-- **What a tree computes** through the JIT, with one resolver for each of its comparisons. -/
theorem visit_computes {table : Table} (hanswers : ∀ f ∈ table.fields, Answers jit₀ held f)
    (e : BooleanExpr) (hcompile : ∀ leaf ∈ e.comparisons, HeldCompile held table.fields leaf) :
    ∀ s : FilterExprExecutor, Threaded.Computes (Beside jit₀) JIT.resolverCount exact
      (Jitted.visit table e s) (FilterExprExecutor.visit table (e.answered held) s)
      e.comparisons.length := by
  induction e with
  | booleanConst value => exact fun s => .ofExcept (.ok s)
  | predicateExpr lhs rhs op ihl ihr =>
      intro s
      have hl := fun leaf h => hcompile leaf (List.mem_append_left _ h)
      have hr := fun leaf h => hcompile leaf (List.mem_append_right _ h)
      rw [BooleanExpr.comparisons, List.length_append]
      exact (ihl hl s).bind fun s₁ _ => (ihr hr s₁).bind fun s₂ _ =>
        (Threaded.Computes.ofExcept _).bind fun _ _ => .ofExcept (.ok _)
  | compareExpr lhs rhs op =>
      intro s
      exact (compareBuffer_computes lhs rhs op hanswers (hcompile _ List.mem_cons_self)).bind
        fun _ _ => .ofExcept (.ok _)

/-! ## What a query computes -/

/-- Every column has a chunk, and there is a column. -/
def Table.HasRows (t : Table) : Prop := t.columns ≠ [] ∧ HasChunks t

theorem generateFilterBitmap_computes {ctx : ExecutionContext}
    (hanswers : ∀ f ∈ ctx.table.fields, Answers jit₀ held f) (e : BooleanExpr)
    (hcompile : ∀ leaf ∈ e.comparisons, HeldCompile held ctx.table.fields leaf)
    (hrows : exact → ctx.table.HasRows) :
    Threaded.Computes (Beside jit₀) JIT.resolverCount exact (Jitted.generateFilterBitmap ctx e)
      (generateFilterBitmap ctx (e.answered held)) e.comparisons.length := by
  cases hcols : ctx.table.columns with
  | nil =>
      simp only [Jitted.generateFilterBitmap, generateFilterBitmap, hcols]
      exact (Threaded.Computes.ofExcept _).skip (fun h => (hrows h).1 hcols) _
  | cons c cs =>
      by_cases hchunks : c.data.numChunks = 0
      · simp only [Jitted.generateFilterBitmap, generateFilterBitmap, hcols, if_pos hchunks]
        refine (Threaded.Computes.ofExcept _).skip (fun h => ?_) _
        have hmem : c ∈ ctx.table.columns := by
          rw [hcols]
          exact List.mem_cons_self
        exact (hrows h).2 c hmem (List.eq_nil_of_length_eq_zero hchunks)
      · simp only [Jitted.generateFilterBitmap, generateFilterBitmap, hcols, if_neg hchunks]
        exact (visit_computes hanswers e hcompile _).bind fun _ _ =>
          (Threaded.Computes.ofExcept _).bind fun _ _ => .ofExcept (.ok _)

/-- What stays of a table on the way through a plan: its columns are columns of the fields that were
there, and while rows are looked for, there are columns with chunks. -/
structure Within (fields : List Field) (exact : Prop) (t : Table) : Prop where
  fields : ∀ f ∈ t.fields, f ∈ fields
  rows : exact → t.HasRows

theorem Within.project {fields : List Field} {ctx ctx' : ExecutionContext} {names : List String}
    (h : Within fields exact ctx.table) (hnames : exact → names ≠ [])
    (hproject : project ctx names = .ok ctx') : Within fields exact ctx'.table := by
  obtain ⟨cols, hpicks, htable⟩ := project_picks hproject
  have hmem : ∀ c ∈ cols, c ∈ ctx.table.columns := by
    intro c hc
    obtain ⟨name, -, hname⟩ := forall₂_mem_right hpicks hc
    exact onlyNamed_mem hname
  rw [htable]
  constructor
  · intro f hf
    obtain ⟨c, hc, rfl⟩ := List.mem_map.mp hf
    exact h.fields _ (List.mem_map_of_mem (hmem c hc))
  · intro hexact
    refine ⟨fun hnil => hnames hexact ?_, fun c hc => (h.rows hexact).2 c (hmem c hc)⟩
    have hnil : cols = [] := hnil
    rw [hnil] at hpicks
    exact List.forall₂_nil_right_iff.mp hpicks

theorem Within.materialize {fields : List Field} {ctx ctx' : ExecutionContext}
    (h : Within fields exact ctx.table) (hmat : materializeFilter ctx = .ok ctx') :
    Within fields exact ctx'.table := by
  have hfields : ctx'.table.fields = ctx.table.fields :=
    fields_of_madeBy (materializeFilter_madeBy hmat)
  refine ⟨by rw [hfields]; exact h.fields, fun hexact => ⟨fun hnil => ?_,
    hasChunks_of_materializeFilter hmat⟩⟩
  have hnil : ctx.table.fields = [] := by
    rw [← hfields, Table.fields, hnil]
    rfl
  exact (h.rows hexact).1 (List.map_eq_nil_iff.mp hnil)

/-- **What a plan computes** through the JIT. -/
theorem executePlan_computes {fields : List Field} (hanswers : ∀ f ∈ fields, Answers jit₀ held f)
    {plan : LogicalPlan} (hcompile : ∀ leaf ∈ plan.comparisons, HeldCompile held fields leaf)
    (hnames : exact → ∀ names ∈ plan.projections, names ≠ []) :
    ∀ {ctx : ExecutionContext}, Within fields exact ctx.table →
      Threaded.Computes (Beside jit₀) JIT.resolverCount exact (Jitted.executePlan plan ctx)
        (executor.visit (plan.answered held) ctx) plan.comparisons.length ∧
      ∀ ctx', executor.visit (plan.answered held) ctx = .ok ctx' →
        Within fields exact ctx'.table := by
  induction plan with
  | nullptr =>
      intro ctx hctx
      refine ⟨.ofExcept (.ok ctx), fun ctx' h => ?_⟩
      cases h
      exact hctx
  | projectionNode input names ih =>
      intro ctx hctx
      obtain ⟨hrun, hwithin⟩ := ih hcompile
        (fun h names' hn => hnames h names' (List.mem_append_left _ hn)) hctx
      refine ⟨hrun.bind fun ctx₁ _ => .ofExcept _, fun ctx' h => ?_⟩
      obtain ⟨ctx₁, hctx₁, h⟩ := bind_eq_ok.mp h
      exact (hwithin ctx₁ hctx₁).project
        (fun h => hnames h names (List.mem_append_right _ List.mem_cons_self)) h
  | filterNode input e ih =>
      intro ctx hctx
      obtain ⟨hrun, hwithin⟩ := ih (fun leaf h => hcompile leaf (List.mem_append_left _ h)) hnames
        hctx
      rw [LogicalPlan.comparisons, List.length_append]
      refine ⟨hrun.bind fun ctx₁ hctx₁ => ?_, fun ctx' h => ?_⟩
      · have hwithin := hwithin ctx₁ hctx₁
        refine generateFilterBitmap_computes (fun f hf => hanswers f (hwithin.fields f hf)) e
          (fun leaf hleaf f hf => ?_) hwithin.rows
        exact hcompile leaf (List.mem_append_right _ hleaf) f (hwithin.fields f hf)
      · obtain ⟨ctx₁, hctx₁, h⟩ := bind_eq_ok.mp h
        rw [generateFilterBitmap_table h]
        exact hwithin ctx₁ hctx₁
  | materializeFilterNode input ih =>
      intro ctx hctx
      obtain ⟨hrun, hwithin⟩ := ih hcompile hnames hctx
      refine ⟨hrun.bind fun ctx₁ _ => .ofExcept _, fun ctx' h => ?_⟩
      obtain ⟨ctx₁, hctx₁, h⟩ := bind_eq_ok.mp h
      exact (hwithin ctx₁ hctx₁).materialize h

/-- **What a query computes** through the JIT: what it computes without, on the plan in which the
comparisons of a column are those that the column is answered by. -/
theorem execute_computes {plan : LogicalPlan} {table : Table}
    (hanswers : ∀ f ∈ table.fields, Answers jit₀ held f)
    (hcompile : ∀ leaf ∈ plan.comparisons, HeldCompile held table.fields leaf)
    (hnames : exact → ∀ names ∈ plan.projections, names ≠ []) (hrows : exact → table.HasRows) :
    Threaded.Computes (Beside jit₀) JIT.resolverCount exact (Jitted.execute plan table)
      (execute (plan.answered held) table) plan.comparisons.length := by
  rw [Jitted.execute, execute]
  cases hopt : optimize plan with
  | error e =>
      obtain rfl := optimize_eq_error hopt
      rw [LogicalPlan.answered, hopt, Threaded.ofExcept_error_bind, bind_error]
      exact .ofExcept (.error e)
  | ok plan' =>
      have hanswered := optimize_answered hopt held
      have hne := optimize_ne_nullptr hanswered
      have hplan' : ∀ ctx, ExecutionContext.create table = .ok ctx →
          Within table.fields exact ctx.table := by
        intro ctx hctx
        rw [(ExecutionContext.create_eq_ok hctx).1]
        exact ⟨fun _ hf => hf, hrows⟩
      rw [← comparisons_optimize hopt] at hcompile ⊢
      rw [← projections_optimize hopt] at hnames
      rw [hanswered, Threaded.ofExcept_ok_bind, bind_ok, ← Nat.zero_add plan'.comparisons.length]
      refine (Threaded.Computes.ofExcept _).bind fun ctx hctx => ?_
      rw [PlanVisitor.start_of_ne hne]
      exact (executePlan_computes hanswers hcompile hnames (hplan' ctx hctx)).1.bind
        fun _ _ => .ofExcept (.ok _)

end Query

end Pefa
