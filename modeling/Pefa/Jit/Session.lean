import Pefa.Jit.JitExecution

/-!
# Sessions

A process may hold kernels of its own while it executes queries, and all of them share one JIT. A
session is a sequence of operations on kernels and of queries, in any order.

A query leaves the loaded modules as they were, however it ends, so the kernels that are held do not
notice it: they run their own code, and own the modules that are loaded, under the conditions that
hold without queries (`session_kernels_iff`). The other way round a query notices a kernel that is
held if the kernel's names are those of one of the table's columns. If there is none, the query
returns what it returns in a process of its own (`session_results`). If there is one, every
comparison of the column is answered by the kernel's (`session_hijacked`).

What is left of a query is a resolver for each of its comparisons (`queries_leave_resolvers`).
-/

namespace Pefa

open Function Ownership Runs

variable {llvm : Llvm}

/-! ## One step of a session -/

inductive SessionOp where
  | kernel (op : KernelOp)
  | execute (plan : LogicalPlan) (table : Table)

/-- One operation on a kernel, or one query. The process goes on after an exception, and not after
any other error. -/
def Process.stepSession (s : Process llvm) : SessionOp → Option (Process llvm)
  | .kernel op => s.step op
  | .execute plan table =>
      match Jitted.execute plan table s.jit with
      | (.ok _, jit) => some { s with jit := jit }
      | (.error e, jit) => if e.isException then some { s with jit := jit } else none

/-- **A comparison leaves the loaded modules as they were**, however it ends. -/
theorem compareBuffer_keeps (jit₀ : JIT llvm) (table : Table) (lhs : ColumnRef) (rhs : LiteralExpr)
    (op : CompareOp) : Threaded.Keeps (Beside jit₀) (Jitted.compareBuffer table lhs rhs op) := by
  intro jit hjit
  cases hcolumn : table.getColumnByName lhs.name with
  | none =>
      simp only [Jitted.compareBuffer, hcolumn]
      exact hjit
  | some column =>
      cases hgen : generate column.field (.compareExpr lhs rhs op) with
      | error e =>
          simp only [Jitted.compareBuffer, hcolumn, FitlerKernelImpl.compile, hgen, bind_error]
          exact hjit
      | ok m =>
          have hcompiled := FitlerKernelImpl.compile_of_generate
            (k := { field := column.field, expr := .compareExpr lhs rhs op }) hgen jit
          simp only [Jitted.compareBuffer, hcolumn, hcompiled, FitlerKernelImpl.destroy, if_true]
          exact hjit.passed m

/-- **A query leaves the loaded modules as they were**, however it ends. -/
theorem execute_keeps (jit₀ : JIT llvm) (plan : LogicalPlan) (table : Table) :
    Threaded.Keeps (Beside jit₀) (Jitted.execute plan table) := by
  have hvisit : ∀ (table : Table) (e : BooleanExpr) (s : FilterExprExecutor),
      Threaded.Keeps (Beside jit₀) (Jitted.visit table e s) := by
    intro table e
    induction e with
    | booleanConst value => exact fun s => .ofExcept _
    | predicateExpr lhs rhs op ihl ihr =>
        exact fun s => (ihl s).bind fun s₁ => (ihr s₁).bind fun s₂ =>
          (Threaded.Keeps.ofExcept _).bind fun _ => .ofExcept _
    | compareExpr lhs rhs op =>
        exact fun s => (compareBuffer_keeps jit₀ table lhs rhs op).bind fun _ => .ofExcept _
  have hplan : ∀ (plan : LogicalPlan) (ctx : ExecutionContext),
      Threaded.Keeps (Beside jit₀) (Jitted.executePlan plan ctx) := by
    intro plan
    induction plan with
    | nullptr => exact fun ctx => .ofExcept _
    | projectionNode input names ih => exact fun ctx => (ih ctx).bind fun _ => .ofExcept _
    | filterNode input e ih =>
        refine fun ctx => (ih ctx).bind fun ctx₁ => ?_
        unfold Jitted.generateFilterBitmap
        split
        · exact .ofExcept _
        · split
          · exact .ofExcept _
          · exact (hvisit _ _ _).bind fun _ => (Threaded.Keeps.ofExcept _).bind fun _ => .ofExcept _
    | materializeFilterNode input ih => exact fun ctx => (ih ctx).bind fun _ => .ofExcept _
  exact (Threaded.Keeps.ofExcept _).bind fun plan => (Threaded.Keeps.ofExcept _).bind fun ctx =>
    (hplan plan ctx).bind fun _ => .ofExcept _

/-! ## The state of a session -/

/-- What is the case in all states of a session: modules are loaded, and resolvers kept, under keys
that were given out, and the module under the key of a compiled kernel is the kernel's. -/
structure Process.SessionInv (s : Process llvm) : Prop extends s.Sound where
  resolversGiven : s.jit.ResolversGiven
  keyGiven : ∀ i k, s.kernel? i = some k → k.isCompiled = true →
    k.moduleKey ≤ llvm.layers.lastKey s.jit.layers
  ownModule : ∀ i k m, s.kernel? i = some k → k.isCompiled = true →
    s.jit.loaded k.moduleKey = some m → generate k.field k.expr = .ok m

theorem Process.sessionInv_start : (Process.start : Process llvm).SessionInv where
  toSound := Process.sound_start
  resolversGiven := fun _ hkey => absurd hkey (Finset.notMem_empty _)
  keyGiven := fun _ _ hk => by cases hk
  ownModule := fun _ _ _ hk => by cases hk

theorem JIT.lastKey_lt_addModule (jit : JIT llvm) (m : FilterModule) :
    llvm.layers.lastKey jit.layers < (jit.addModule m).1 := llvm.layers.lt_allocate _

/-- A query changes nothing that the kernels know of. -/
theorem Process.beside_execute {s s' : Process llvm} {plan : LogicalPlan} {table : Table}
    (hs : s.SessionInv) (h : s.stepSession (.execute plan table) = some s') :
    s'.kernels = s.kernels ∧ s'.jit = (Jitted.execute plan table s.jit).2 ∧
      Beside s.jit s'.jit := by
  have hbeside := execute_keeps s.jit plan table s.jit
    ⟨hs.keysGiven, hs.resolversGiven, rfl, Nat.le_refl _⟩
  rw [stepSession] at h
  rcases hrun : Jitted.execute plan table s.jit with ⟨result, jit⟩
  rw [hrun] at h hbeside
  cases result with
  | ok out =>
      cases h
      exact ⟨rfl, rfl, hbeside⟩
  | error e =>
      simp only at h
      split at h
      · cases h
        exact ⟨rfl, rfl, hbeside⟩
      · cases h

theorem Process.kernel?_congr {s s' : Process llvm} (h : s'.kernels = s.kernels) :
    s'.kernel? = s.kernel? := by
  funext i
  rw [kernel?, h]
  rfl

/-- One operation on a kernel keeps the state of a session. -/
theorem Process.sessionInv_step {s s' : Process llvm} {op : KernelOp} (hs : s.SessionInv)
    (h : s.step op = some s') : s'.SessionInv := by
  have hsound := Process.sound_step hs.toSound h
  cases Process.stepped h with
  | @created field expr _ i hi hjit hkernels =>
      refine ⟨hsound, hjit ▸ hs.resolversGiven, fun j k hk hcompiled => ?_,
        fun j k m hk hcompiled hm => ?_⟩
      · rw [hkernels] at hk
        rcases update_eq_some_iff.mp hk with ⟨-, hk⟩ | ⟨-, hk⟩
        · cases hk
          cases hcompiled
        · rw [hjit]
          exact hs.keyGiven j k hk hcompiled
      · rw [hkernels] at hk
        rcases update_eq_some_iff.mp hk with ⟨-, hk⟩ | ⟨-, hk⟩
        · cases hk
          cases hcompiled
        · rw [hjit] at hm
          exact hs.ownModule j k m hk hcompiled hm
  | @compiled i _ k m hk hm hjit hkernels =>
      have hlast := JIT.lastKey_lt_addModule s.jit m
      refine ⟨hsound, ?_, fun j k' hk' hcompiled => ?_, fun j k' m' hk' hcompiled hm' => ?_⟩
      · intro key hkey
        rw [hjit, JIT.lastKey_addModule]
        rw [hjit] at hkey
        rcases Finset.mem_insert.mp hkey with rfl | hkey
        · exact Nat.le_refl _
        · exact (hs.resolversGiven key hkey).trans hlast.le
      · rw [hjit, JIT.lastKey_addModule]
        rw [hkernels] at hk'
        rcases update_eq_some_iff.mp hk' with ⟨-, hk'⟩ | ⟨-, hk'⟩
        · cases hk'
          exact Nat.le_refl _
        · exact (hs.keyGiven j k' hk' hcompiled).trans hlast.le
      · rw [hjit, JIT.loaded_addModule] at hm'
        rw [hkernels] at hk'
        rcases update_eq_some_iff.mp hk' with ⟨-, hk'⟩ | ⟨-, hk'⟩
        · cases hk'
          rw [update_self] at hm'
          cases hm'
          exact hm
        · -- the keys of the other kernels were given out before
          have hne : k'.moduleKey ≠ (s.jit.addModule m).1 :=
            ((hs.keyGiven j k' hk' hcompiled).trans_lt hlast).ne
          rw [update_of_ne hne] at hm'
          exact hs.ownModule j k' m' hk' hcompiled hm'
  | @threw i k e hk hm => exact hs
  | @destroyed i _ k hk hjit hkernels =>
      have hlast : llvm.layers.lastKey s'.jit.layers = llvm.layers.lastKey s.jit.layers := by
        rw [hjit, FitlerKernelImpl.destroy]
        split
        · exact llvm.layers.lastKey_remove _ _
        · rfl
      have hresolvers : s'.jit.resolvers = s.jit.resolvers := by
        rw [hjit, FitlerKernelImpl.destroy]
        split <;> rfl
      have hloaded : ∀ key m, s'.jit.loaded key = some m → s.jit.loaded key = some m := by
        intro key m hm
        rw [hjit, FitlerKernelImpl.destroy] at hm
        split at hm
        · rw [JIT.loaded_removeModule] at hm
          rcases update_eq_some_iff.mp hm with ⟨-, hm⟩ | ⟨-, hm⟩
          · cases hm
          · exact hm
        · exact hm
      have hold : ∀ j k', s'.kernel? j = some k' → s.kernel? j = some k' := by
        intro j k' hk'
        rw [hkernels] at hk'
        rcases update_eq_some_iff.mp hk' with ⟨-, hk'⟩ | ⟨-, hk'⟩
        · cases hk'
        · exact hk'
      refine ⟨hsound, fun key hkey => ?_, fun j k' hk' hcompiled => ?_,
        fun j k' m' hk' hcompiled hm' => ?_⟩
      · rw [hlast]
        exact hs.resolversGiven key (hresolvers ▸ hkey)
      · rw [hlast]
        exact hs.keyGiven j k' (hold j k' hk') hcompiled
      · exact hs.ownModule j k' m' (hold j k' hk') hcompiled (hloaded _ _ hm')

/-- **The state of a session** is kept by each of its steps. -/
theorem Process.sessionInv_stepSession {s s' : Process llvm} {op : SessionOp} (hs : s.SessionInv)
    (h : s.stepSession op = some s') : s'.SessionInv := by
  cases op with
  | kernel op => exact Process.sessionInv_step hs h
  | execute plan table =>
      obtain ⟨hkernels, -, hbeside⟩ := Process.beside_execute hs h
      have hkernel := Process.kernel?_congr hkernels
      refine ⟨⟨hbeside.keysGiven, ?_⟩, hbeside.resolversGiven, ?_, ?_⟩
      · rw [hkernel]
        exact hs.generated
      · rw [hkernel]
        exact fun i k hk hcompiled => (hs.keyGiven i k hk hcompiled).trans hbeside.lastKey_le
      · rw [hkernel, hbeside.loaded]
        exact hs.ownModule

theorem Process.sessionInv_run {ops : List SessionOp} :
    ∀ {s s' : Process llvm}, s.SessionInv → run Process.stepSession s ops = some s' →
      s'.SessionInv := by
  induction ops with
  | nil =>
      intro s s' hs h
      cases h
      exact hs
  | cons op ops ih =>
      intro s s' hs h
      obtain ⟨s₁, hs₁, h⟩ := Option.bind_eq_some_iff.mp h
      exact ih (Process.sessionInv_stepSession hs hs₁) h

/-! ## What a query does to the kernels -/

/-- What a kernel operation of a session must meet; a query need not meet anything. -/
def SessionOp.Keeps (g : Process llvm → KernelOp → Prop) (s : Process llvm) : SessionOp → Prop
  | .kernel op => g s op
  | .execute _ _ => True

/-- **What one step must meet** for the kernels to run their own code. -/
theorem ownCode_stepSession_iff {s s' : Process llvm} {op : SessionOp} (hs : s.SessionInv)
    (hown : OwnCode s) (h : s.stepSession op = some s') :
    OwnCode s' ↔ op.Keeps KeepsOwnCode s := by
  cases op with
  | kernel op => exact ownCode_step_iff hs.keysGiven hown h
  | execute plan table =>
      obtain ⟨hkernels, -, hbeside⟩ := Process.beside_execute hs h
      refine ⟨fun _ => trivial, fun _ i k hk hcompiled => ?_⟩
      rw [Process.kernel?_congr hkernels] at hk
      simp only [RunsOwn, hbeside.loaded]
      exact hown i k hk hcompiled

/-- **What one step must meet** for the loaded modules to be those of the kernels. -/
theorem exactModules_stepSession_iff {s s' : Process llvm} {op : SessionOp} (hs : s.SessionInv)
    (hexact : ExactModules s) (h : s.stepSession op = some s') :
    ExactModules s' ↔ op.Keeps CompilesOnce s := by
  cases op with
  | kernel op => exact exactModules_step_iff hs.toSound hexact h
  | execute plan table =>
      obtain ⟨hkernels, -, hbeside⟩ := Process.beside_execute hs h
      have howns : s'.owns = s.owns := by
        funext i
        rw [Process.owns, Process.owns, Process.kernel?_congr hkernels]
      refine ⟨fun _ => trivial, fun _ => ⟨?_, howns ▸ hexact.sole⟩⟩
      rw [JIT.loadedKeys, hbeside.loaded, howns]
      exact hexact.loaded

/-- No operation of the session compiles a kernel that is compiled. -/
abbrev CompilesOnceIn (llvm : Llvm) (ops : List SessionOp) : Prop :=
  Guarded Process.stepSession (fun s op => op.Keeps CompilesOnce s)
    (Process.start : Process llvm) ops

/-- The loaded modules are those of the kernels at the end of such a session. -/
theorem exactModules_run {ops : List SessionOp} {s : Process llvm}
    (hrun : run Process.stepSession (Process.start : Process llvm) ops = some s)
    (honce : CompilesOnceIn llvm ops) : ExactModules s :=
  ((throughout_iff_guarded Process.sessionInv_stepSession exactModules_stepSession_iff
    Process.sessionInv_start holdsExactly_start.toExactModules).mpr honce).last hrun

/-- **Whose code the kernels of a session run, and who owns the modules.** Throughout a session all
kernels run their own code and the loaded modules are those of the kernels, if and only if each
operation on a kernel meets what it must; queries need not meet anything. -/
theorem session_kernels_iff (ops : List SessionOp) :
    Throughout Process.stepSession (fun s => OwnCode s ∧ ExactModules s)
        (Process.start : Process llvm) ops ↔
      Guarded Process.stepSession
        (fun s op => op.Keeps (fun s op => KeepsOwnCode s op ∧ CompilesOnce s op) s)
        (Process.start : Process llvm) ops := by
  refine throughout_iff_guarded (I := Process.SessionInv) Process.sessionInv_stepSession ?_
    Process.sessionInv_start ⟨ownCode_start, holdsExactly_start.toExactModules⟩
  intro s op s' hs hboth h
  have hown := ownCode_stepSession_iff hs hboth.1 h
  have hexact := exactModules_stepSession_iff hs hboth.2 h
  cases op with
  | kernel op => exact and_congr hown hexact
  | execute plan table => exact ⟨fun _ => trivial, fun _ => ⟨hown.mpr trivial, hexact.mpr trivial⟩⟩

/-! ## What the kernels do to a query -/

/-- The functions of kernels on these fields have different symbols. -/
def Field.Apart (llvm : Llvm) (f f' : Field) : Prop :=
  ∀ symbol ∈ [llvm.mangle (filterName f), llvm.mangle (filterRemainingName f)],
    symbol ≠ llvm.mangle (filterName f') ∧ symbol ≠ llvm.mangle (filterRemainingName f')

theorem Field.Apart.not_exports {f : Field} {m : FilterModule} (h : m.field.Apart llvm f) :
    llvm.mangle (filterName f) ∉ m.exports llvm.mangle ∧
      llvm.mangle (filterRemainingName f) ∉ m.exports llvm.mangle :=
  ⟨fun hmem => (h _ hmem).1 rfl, fun hmem => (h _ hmem).2 rfl⟩

theorem Field.not_apart_of_name {f f' : Field} (h : f.name = f'.name) : ¬ f.Apart llvm f' := by
  intro hapart
  refine (hapart _ List.mem_cons_self).1 ?_
  rw [filterName, filterName, h]

/-- What a kernel answers that is held: the comparisons of its column. -/
def heldBy (field : Field) (rhs : LiteralExpr) (op : CompareOp) :
    String → Option (LiteralExpr × CompareOp) :=
  fun name => if name = field.name then some (rhs, op) else none

/-- A comparison that a kernel is generated for is one of its field's column. -/
theorem lhs_of_generated {field : Field} {lhs : ColumnRef} {rhs : LiteralExpr} {op : CompareOp}
    {predicate : field.type.CType → Bool}
    (h : genPredicateFunc field (.compareExpr lhs rhs op) = .ok predicate) :
    lhs = ⟨field.name⟩ := by
  have hemit := emit_of_generated h
  simp only [irEmitVisit] at hemit
  split at hemit
  · next hlhs => exact congrArg ColumnRef.mk hlhs
  · cases hemit

section Reached

variable {s : Process llvm} (hs : s.SessionInv) (hexact : ExactModules s)
include hs hexact

/-- Every loaded module is the module of a kernel that is alive and compiled. -/
theorem exists_kernel {key : Nat} {m : FilterModule} (hm : s.jit.loaded key = some m) :
    ∃ i k, s.kernel? i = some k ∧ k.isCompiled = true ∧ k.moduleKey = key ∧
      generate k.field k.expr = .ok m := by
  have hmem : key ∈ held s.owns := by
    rw [← hexact.loaded]
    exact ⟨m, hm⟩
  obtain ⟨i, hi⟩ := hmem
  obtain ⟨k, hk, howns⟩ := Option.bind_eq_some_iff.mp hi
  rw [FitlerKernelImpl.owns] at howns
  split at howns
  · next hcompiled =>
      have hkey : k.moduleKey = key := Option.some.inj howns
      exact ⟨i, k, hk, hcompiled, hkey, hs.ownModule i k m hk hcompiled (hkey ▸ hm)⟩
  · cases howns

/-- A name that no kernel shares is not found. -/
theorem findSymbol_eq_none {f : Field}
    (hapart : ∀ i k, s.kernel? i = some k → k.isCompiled = true → k.field.Apart llvm f) :
    s.jit.findSymbol (filterName f) = none ∧ s.jit.findSymbol (filterRemainingName f) = none := by
  have hnone : ∀ name, llvm.mangle name ∈
      [llvm.mangle (filterName f), llvm.mangle (filterRemainingName f)] →
      s.jit.findSymbol name = none := by
    intro name hname
    cases hfind : s.jit.findSymbol name with
    | none => rfl
    | some sym =>
        obtain ⟨key, hkey, rfl⟩ := Option.map_eq_some_iff.mp hfind
        obtain ⟨m, hm, hexports⟩ := Linker.exports_of_find hkey
        obtain ⟨i, k, hk, hcompiled, -, hgen⟩ := exists_kernel hs hexact hm
        have hm : m.field.Apart llvm f := (generate_eq_ok hgen).1 ▸ hapart i k hk hcompiled
        rcases List.mem_cons.mp hname with heq | hname
        · rw [heq] at hexports
          exact absurd hexports hm.not_exports.1
        · rw [List.mem_singleton.mp hname] at hexports
          exact absurd hexports hm.not_exports.2
  exact ⟨hnone _ List.mem_cons_self, hnone _ (List.mem_cons_of_mem _ List.mem_cons_self)⟩

/-- The names of a kernel that no other kernel shares lead to the kernel's predicate. -/
theorem predicateAt_of_sole {i : Nat} {k : FitlerKernelImpl} (hk : s.kernel? i = some k)
    (hcompiled : k.isCompiled = true)
    (hothers : ∀ j k', j ≠ i → s.kernel? j = some k' → k'.isCompiled = true →
      k'.field.Apart llvm k.field) :
    ∃ predicate, genPredicateFunc k.field k.expr = .ok predicate ∧
      s.jit.predicateAt k.field.type filterName (s.jit.findSymbol (filterName k.field)) =
        .ok predicate ∧
      s.jit.predicateAt k.field.type filterRemainingName
        (s.jit.findSymbol (filterRemainingName k.field)) = .ok predicate := by
  have howns := Process.owns_of_compiled hk hcompiled
  obtain ⟨m, hm⟩ : k.moduleKey ∈ s.jit.loadedKeys := by
    rw [hexact.loaded]
    exact ⟨i, howns⟩
  have hgen := hs.ownModule i k m hk hcompiled hm
  obtain ⟨hfield, hexpr⟩ := generate_eq_ok hgen
  -- the kernel's module is the only one that exports either name
  have hfind : ∀ name, llvm.mangle name ∈
      [llvm.mangle (filterName k.field), llvm.mangle (filterRemainingName k.field)] →
      llvm.layers.find s.jit.layers (llvm.mangle name) = some k.moduleKey := by
    intro name hname
    have hexports : llvm.mangle name ∈ m.exports llvm.mangle := by
      rw [FilterModule.exports, hfield]
      exact hname
    refine (llvm.layers.find_eq_some _ _ _).mpr ⟨⟨m, hm, hexports⟩, ?_⟩
    rintro key ⟨m', hm', hexports'⟩
    obtain ⟨j, k', hk', hcompiled', hkey, hgen'⟩ := exists_kernel hs hexact hm'
    by_cases hj : j = i
    · subst hj
      obtain rfl : k = k' := Option.some.inj (hk.symm.trans hk')
      exact hkey.le
    · have hapart : m'.field.Apart llvm k.field :=
        (generate_eq_ok hgen').1 ▸ hothers j k' hj hk' hcompiled'
      rcases List.mem_cons.mp hname with heq | hname
      · rw [heq] at hexports'
        exact absurd hexports' hapart.not_exports.1
      · rw [List.mem_singleton.mp hname] at hexports'
        exact absurd hexports' hapart.not_exports.2
  have hpredicate : ∀ name : Field → String, llvm.mangle (name m.field) ∈
      [llvm.mangle (filterName m.field), llvm.mangle (filterRemainingName m.field)] →
      s.jit.predicateAt m.field.type name (s.jit.findSymbol (name m.field)) = .ok m.predicate := by
    intro name hname
    rw [JIT.findSymbol, hfind _ (hfield ▸ hname), Option.map_some]
    simp only [JIT.predicateAt, hm, if_true, dite_true]
  rw [← hfield, ← hexpr]
  exact ⟨m.predicate, m.generated, hpredicate _ List.mem_cons_self,
    hpredicate _ (List.mem_cons_of_mem _ List.mem_cons_self)⟩

/-- A kernel of a comparison that shares its symbols with no other kernel and no other column
answers the comparisons of its column, and no kernel answers those of the other columns. -/
theorem answers_of_sole {i : Nat} {k : FitlerKernelImpl} (hk : s.kernel? i = some k)
    (hcompiled : k.isCompiled = true) {lhs : ColumnRef} {rhs : LiteralExpr} {op : CompareOp}
    (hexpr : k.expr = .compareExpr lhs rhs op) {fields : List Field}
    (hself : ∀ f ∈ fields, f = k.field ∨ k.field.Apart llvm f)
    (hothers : ∀ j k', j ≠ i → s.kernel? j = some k' → k'.isCompiled = true →
      ∀ f ∈ k.field :: fields, k'.field.Apart llvm f) :
    ∀ f ∈ fields, Answers s.jit (heldBy k.field rhs op) f := by
  intro f hf
  rcases hself f hf with rfl | hapart
  · -- the kernel's column
    constructor
    · intro hnone
      simp [heldBy] at hnone
    · intro answer hanswer
      obtain rfl : (rhs, op) = answer := by simpa [heldBy] using hanswer
      obtain ⟨predicate, hgen, hpredicates⟩ := predicateAt_of_sole hs hexact hk hcompiled
        fun j k' hj hk' hcompiled' => hothers j k' hj hk' hcompiled' _ List.mem_cons_self
      have hgen' : genPredicateFunc k.field (.compareExpr lhs rhs op) = .ok predicate := by
        rw [← hexpr]
        exact hgen
      exact ⟨predicate, lhs_of_generated hgen' ▸ hgen', hpredicates⟩
  · -- another column
    have hname : f.name ≠ k.field.name := fun h => Field.not_apart_of_name h.symm hapart
    refine ⟨fun _ => findSymbol_eq_none hs hexact fun j k' hk' hcompiled' => ?_,
      fun answer hanswer => by simp [heldBy, hname] at hanswer⟩
    by_cases hj : j = i
    · subst hj
      obtain rfl : k = k' := Option.some.inj (hk.symm.trans hk')
      exact hapart
    · exact hothers j k' hj hk' hcompiled' f (List.mem_cons_of_mem _ hf)

end Reached

/-- **A query in a session returns what it returns by itself**, if no kernel that is alive and
compiled shares a symbol with one of the table's columns, and no compiled kernel was compiled
again. -/
theorem session_results {ops : List SessionOp} {s : Process llvm}
    (hrun : run Process.stepSession (Process.start : Process llvm) ops = some s)
    (honce : CompilesOnceIn llvm ops) (plan : LogicalPlan) {table : Table}
    (hapart : ∀ i k, s.kernel? i = some k → k.isCompiled = true →
      ∀ f ∈ table.fields, k.field.Apart llvm f) :
    (Jitted.execute plan table s.jit).1 = execute plan table := by
  have hs := Process.sessionInv_run Process.sessionInv_start hrun
  have hexact := exactModules_run hrun honce
  have hanswers : ∀ f ∈ table.fields, Answers s.jit (fun _ => none) f := fun f hf =>
    ⟨fun _ => findSymbol_eq_none hs hexact fun i k hk hcompiled => hapart i k hk hcompiled f hf,
      nofun⟩
  have hcomputes : Threaded.Computes (Beside s.jit) JIT.resolverCount False
      (Jitted.execute plan table) _ _ :=
    execute_computes hanswers (fun _ _ _ _ _ hsome => by cases hsome) False.elim False.elim
  rw [(hcomputes s.jit ⟨hs.keysGiven, hs.resolversGiven, rfl, Nat.le_refl _⟩).result,
    LogicalPlan.answered_none]

/-- A kernel of `a > 0` is held. -/
def holdsKernelOnA : List SessionOp :=
  [.kernel (.createCpu ⟨"a", .int32⟩ ((col "a").gt (lit 0))), .kernel (.compile 0)]

theorem exists_holdsKernelOnA : ∃ s : Process tables,
    run Process.stepSession (Process.start : Process tables) holdsKernelOnA = some s ∧
      (∀ j, j ≠ 0 → s.kernel? j = none) ∧
      ∃ k, s.kernel? 0 = some k ∧ k.isCompiled = true ∧ k.field = ⟨"a", .int32⟩ ∧
        k.expr = (col "a").gt (lit 0) := by
  refine ⟨_, rfl, fun j hj => ?_, _, rfl, rfl, rfl, rfl⟩
  cases j with
  | zero => exact absurd rfl hj
  | succ j => rfl

/-- The kernel is compiled once. -/
theorem once_holdsKernelOnA : CompilesOnceIn tables holdsKernelOnA := by
  rintro s ⟨⟩
  refine ⟨trivial, fun s' _ => ⟨fun k hk => ?_, trivial⟩⟩
  cases hk
  rfl

/-- Three rows of a column. -/
def threeOf (name : String) : Table :=
  ⟨[⟨name, .int32, ⟨[.ofList [5#32, 0#32, 7#32] (by decide)], by decide⟩⟩]⟩

/-- The kernel on `a` is not noticed by a query on `b`. -/
theorem session_results_holdsKernelOnA : ∃ s : Process tables,
    run Process.stepSession (Process.start : Process tables) holdsKernelOnA = some s ∧
      (Jitted.execute (.build [.filter ((col "b").lt (lit 6))]) (threeOf "b") s.jit).1 =
        execute (.build [.filter ((col "b").lt (lit 6))]) (threeOf "b") := by
  obtain ⟨s, hrun, hnone, k, hk, -, hfield, -⟩ := exists_holdsKernelOnA
  refine ⟨s, hrun, session_results hrun once_holdsKernelOnA _ fun i k' hk' _ f hf => ?_⟩
  have hi : i = 0 := by
    by_contra hi
    rw [hnone i hi] at hk'
    cases hk'
  obtain rfl : f = ⟨"b", .int32⟩ := List.mem_singleton.mp hf
  rw [hi, hk] at hk'
  obtain rfl := Option.some.inj hk'
  rw [hfield]
  unfold Field.Apart
  decide +kernel

/-- **A kernel that is held answers the comparisons of its column.** If a kernel of a comparison is
alive and compiled, and shares its symbols with no other kernel and no other column, then a query
whose comparisons of the kernel's column compile is executed as if each of them were the kernel's.
No compiled kernel was compiled again. -/
theorem session_hijacked {ops : List SessionOp} {s : Process llvm}
    (hrun : run Process.stepSession (Process.start : Process llvm) ops = some s)
    (honce : CompilesOnceIn llvm ops) {i : Nat} {k : FitlerKernelImpl} (hk : s.kernel? i = some k)
    (hcompiled : k.isCompiled = true) {lhs : ColumnRef} {rhs : LiteralExpr} {op : CompareOp}
    (hexpr : k.expr = .compareExpr lhs rhs op) {plan : LogicalPlan} {table : Table}
    (hself : ∀ f ∈ table.fields, f = k.field ∨ k.field.Apart llvm f)
    (hothers : ∀ j k', j ≠ i → s.kernel? j = some k' → k'.isCompiled = true →
      ∀ f ∈ k.field :: table.fields, k'.field.Apart llvm f)
    (hcompile : ∀ leaf ∈ plan.comparisons, leaf.1.name = k.field.name →
      ∃ m, generate k.field (.compareExpr leaf.1 leaf.2.1 leaf.2.2) = .ok m) :
    (Jitted.execute plan table s.jit).1 =
      execute (plan.answered fun name => if name = k.field.name then some (rhs, op) else none)
        table := by
  have hs := Process.sessionInv_run Process.sessionInv_start hrun
  have hexact := exactModules_run hrun honce
  have hanswers := answers_of_sole hs hexact hk hcompiled hexpr hself hothers
  have hheld : ∀ leaf ∈ plan.comparisons,
      HeldCompile (heldBy k.field rhs op) table.fields leaf := by
    intro leaf hleaf f hf hfname hsome
    have hleafname : leaf.1.name = k.field.name := by
      by_contra hne
      simp [heldBy, hne] at hsome
    obtain rfl : f = k.field := (hself f hf).resolve_right
      (Field.not_apart_of_name (hfname.trans hleafname).symm)
    exact hcompile leaf hleaf hleafname
  have hcomputes : Threaded.Computes (Beside s.jit) JIT.resolverCount False
      (Jitted.execute plan table) _ _ := execute_computes hanswers hheld False.elim False.elim
  exact (hcomputes s.jit ⟨hs.keysGiven, hs.resolversGiven, rfl, Nat.le_refl _⟩).result

/-- The kernel on `a` is asked whether `a > 0` when a query asks whether `a < 6`. -/
theorem session_hijacked_holdsKernelOnA : ∃ s : Process tables,
    run Process.stepSession (Process.start : Process tables) holdsKernelOnA = some s ∧
      (Jitted.execute (.build [.filter ((col "a").lt (lit 6))]) (threeOf "a") s.jit).1 =
        execute (.build [.filter ((col "a").gt (lit 0))]) (threeOf "a") := by
  obtain ⟨s, hrun, hnone, k, hk, hcompiled, hfield, hexpr⟩ := exists_holdsKernelOnA
  refine ⟨s, hrun, (session_hijacked hrun once_holdsKernelOnA hk hcompiled hexpr (fun f hf => ?_)
    (fun j k' hj hk' => ?_) fun leaf hleaf hname => ?_).trans ?_⟩
  · exact Or.inl ((List.mem_singleton.mp hf).trans hfield.symm)
  · rw [hnone j hj] at hk'
    cases hk'
  · obtain rfl : leaf = (col "a", lit 6, .lt) := List.mem_singleton.mp hleaf
    rw [hfield]
    exact ⟨_, rfl⟩
  · rw [hfield]
    rfl

/-! ## What is left of queries -/

/-- A query that the JIT's growth is known of: it projects on no empty list, and the table has
columns with chunks. -/
def CountsComparisons (q : LogicalPlan × Table) : Prop :=
  (∀ names ∈ q.1.projections, names ≠ []) ∧ q.2.HasRows ∧ ∃ out, execute q.1 q.2 = .ok out

theorem queries_from (queries : List (LogicalPlan × Table)) :
    ∀ {s s' : Process llvm}, s.jit.KeysGiven → s.jit.ResolversGiven → s.jit.loadedKeys = ∅ →
      run Process.stepSession s (queries.map fun q => .execute q.1 q.2) = some s' →
      s'.jit.loadedKeys = ∅ ∧
        s'.jit.resolverCount ≤
          s.jit.resolverCount + (queries.map fun q => q.1.comparisons.length).sum ∧
        ((∀ q ∈ queries, CountsComparisons q) → s'.jit.resolverCount =
          s.jit.resolverCount + (queries.map fun q => q.1.comparisons.length).sum) := by
  induction queries with
  | nil =>
      intro s s' _ _ hempty h
      cases h
      exact ⟨hempty, Nat.le_refl _, fun _ => rfl⟩
  | cons q queries ih =>
      intro s s' hkeys hresolvers hempty h
      obtain ⟨s₁, hs₁, h⟩ := Option.bind_eq_some_iff.mp h
      have hjit : s₁.jit = (Jitted.execute q.1 q.2 s.jit).2 := by
        rw [Process.stepSession] at hs₁
        rcases hrun : Jitted.execute q.1 q.2 s.jit with ⟨result, jit⟩
        rw [hrun] at hs₁
        cases result with
        | ok out =>
            cases hs₁
            rfl
        | error e =>
            simp only at hs₁
            split at hs₁
            · cases hs₁
              rfl
            · cases hs₁
      -- nothing is loaded, so no name is found
      have hanswers : ∀ f ∈ q.2.fields, Answers s.jit (fun _ => none) f := by
        intro f _
        have hnone : ∀ name, s.jit.findSymbol name = none := by
          intro name
          by_contra hne
          obtain ⟨sym, hsym⟩ := Option.ne_none_iff_exists'.mp hne
          obtain ⟨m, hm, -⟩ := JIT.loaded_of_findSymbol hsym
          have hmem : sym.key ∈ s.jit.loadedKeys := ⟨m, hm⟩
          rw [hempty] at hmem
          exact hmem
        exact ⟨fun _ => ⟨hnone _, hnone _⟩, nofun⟩
      have hcomputes : Threaded.Computes (Beside s.jit) JIT.resolverCount (CountsComparisons q)
          (Jitted.execute q.1 q.2) _ _ := execute_computes hanswers
        (fun _ _ _ _ _ hsome => by cases hsome) (fun h => h.1) fun h => h.2.1
      have hcomputes := hcomputes s.jit ⟨hkeys, hresolvers, rfl, Nat.le_refl _⟩
      rw [LogicalPlan.answered_none] at hcomputes
      obtain ⟨-, hbeside, -, hle, heq⟩ := hcomputes
      rw [← hjit] at hbeside hle heq
      have hempty₁ : s₁.jit.loadedKeys = ∅ := by
        rw [JIT.loadedKeys, hbeside.loaded]
        exact hempty
      obtain ⟨hempty', hle', heq'⟩ := ih hbeside.keysGiven hbeside.resolversGiven hempty₁ h
      rw [List.map_cons, List.sum_cons]
      refine ⟨hempty', by omega, fun hall => ?_⟩
      obtain ⟨hq, hall⟩ := List.forall_mem_cons.mp hall
      obtain ⟨out, hout⟩ := hq.2.2
      have heq := heq hq out hout
      have heq' := heq' hall
      omega

/-- **What queries leave in the JIT.** After any number of queries nothing is loaded, and there are
at most as many resolvers as the queries have comparisons; if the queries go through on tables with
chunks, there are exactly as many. -/
theorem queries_leave_resolvers (queries : List (LogicalPlan × Table)) {s : Process llvm}
    (hrun : run Process.stepSession (Process.start : Process llvm)
      (queries.map fun q => .execute q.1 q.2) = some s) :
    s.jit.loadedKeys = ∅ ∧
      s.jit.resolverCount ≤ (queries.map fun q => q.1.comparisons.length).sum ∧
      ((∀ q ∈ queries, CountsComparisons q) →
        s.jit.resolverCount = (queries.map fun q => q.1.comparisons.length).sum) := by
  have h := queries_from queries Process.keysGiven_start
    (fun _ hkey => absurd hkey (Finset.notMem_empty _)) loadedKeys_create hrun
  rwa [show (Process.start : Process llvm).jit.resolverCount = 0 from rfl, Nat.zero_add] at h

/-- A query with two comparisons, and one with another. -/
def threeComparisons : List (LogicalPlan × Table) :=
  [(.build [.filter (((col "a").lt (lit 6)).and ((col "a").gt (lit 0)))], threeOf "a"),
    (.build [.filter ((col "b").eq (lit 7)), .project ["b"]], threeOf "b")]

theorem counts_threeComparisons : ∀ q ∈ threeComparisons, CountsComparisons q := by
  have hok : ∀ {q : LogicalPlan × Table}, (execute q.1 q.2).isOk = true →
      ∃ out, execute q.1 q.2 = .ok out := by
    intro q h
    cases hout : execute q.1 q.2 with
    | error e =>
        rw [hout] at h
        cases h
    | ok out => exact ⟨out, rfl⟩
  have hrows : ∀ name, (threeOf name).HasRows := fun name =>
    ⟨List.cons_ne_nil _ _, List.forall_mem_singleton.mpr (List.cons_ne_nil _ _)⟩
  refine List.forall_mem_cons.mpr ⟨⟨by decide, hrows _, hok (by decide +kernel)⟩, ?_⟩
  exact List.forall_mem_singleton.mpr ⟨by decide, hrows _, hok (by decide +kernel)⟩

theorem queries_leave_resolvers_threeComparisons : ∃ s : Process tables,
    run Process.stepSession (Process.start : Process tables)
      (threeComparisons.map fun q => .execute q.1 q.2) = some s ∧
      s.jit.loadedKeys = ∅ ∧ s.jit.resolverCount = 3 := by
  obtain ⟨s, hrun⟩ : ∃ s, run Process.stepSession (Process.start : Process tables)
      (threeComparisons.map fun q => .execute q.1 q.2) = some s := by
    rw [← Option.isSome_iff_exists]
    decide +kernel
  obtain ⟨hempty, -, heq⟩ := queries_leave_resolvers threeComparisons hrun
  exact ⟨s, hrun, hempty, heq counts_threeComparisons⟩

end Pefa
