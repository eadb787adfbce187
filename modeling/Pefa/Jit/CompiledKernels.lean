import Pefa.Jit.Session

/-!
# What compiled kernels compute

Most of the model has kernels without the JIT: a `FilterKernel` runs the predicate of its own
expression. A kernel runs functions that the JIT has found by name. If they are its own code, they
are those of its own module, for the names of a module's functions are decided by what it was
generated for (`FilterModule.eq_of_generate`). So as long as the operations of a session keep the
code of the kernels, every compiled kernel does what a `FilterKernel` does (`own_code_computes`).
-/

namespace Pefa

open Function Ownership Runs

variable {llvm : Llvm}

/-! ## The module of a kernel -/

/-- Nothing is emitted for an expression without a comparison, and a comparison is one of the
field's column. -/
theorem name_eq_of_emit {field field' : Field} {expr : BooleanExpr}
    {predicate : field.type.CType → Bool} {result result' : Option (field'.type.CType → Bool)}
    (h : irEmitVisit field expr none = .ok (some predicate))
    (h' : irEmitVisit field' expr result = .ok result') : field.name = field'.name := by
  induction expr generalizing predicate result result' with
  | booleanConst value => cases h
  | predicateExpr lhs rhs op ihl ihr =>
      obtain ⟨p, hp, h⟩ := bind_eq_ok.mp h
      obtain ⟨q, hq, h⟩ := bind_eq_ok.mp h
      obtain ⟨p', hp', -⟩ := bind_eq_ok.mp h'
      cases p with
      | none => cases h
      | some p => exact ihl hp hp'
  | compareExpr lhs rhs op =>
      simp only [irEmitVisit] at h h'
      split at h
      · next hname =>
          split at h'
          · next hname' => exact hname.symm.trans hname'
          · cases h'
      · cases h

/-- A module that was generated for the kernel's type and expression is the kernel's module. -/
theorem FilterModule.eq_of_generate {m m' : FilterModule} {field : Field} {expr : BooleanExpr}
    (h : generate field expr = .ok m) (htype : m'.field.type = field.type)
    (hexpr : m'.expr = expr) : m' = m := by
  obtain ⟨rfl, rfl⟩ := generate_eq_ok h
  obtain ⟨⟨name, type⟩, expr, predicate, hpredicate⟩ := m
  obtain ⟨⟨name', type'⟩, expr', predicate', hpredicate'⟩ := m'
  obtain rfl : type' = type := htype
  obtain rfl : expr' = expr := hexpr
  obtain rfl : name' = name :=
    name_eq_of_emit (emit_of_generated hpredicate') (emit_of_generated hpredicate)
  obtain rfl : predicate' = predicate := Except.ok.inj (hpredicate'.symm.trans hpredicate)
  rfl

/-! ## The names of the functions -/

/-- The functions of compiled kernels are called what the kernels have looked up. -/
def NamesKept (s : Process llvm) : Prop :=
  ∀ i k, s.kernel? i = some k → k.isCompiled = true →
    (∀ sym ∈ k.filterFunc, sym.symbol = llvm.mangle (filterName k.field)) ∧
      ∀ sym ∈ k.filterRemainingFunc, sym.symbol = llvm.mangle (filterRemainingName k.field)

theorem symbol_of_findSymbol {jit : JIT llvm} {name : String} {sym : JITSymbol}
    (h : jit.findSymbol name = some sym) : sym.symbol = llvm.mangle name := by
  obtain ⟨key, -, rfl⟩ := Option.map_eq_some_iff.mp h
  rfl

theorem namesKept_start : NamesKept (Process.start : Process llvm) := fun _ _ hk => by cases hk

theorem namesKept_step {s s' : Process llvm} {op : KernelOp} (h : NamesKept s)
    (hstep : s.step op = some s') : NamesKept s' := by
  intro j k' hk' hcompiled
  cases Process.stepped hstep with
  | created i hi hjit hkernels =>
      rw [hkernels] at hk'
      rcases update_eq_some_iff.mp hk' with ⟨-, hk'⟩ | ⟨-, hk'⟩
      · cases hk'
        cases hcompiled
      · exact h j k' hk' hcompiled
  | compiled hk hm hjit hkernels =>
      rw [hkernels] at hk'
      rcases update_eq_some_iff.mp hk' with ⟨-, hk'⟩ | ⟨-, hk'⟩
      · cases hk'
        exact ⟨fun _ hsym => symbol_of_findSymbol hsym, fun _ hsym => symbol_of_findSymbol hsym⟩
      · exact h j k' hk' hcompiled
  | threw hk hm => exact h j k' hk' hcompiled
  | destroyed hk hjit hkernels =>
      rw [hkernels] at hk'
      rcases update_eq_some_iff.mp hk' with ⟨-, hk'⟩ | ⟨-, hk'⟩
      · cases hk'
      · exact h j k' hk' hcompiled

/-- **The names are kept** by every step of a session. -/
theorem namesKept_stepSession {s s' : Process llvm} {op : SessionOp} (hs : s.SessionInv)
    (h : NamesKept s) (hstep : s.stepSession op = some s') : NamesKept s' := by
  cases op with
  | kernel op => exact namesKept_step h hstep
  | execute plan table =>
      obtain ⟨hkernels, -, -⟩ := Process.beside_execute hs hstep
      intro i k hk
      rw [Process.kernel?_congr hkernels] at hk
      exact h i k hk

/-! ## Kernels that run their own code -/

/-- A function that is the kernel's own code, with the kernel's name, runs the predicate of the
kernel's module. -/
theorem RunsOwn.predicateAt {jit : JIT llvm} {k : FitlerKernelImpl} {f : Option JITSymbol}
    (h : RunsOwn jit k f) {m : FilterModule} (hm : generate k.field k.expr = .ok m)
    {name : Field → String} (hname : ∀ sym ∈ f, sym.symbol = llvm.mangle (name k.field)) :
    jit.predicateAt m.field.type name f = .ok m.predicate := by
  obtain ⟨sym, m', rfl, hloaded, -, htype, hexpr⟩ := h
  obtain rfl := FilterModule.eq_of_generate hm htype hexpr
  have hsymbol : sym.symbol = llvm.mangle (name m'.field) := by
    rw [(generate_eq_ok hm).1]
    exact hname sym rfl
  simp only [JIT.predicateAt, hloaded, hsymbol, if_true, dite_true]

/-- Every kernel that is alive and compiled does in each call what the kernel of its field and
expression does without the JIT. -/
def ComputesOwn (s : Process llvm) : Prop :=
  ∀ i k, s.kernel? i = some k → k.isCompiled = true → ∃ kernel : FilterKernel k.field,
    (FilterKernel.createCpu k.field k.expr).compile = .ok kernel ∧
      ∀ column bitmap call, k.runCall s.jit k.field.type column bitmap call =
        runCall kernel column bitmap call

theorem OwnCode.computesOwn {s : Process llvm} (hs : s.Sound) (hnames : NamesKept s)
    (hown : OwnCode s) : ComputesOwn s := by
  intro i k hk hcompiled
  obtain ⟨m, hm⟩ := hs.generated i k hk hcompiled
  obtain ⟨hfilter, hremaining⟩ := hown i k hk hcompiled
  obtain ⟨hfilterName, hremainingName⟩ := hnames i k hk hcompiled
  have hruns : ∃ predicate, genPredicateFunc k.field k.expr = .ok predicate ∧
      k.Runs s.jit k.field.type predicate := by
    have hfilter := hfilter.predicateAt hm hfilterName
    have hremaining := hremaining.predicateAt hm hremainingName
    obtain ⟨hfield, hexpr⟩ := generate_eq_ok hm
    rw [← hfield, ← hexpr]
    exact ⟨m.predicate, m.generated, hcompiled, hfilter, hremaining⟩
  obtain ⟨predicate, hgen, hruns⟩ := hruns
  refine ⟨⟨k.expr, some predicate⟩, ?_, fun column bitmap call => ?_⟩
  · simp only [FilterKernel.compile, FilterKernel.createCpu, hgen, bind_ok]
  · exact hruns.runCall rfl column bitmap call

/-- **Kernels compute what they were made for**: throughout a session whose operations on kernels
keep the code of every kernel, each compiled kernel does what it does without the JIT. -/
theorem own_code_computes {ops : List SessionOp}
    (h : Guarded Process.stepSession (fun s op => op.Keeps KeepsOwnCode s)
      (Process.start : Process llvm) ops) :
    Throughout Process.stepSession ComputesOwn (Process.start : Process llvm) ops := by
  have hown : Throughout Process.stepSession OwnCode (Process.start : Process llvm) ops :=
    (throughout_iff_guarded Process.sessionInv_stepSession ownCode_stepSession_iff
      Process.sessionInv_start ownCode_start).mpr h
  refine hown.imp (I := fun s => s.SessionInv ∧ NamesKept s) (fun hs hstep => ?_)
    (fun hs hown => hown.computesOwn hs.1.toSound hs.2) ⟨Process.sessionInv_start, namesKept_start⟩
  exact ⟨Process.sessionInv_stepSession hs.1 hstep, namesKept_stepSession hs.1 hs.2 hstep⟩

/-- A kernel that is compiled while nothing is loaded finds its own module. -/
theorem findsOwn_of_empty {jit : JIT llvm} (h : jit.loadedKeys = ∅) (k : FitlerKernelImpl)
    (name : String) : FindsOwn jit k name := by
  intro sym hsym
  obtain ⟨m, hm, -⟩ := JIT.loaded_of_findSymbol hsym
  have hmem : sym.key ∈ jit.loadedKeys := ⟨m, hm⟩
  rw [h] at hmem
  exact hmem.elim

/-- The kernel of `a > 0` computes `a > 0`. -/
theorem own_code_computes_holdsKernelOnA :
    Throughout Process.stepSession ComputesOwn (Process.start : Process tables)
      holdsKernelOnA := by
  refine own_code_computes ?_
  rintro s ⟨⟩
  refine ⟨trivial, fun s' _ => ⟨fun k _ _ => ?_, trivial⟩⟩
  exact ⟨findsOwn_of_empty loadedKeys_create k _, findsOwn_of_empty loadedKeys_create k _⟩

end Pefa
