import Pefa.Jit.Jit
import Pefa.Lib.Ownership
import Pefa.Lib.Runs

/-!
# Whose code a kernel runs

A kernel finds its functions by name, and a name is found in the module that was loaded first. So
a kernel that is compiled while a module with the same names is loaded gets the functions of that
module: another predicate, if the module was made for another expression, and functions that are
gone when the owner of the module is destroyed.

What each operation must meet for every kernel to run its own code is said by `KeepsOwnCode`, and
it is exact: all kernels run their own code throughout a sequence of operations if and only if
each operation meets it (`own_code_iff`).
-/

namespace Pefa

open Function Ownership Runs

variable {llvm : Llvm}

/-! ## Own code -/

/-- The function is one of a loaded module that was generated for the kernel's type and
expression. -/
def RunsOwn (jit : JIT llvm) (k : FitlerKernelImpl) (f : Option JITSymbol) : Prop :=
  ∃ sym m, f = some sym ∧ jit.loaded sym.key = some m ∧ sym.symbol ∈ m.exports llvm.mangle ∧
    m.field.type = k.field.type ∧ m.expr = k.expr

/-- Both functions of every kernel that is alive and compiled are its own code. -/
def OwnCode (s : Process llvm) : Prop :=
  ∀ i k, s.kernel? i = some k → k.isCompiled = true →
    RunsOwn s.jit k k.filterFunc ∧ RunsOwn s.jit k k.filterRemainingFunc

/-- If the name is found at all, it is found in a module for the kernel's type and expression. -/
def FindsOwn (jit : JIT llvm) (k : FitlerKernelImpl) (name : String) : Prop :=
  ∀ sym ∈ jit.findSymbol name, ∀ m ∈ jit.loaded sym.key,
    m.field.type = k.field.type ∧ m.expr = k.expr

/-- A function of the kernel is in the module with this key. -/
def FitlerKernelImpl.Uses (k : FitlerKernelImpl) (key : Nat) : Prop :=
  ∃ sym, (k.filterFunc = some sym ∨ k.filterRemainingFunc = some sym) ∧ sym.key = key

/-- What an operation must meet: a kernel is not compiled while its names are found in a module
for another type or expression, and not destroyed while another kernel uses its module. -/
def KeepsOwnCode (s : Process llvm) : KernelOp → Prop
  | .createCpu _ _ => True
  | .compile i => ∀ k ∈ s.kernel? i, (∃ m, generate k.field k.expr = .ok m) →
      FindsOwn s.jit k (filterName k.field) ∧ FindsOwn s.jit k (filterRemainingName k.field)
  | .destroy i => ∀ k ∈ s.kernel? i, k.isCompiled = true →
      ∀ j k', j ≠ i → s.kernel? j = some k' → k'.isCompiled = true → ¬ k'.Uses k.moduleKey

/-! ## One operation -/

section Functions

variable {jit : JIT llvm} {k : FitlerKernelImpl} {f : Option JITSymbol}

/-- A new module leaves the functions of other modules alone. -/
theorem RunsOwn.addModule (h : RunsOwn jit k f) (hkeys : jit.KeysGiven) (m : FilterModule) :
    RunsOwn (jit.addModule m).2 k f := by
  obtain ⟨sym, m', hf, hloaded, hrest⟩ := h
  have hne : sym.key ≠ (jit.addModule m).1 := by
    intro heq
    rw [heq, JIT.loaded_newKey hkeys] at hloaded
    cases hloaded
  exact ⟨sym, m', hf, by rw [JIT.loaded_addModule, update_of_ne hne, hloaded], hrest⟩

/-- The function that a kernel finds after its module was added is its own code if the name was
found in a module for its type and expression, or not found at all. -/
theorem runsOwn_findSymbol_iff (hkeys : jit.KeysGiven) {m : FilterModule} {name : String}
    (hfield : m.field = k.field) (hexpr : m.expr = k.expr)
    (hname : llvm.mangle name ∈ m.exports llvm.mangle) :
    RunsOwn (jit.addModule m).2 k ((jit.addModule m).2.findSymbol name) ↔
      FindsOwn jit k name := by
  cases hfind : jit.findSymbol name with
  | none =>
      -- the new module is the only one that exports the name
      rw [JIT.findSymbol_addModule_of_none hfind hname]
      constructor
      · intro _ sym hsym
        rw [hfind] at hsym
        cases hsym
      · intro _
        refine ⟨_, m, rfl, ?_, hname, by rw [hfield], hexpr⟩
        rw [JIT.loaded_addModule, update_self]
  | some sym =>
      -- the name is found where it was found before
      obtain ⟨m', hm', hsymbol⟩ := JIT.loaded_of_findSymbol hfind
      have hne : sym.key ≠ (jit.addModule m).1 := by
        intro heq
        rw [heq, JIT.loaded_newKey hkeys] at hm'
        cases hm'
      have hloaded : (jit.addModule m).2.loaded sym.key = some m' := by
        rw [JIT.loaded_addModule, update_of_ne hne, hm']
      rw [JIT.findSymbol_addModule_of_some hkeys hfind]
      constructor
      · rintro ⟨sym', m'', hsym, hm'', -, hown⟩ sym'' hsym'' m₀ hm₀
        cases hsym
        rw [hloaded] at hm''
        cases hm''
        rw [Option.mem_def, hfind] at hsym''
        cases hsym''
        rw [Option.mem_def, hm'] at hm₀
        cases hm₀
        exact hown
      · exact fun hown => ⟨sym, m', rfl, hloaded, hsymbol, hown sym hfind m' hm'⟩

/-- A function stays when a kernel is destroyed, unless it is in the kernel's module. -/
theorem runsOwn_destroy_iff (h : RunsOwn jit k f) (k' : FitlerKernelImpl) :
    RunsOwn (k'.destroy jit) k f ↔
      (k'.isCompiled = true → ∀ sym ∈ f, sym.key ≠ k'.moduleKey) := by
  cases hcompiled : k'.isCompiled with
  | false =>
      have hsame : k'.destroy jit = jit := by rw [FitlerKernelImpl.destroy, hcompiled]; rfl
      rw [hsame]
      exact ⟨fun _ hfalse => absurd hfalse Bool.false_ne_true, fun _ => h⟩
  | true =>
      have hremoved : k'.destroy jit = jit.removeModule k'.moduleKey := by
        rw [FitlerKernelImpl.destroy, hcompiled]
        rfl
      obtain ⟨sym, m, rfl, hloaded, hrest⟩ := h
      rw [hremoved]
      constructor
      · rintro ⟨sym', m', hsym, hm', -⟩ - sym'' hsym'' heq
        cases hsym
        cases hsym''
        rw [JIT.loaded_removeModule, heq, update_self] at hm'
        cases hm'
      · intro hne
        refine ⟨sym, m, rfl, ?_, hrest⟩
        rw [JIT.loaded_removeModule, update_of_ne (hne rfl sym rfl), hloaded]

theorem FitlerKernelImpl.not_uses_iff {key : Nat} :
    ¬ k.Uses key ↔
      (∀ sym ∈ k.filterFunc, sym.key ≠ key) ∧ ∀ sym ∈ k.filterRemainingFunc, sym.key ≠ key := by
  constructor
  · exact fun h => ⟨fun sym hsym heq => h ⟨sym, Or.inl hsym, heq⟩,
      fun sym hsym heq => h ⟨sym, Or.inr hsym, heq⟩⟩
  · rintro ⟨hfilter, hremaining⟩ ⟨sym, hsym, heq⟩
    rcases hsym with hsym | hsym
    · exact hfilter sym hsym heq
    · exact hremaining sym hsym heq

end Functions

theorem exports_filterName {m : FilterModule} {field : Field} (h : m.field = field) :
    llvm.mangle (filterName field) ∈ m.exports llvm.mangle := by
  rw [← h]
  exact List.mem_cons_self

theorem exports_filterRemainingName {m : FilterModule} {field : Field} (h : m.field = field) :
    llvm.mangle (filterRemainingName field) ∈ m.exports llvm.mangle := by
  rw [← h]
  exact List.mem_cons_of_mem _ List.mem_cons_self

/-- A kernel that is compiled runs its own code if its names are found in modules for its type and
expression; the other kernels keep their functions. -/
theorem ownCode_compiled_iff {s s' : Process llvm} {i : Nat} {k : FitlerKernelImpl}
    {m : FilterModule} (hkeys : s.jit.KeysGiven) (hown : OwnCode s)
    (hm : generate k.field k.expr = .ok m) (hjit : s'.jit = (s.jit.addModule m).2)
    (hkernels : s'.kernel? = update s.kernel? i (some { k with
      moduleKey := (s.jit.addModule m).1
      filterFunc := s'.jit.findSymbol (filterName k.field)
      filterRemainingFunc := s'.jit.findSymbol (filterRemainingName k.field)
      isCompiled := true })) :
    OwnCode s' ↔
      FindsOwn s.jit k (filterName k.field) ∧ FindsOwn s.jit k (filterRemainingName k.field) := by
  obtain ⟨hfield, hexpr⟩ := generate_eq_ok hm
  have hfilter := runsOwn_findSymbol_iff hkeys hfield hexpr (exports_filterName hfield)
  have hremaining := runsOwn_findSymbol_iff hkeys hfield hexpr (exports_filterRemainingName hfield)
  rw [← hjit] at hfilter hremaining
  constructor
  · intro hown'
    obtain ⟨hf, hr⟩ := hown' i _ (by rw [hkernels, update_self]) rfl
    exact ⟨hfilter.mp hf, hremaining.mp hr⟩
  · rintro ⟨hf, hr⟩ j k' hk' hcompiled
    rw [hkernels] at hk'
    rcases update_eq_some_iff.mp hk' with ⟨-, hk'⟩ | ⟨-, hk'⟩
    · cases hk'
      exact ⟨hfilter.mpr hf, hremaining.mpr hr⟩
    · obtain ⟨hf, hr⟩ := hown j k' hk' hcompiled
      rw [hjit]
      exact ⟨hf.addModule hkeys m, hr.addModule hkeys m⟩

/-- When a kernel is destroyed, the others keep their functions unless they use its module. -/
theorem ownCode_destroyed_iff {s s' : Process llvm} {i : Nat} {k : FitlerKernelImpl}
    (hown : OwnCode s) (hjit : s'.jit = k.destroy s.jit)
    (hkernels : s'.kernel? = update s.kernel? i none) :
    OwnCode s' ↔ (k.isCompiled = true → ∀ j k', j ≠ i → s.kernel? j = some k' →
      k'.isCompiled = true → ¬ k'.Uses k.moduleKey) := by
  constructor
  · intro hown' hcompiled j k' hj hk' hcompiled'
    obtain ⟨hf, hr⟩ := hown j k' hk' hcompiled'
    obtain ⟨hf', hr'⟩ := hown' j k' (by rw [hkernels, update_of_ne hj, hk']) hcompiled'
    rw [hjit] at hf' hr'
    exact FitlerKernelImpl.not_uses_iff.mpr ⟨(runsOwn_destroy_iff hf k).mp hf' hcompiled,
      (runsOwn_destroy_iff hr k).mp hr' hcompiled⟩
  · intro hkeep j k' hk' hcompiled'
    rw [hkernels] at hk'
    rcases update_eq_some_iff.mp hk' with ⟨-, hk'⟩ | ⟨hj, hk'⟩
    · cases hk'
    · obtain ⟨hf, hr⟩ := hown j k' hk' hcompiled'
      have huses := fun hcompiled =>
        FitlerKernelImpl.not_uses_iff.mp (hkeep hcompiled j k' hj hk' hcompiled')
      rw [hjit]
      exact ⟨(runsOwn_destroy_iff hf k).mpr fun hcompiled => (huses hcompiled).1,
        (runsOwn_destroy_iff hr k).mpr fun hcompiled => (huses hcompiled).2⟩

/-- **What one operation must meet** for all kernels to run their own code after it. -/
theorem ownCode_step_iff {s s' : Process llvm} {op : KernelOp} (hkeys : s.jit.KeysGiven)
    (hown : OwnCode s) (h : s.step op = some s') : OwnCode s' ↔ KeepsOwnCode s op := by
  cases Process.stepped h with
  | @created field expr _ i hi hjit hkernels =>
      refine ⟨fun _ => trivial, fun _ j k hk hcompiled => ?_⟩
      rw [hkernels] at hk
      rcases update_eq_some_iff.mp hk with ⟨-, hk⟩ | ⟨-, hk⟩
      · cases hk
        cases hcompiled
      · rw [hjit]
        exact hown j k hk hcompiled
  | @compiled i _ k m hk hm hjit hkernels =>
      rw [ownCode_compiled_iff hkeys hown hm hjit hkernels]
      constructor
      · intro hfinds k' hk' _
        obtain rfl : k = k' := Option.some.inj (hk.symm.trans hk')
        exact hfinds
      · exact fun hkeep => hkeep k hk ⟨m, hm⟩
  | @threw i k e hk hm =>
      refine ⟨fun _ k' hk' hcompiles => ?_, fun _ => hown⟩
      obtain rfl : k = k' := Option.some.inj (hk.symm.trans hk')
      obtain ⟨m, hm'⟩ := hcompiles
      rw [hm] at hm'
      cases hm'
  | @destroyed i _ k hk hjit hkernels =>
      rw [ownCode_destroyed_iff hown hjit hkernels]
      constructor
      · intro hkeep k' hk'
        obtain rfl : k = k' := Option.some.inj (hk.symm.trans hk')
        exact hkeep
      · exact fun hkeep => hkeep k hk

/-! ## Sequences of operations -/

theorem ownCode_start : OwnCode (Process.start : Process llvm) := by
  intro i k hk
  cases hk

/-- **Whose code the kernels run.** All kernels run their own code throughout a sequence of
operations if and only if each operation meets what it must. -/
theorem own_code_iff (ops : List KernelOp) :
    Throughout Process.step OwnCode (Process.start : Process llvm) ops ↔
      Guarded Process.step KeepsOwnCode (Process.start : Process llvm) ops :=
  throughout_iff_guarded Process.keysGiven_step ownCode_step_iff Process.keysGiven_start
    ownCode_start

/-- Two kernels on columns `a`, compiled one after the other. -/
def twoOnA : List KernelOp :=
  [.createCpu ⟨"a", .int32⟩ ((col "a").gt (lit 0)), .createCpu ⟨"a", .int32⟩ ((col "a").lt (lit 0)),
    .compile 0, .compile 1]

/-- The second kernel runs the predicate of the first. -/
theorem not_own_code_twoOnA :
    ¬ Throughout Process.step OwnCode (Process.start : Process tables) twoOnA := by
  rintro ⟨-, h⟩
  obtain ⟨-, h⟩ := h _ rfl
  obtain ⟨-, h⟩ := h _ rfl
  obtain ⟨-, h⟩ := h _ rfl
  have h := h _ rfl
  obtain ⟨⟨sym, m, hsym, hloaded, -, -, hexpr⟩, -⟩ := h 1 _ rfl rfl
  cases hsym
  cases hloaded
  cases hexpr

end Pefa
