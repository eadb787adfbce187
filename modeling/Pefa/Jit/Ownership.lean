import Pefa.Jit.Jit
import Pefa.Lib.Ownership
import Pefa.Lib.Runs

/-!
# Who owns the modules

A kernel that is compiled owns the module whose key it has, and removes it from the JIT when it is
destroyed. So the loaded modules are those of the kernels that are alive and compiled
(`ExactModules`), unless a compiled kernel is compiled again: its key is overwritten by that of
the second module, and nobody removes the first.

The resolvers are acquired with the modules, but not released: `removeModule` takes nothing out of
`m_resolvers`. So the JIT holds exactly what the kernels own (`HoldsExactly`) as long as no
compiled kernel is compiled again and none is destroyed, and no longer (`holds_exactly_iff`).
-/

namespace Pefa

open Function Ownership Runs

variable {llvm : Llvm}

/-! ## Ownership -/

/-- The key of the module that a kernel owns. -/
def FitlerKernelImpl.owns (k : FitlerKernelImpl) : Option Nat :=
  if k.isCompiled then some k.moduleKey else none

/-- The key of the module that the kernel with a number owns, if it is alive. -/
def Process.owns (s : Process llvm) (i : Nat) : Option Nat := (s.kernel? i).bind (·.owns)

/-- The keys of the loaded modules. -/
def JIT.loadedKeys (jit : JIT llvm) : Set Nat := {key | ∃ m, jit.loaded key = some m}

/-- The loaded modules are those of the kernels that are alive and compiled, one for each. -/
structure ExactModules (s : Process llvm) : Prop where
  loaded : s.jit.loadedKeys = held s.owns
  sole : Sole s.owns

/-- The loaded modules and the resolvers are those of the kernels that are alive and compiled. -/
structure HoldsExactly (s : Process llvm) : Prop extends ExactModules s where
  resolvers : (s.jit.resolvers : Set Nat) = held s.owns

/-- The operation does not compile a compiled kernel. -/
def CompilesOnce (s : Process llvm) : KernelOp → Prop
  | .compile i => ∀ k ∈ s.kernel? i, k.isCompiled = false
  | _ => True

/-- The operation does not destroy a compiled kernel. -/
def ReleasesNothing (s : Process llvm) : KernelOp → Prop
  | .destroy i => ∀ k ∈ s.kernel? i, k.isCompiled = false
  | _ => True

/-- The operation neither compiles nor destroys a compiled kernel. -/
def KeepsExactly (s : Process llvm) (op : KernelOp) : Prop :=
  CompilesOnce s op ∧ ReleasesNothing s op

/-! ## The state of a process -/

/-- What is the case in all states: modules are loaded under keys that were given out, and a
kernel that is compiled was generated. -/
structure Process.Sound (s : Process llvm) : Prop where
  keysGiven : s.jit.KeysGiven
  generated : ∀ i k, s.kernel? i = some k → k.isCompiled = true →
    ∃ m, generate k.field k.expr = .ok m

theorem Process.sound_start : (Process.start : Process llvm).Sound :=
  ⟨Process.keysGiven_start, fun _ _ hk => by cases hk⟩

theorem Process.sound_step {s s' : Process llvm} {op : KernelOp} (hs : s.Sound)
    (h : s.step op = some s') : s'.Sound := by
  refine ⟨Process.keysGiven_step hs.keysGiven h, fun j k' hk' hcompiled => ?_⟩
  cases Process.stepped h with
  | created i hi hjit hkernels =>
      rw [hkernels] at hk'
      rcases update_eq_some_iff.mp hk' with ⟨-, hk'⟩ | ⟨-, hk'⟩
      · cases hk'
        cases hcompiled
      · exact hs.generated j k' hk' hcompiled
  | @compiled i _ k m hk hm hjit hkernels =>
      rw [hkernels] at hk'
      rcases update_eq_some_iff.mp hk' with ⟨-, hk'⟩ | ⟨-, hk'⟩
      · cases hk'
        exact ⟨m, hm⟩
      · exact hs.generated j k' hk' hcompiled
  | threw hk hm => exact hs.generated j k' hk' hcompiled
  | destroyed hk hjit hkernels =>
      rw [hkernels] at hk'
      rcases update_eq_some_iff.mp hk' with ⟨-, hk'⟩ | ⟨-, hk'⟩
      · cases hk'
      · exact hs.generated j k' hk' hcompiled

/-- Only the owner whose kernel changed changes. -/
theorem Process.owns_update {s s' : Process llvm} {i : Nat} {x : Option FitlerKernelImpl}
    (h : s'.kernel? = update s.kernel? i x) :
    s'.owns = update s.owns i (x.bind (·.owns)) := by
  funext j
  rw [Process.owns, h]
  by_cases hj : j = i
  · rw [hj, update_self, update_self]
  · rw [update_of_ne hj, update_of_ne hj]
    rfl

theorem Process.owns_of_compiled {s : Process llvm} {i : Nat} {k : FitlerKernelImpl}
    (hk : s.kernel? i = some k) (h : k.isCompiled = true) : s.owns i = some k.moduleKey := by
  rw [Process.owns, hk, Option.bind_some, FitlerKernelImpl.owns, if_pos h]

theorem Process.owns_of_not_compiled {s : Process llvm} {i : Nat} {k : FitlerKernelImpl}
    (hk : s.kernel? i = some k) (h : k.isCompiled = false) : s.owns i = none := by
  rw [Process.owns, hk, Option.bind_some, FitlerKernelImpl.owns, h]
  rfl

/-- A kernel that is created owns nothing. -/
theorem Process.owns_created {s s' : Process llvm} {i : Nat} {field : Field} {expr : BooleanExpr}
    (hi : s.kernel? i = none)
    (h : s'.kernel? = update s.kernel? i (some { field := field, expr := expr })) :
    s'.owns = s.owns := by
  rw [Process.owns_update h]
  have hnone : s.owns i = none := by rw [Process.owns, hi, Option.bind_none]
  exact (congrArg (update s.owns i) hnone.symm).trans (update_eq_self i s.owns)

/-! ## The loaded modules -/

theorem JIT.loadedKeys_addModule (jit : JIT llvm) (m : FilterModule) :
    (jit.addModule m).2.loadedKeys = insert (jit.addModule m).1 jit.loadedKeys := by
  ext key
  rw [JIT.loadedKeys, JIT.loaded_addModule]
  constructor
  · rintro ⟨m', hm'⟩
    rcases update_eq_some_iff.mp hm' with ⟨hkey, -⟩ | ⟨-, hm'⟩
    · exact Or.inl hkey
    · exact Or.inr ⟨m', hm'⟩
  · intro hmem
    by_cases hkey : key = (jit.addModule m).1
    · exact ⟨m, update_eq_some_iff.mpr (Or.inl ⟨hkey, rfl⟩)⟩
    · obtain ⟨m', hm'⟩ := hmem.resolve_left hkey
      exact ⟨m', update_eq_some_iff.mpr (Or.inr ⟨hkey, hm'⟩)⟩

theorem JIT.loadedKeys_removeModule (jit : JIT llvm) (key : Nat) :
    (jit.removeModule key).loadedKeys = jit.loadedKeys \ {key} := by
  ext key'
  rw [JIT.loadedKeys, JIT.loaded_removeModule]
  constructor
  · rintro ⟨m, hm⟩
    rcases update_eq_some_iff.mp hm with ⟨-, hm⟩ | ⟨hkey, hm⟩
    · cases hm
    · exact ⟨⟨m, hm⟩, hkey⟩
  · rintro ⟨⟨m, hm⟩, hkey⟩
    exact ⟨m, update_eq_some_iff.mpr (Or.inr ⟨hkey, hm⟩)⟩

theorem JIT.newKey_notMem (jit : JIT llvm) (h : jit.KeysGiven) (m : FilterModule) :
    (jit.addModule m).1 ∉ jit.loadedKeys := by
  rintro ⟨m', hm'⟩
  rw [JIT.loaded_newKey h] at hm'
  cases hm'

theorem destroy_of_compiled {k : FitlerKernelImpl} (h : k.isCompiled = true) (jit : JIT llvm) :
    k.destroy jit = jit.removeModule k.moduleKey := by
  rw [FitlerKernelImpl.destroy, if_pos h]

theorem destroy_of_not_compiled {k : FitlerKernelImpl} (h : k.isCompiled = false)
    (jit : JIT llvm) : k.destroy jit = jit := by
  rw [FitlerKernelImpl.destroy, h]
  rfl

/-! ## One operation -/

/-- A kernel that owned nothing owns the module that it added. -/
theorem ExactModules.acquired {s s' : Process llvm} {i key : Nat} (h : ExactModules s)
    (hi : s.owns i = none) (hkey : key ∉ s.jit.loadedKeys)
    (hloaded : s'.jit.loadedKeys = insert key s.jit.loadedKeys)
    (howns : s'.owns = update s.owns i (some key)) : ExactModules s' where
  loaded := by rw [hloaded, howns, held_acquired hi, h.loaded]
  sole := by
    rw [howns]
    exact sole_acquired h.sole (h.loaded ▸ hkey)

/-- A kernel that owned a module and owns another one leaves the first behind. -/
theorem not_exactModules_of_reacquired {s s' : Process llvm} {i key key' : Nat}
    (h : ExactModules s) (hi : s.owns i = some key) (hkey : key' ∉ s.jit.loadedKeys)
    (hloaded : s'.jit.loadedKeys = insert key' s.jit.loadedKeys)
    (howns : s'.owns = update s.owns i (some key')) : ¬ ExactModules s' := by
  intro h'
  have hmem : key ∈ s.jit.loadedKeys := by
    rw [h.loaded]
    exact ⟨i, hi⟩
  have hne : key' ≠ key := fun heq => hkey (heq ▸ hmem)
  have hleft : key ∈ held s'.owns := by
    rw [← h'.loaded, hloaded]
    exact Or.inr hmem
  rw [howns] at hleft
  exact not_mem_held_of_reacquired h.sole hi hne hleft

/-- A kernel removes the module that it owned. -/
theorem ExactModules.released {s s' : Process llvm} {i key : Nat} (h : ExactModules s)
    (hi : s.owns i = some key) (hloaded : s'.jit.loadedKeys = s.jit.loadedKeys \ {key})
    (howns : s'.owns = update s.owns i none) : ExactModules s' where
  loaded := by rw [hloaded, howns, held_released h.sole hi, h.loaded]
  sole := by
    rw [howns]
    exact sole_released h.sole

/-- Nothing happens to what is owned. -/
theorem ExactModules.of_eq {s s' : Process llvm} (h : ExactModules s) (hjit : s'.jit = s.jit)
    (howns : s'.owns = s.owns) : ExactModules s' :=
  ⟨by rw [hjit, howns, h.loaded], howns ▸ h.sole⟩

/-- **What one operation must meet** for the loaded modules to be those of the kernels. -/
theorem exactModules_step_iff {s s' : Process llvm} {op : KernelOp} (hs : s.Sound)
    (hexact : ExactModules s) (h : s.step op = some s') :
    ExactModules s' ↔ CompilesOnce s op := by
  cases Process.stepped h with
  | created i hi hjit hkernels =>
      exact ⟨fun _ => trivial, fun _ => hexact.of_eq hjit (Process.owns_created hi hkernels)⟩
  | @compiled i _ k m hk hm hjit hkernels =>
      -- the kernel has the new key from now on, and no other
      have hkey := JIT.newKey_notMem s.jit hs.keysGiven m
      have hloaded : s'.jit.loadedKeys = insert (s.jit.addModule m).1 s.jit.loadedKeys := by
        rw [hjit, JIT.loadedKeys_addModule]
      have howns : s'.owns = update s.owns i (some (s.jit.addModule m).1) :=
        Process.owns_update hkernels
      constructor
      · intro hexact' k' hk'
        obtain rfl : k = k' := Option.some.inj (hk.symm.trans hk')
        by_contra hcompiled
        have hi := Process.owns_of_compiled hk (Bool.eq_true_of_not_eq_false hcompiled)
        exact not_exactModules_of_reacquired hexact hi hkey hloaded howns hexact'
      · intro honce
        exact hexact.acquired (Process.owns_of_not_compiled hk (honce k hk)) hkey hloaded howns
  | @threw i k e hk hm =>
      -- a kernel that does not compile now was not compiled before
      refine ⟨fun _ k' hk' => ?_, fun _ => hexact⟩
      by_contra hcompiled
      obtain ⟨m, hm'⟩ := hs.generated i k' hk' (Bool.eq_true_of_not_eq_false hcompiled)
      obtain rfl : k = k' := Option.some.inj (hk.symm.trans hk')
      rw [hm] at hm'
      cases hm'
  | @destroyed i _ k hk hjit hkernels =>
      refine ⟨fun _ => trivial, fun _ => ?_⟩
      have howns : s'.owns = update s.owns i none := Process.owns_update hkernels
      cases hcompiled : k.isCompiled with
      | false =>
          refine hexact.of_eq (by rw [hjit, destroy_of_not_compiled hcompiled]) ?_
          rw [howns, ← Process.owns_of_not_compiled hk hcompiled, update_eq_self]
      | true =>
          refine hexact.released (Process.owns_of_compiled hk hcompiled) ?_ howns
          rw [hjit, destroy_of_compiled hcompiled, JIT.loadedKeys_removeModule]

/-- **What one operation must meet** for the resolvers to be those of the loaded modules. -/
theorem resolvers_step_iff {s s' : Process llvm} {op : KernelOp} (hexact : ExactModules s)
    (hresolvers : (s.jit.resolvers : Set Nat) = s.jit.loadedKeys) (h : s.step op = some s') :
    (s'.jit.resolvers : Set Nat) = s'.jit.loadedKeys ↔ ReleasesNothing s op := by
  cases Process.stepped h with
  | created i hi hjit hkernels =>
      rw [hjit]
      exact ⟨fun _ => trivial, fun _ => hresolvers⟩
  | @compiled i _ k m hk hm hjit hkernels =>
      refine ⟨fun _ => trivial, fun _ => ?_⟩
      rw [hjit, JIT.loadedKeys_addModule, ← hresolvers]
      exact Finset.coe_insert _ _
  | threw hk hm => exact ⟨fun _ => trivial, fun _ => hresolvers⟩
  | @destroyed i _ k hk hjit hkernels =>
      rw [hjit]
      constructor
      · intro hresolvers' k' hk'
        obtain rfl : k = k' := Option.some.inj (hk.symm.trans hk')
        by_contra hcompiled
        have hcompiled : k.isCompiled = true := Bool.eq_true_of_not_eq_false hcompiled
        -- the kernel's module is gone, and its resolver is not
        have hmem : k.moduleKey ∈ s.jit.loadedKeys := by
          rw [hexact.loaded]
          exact ⟨i, Process.owns_of_compiled hk hcompiled⟩
        rw [destroy_of_compiled hcompiled, JIT.loadedKeys_removeModule] at hresolvers'
        have hleft : k.moduleKey ∈ s.jit.loadedKeys \ {k.moduleKey} := by
          rw [← hresolvers']
          exact hresolvers.ge hmem
        exact hleft.2 rfl
      · intro hreleases
        rw [destroy_of_not_compiled (hreleases k hk)]
        exact hresolvers

/-- **What one operation must meet** for the JIT to hold exactly what the kernels own. -/
theorem holdsExactly_step_iff {s s' : Process llvm} {op : KernelOp} (hs : s.Sound)
    (hexact : HoldsExactly s) (h : s.step op = some s') :
    HoldsExactly s' ↔ KeepsExactly s op := by
  have hmodules := exactModules_step_iff hs hexact.toExactModules h
  have hresolvers := resolvers_step_iff hexact.toExactModules
    (hexact.resolvers.trans hexact.loaded.symm) h
  constructor
  · intro h'
    exact ⟨hmodules.mp h'.toExactModules, hresolvers.mp (h'.resolvers.trans h'.loaded.symm)⟩
  · rintro ⟨honce, hreleases⟩
    have h' := hmodules.mpr honce
    exact ⟨h', (hresolvers.mpr hreleases).trans h'.loaded⟩

/-! ## Sequences of operations -/

theorem loadedKeys_create : (JIT.create : JIT llvm).loadedKeys = ∅ := by
  rw [Set.eq_empty_iff_forall_notMem]
  rintro key ⟨m, hm⟩
  rw [JIT.loaded, JIT.create, llvm.layers.loaded_init] at hm
  cases hm

theorem holdsExactly_start : HoldsExactly (Process.start : Process llvm) := by
  have howns : held (Process.start : Process llvm).owns = ∅ := held_eq_empty fun _ => rfl
  exact ⟨⟨loadedKeys_create.trans howns.symm, fun _ _ _ h => by cases h⟩,
    Finset.coe_empty.trans howns.symm⟩

/-- The JIT holds nothing once no kernel is alive. -/
theorem HoldsExactly.eq_empty {s : Process llvm} (h : HoldsExactly s)
    (hkernels : ∀ i, s.kernel? i = none) : s.jit.loadedKeys = ∅ ∧ s.jit.resolvers = ∅ := by
  have howns : held s.owns = ∅ :=
    held_eq_empty fun i => by rw [Process.owns, hkernels, Option.bind_none]
  exact ⟨h.loaded.trans howns, Finset.coe_eq_empty.mp (h.resolvers.trans howns)⟩

/-- **What the JIT holds.** The loaded modules and the resolvers are those of the kernels
throughout a sequence of operations if and only if no compiled kernel is compiled again or
destroyed. -/
theorem holds_exactly_iff (ops : List KernelOp) :
    Throughout Process.step HoldsExactly (Process.start : Process llvm) ops ↔
      Guarded Process.step KeepsExactly (Process.start : Process llvm) ops :=
  throughout_iff_guarded Process.sound_step holdsExactly_step_iff Process.sound_start
    holdsExactly_start

/-- A comparison of a column `a` as it is evaluated: its kernel is compiled, and then dropped. -/
def comparisonOnA : List KernelOp :=
  [.createCpu ⟨"a", .int32⟩ ((col "a").gt (lit 0)), .compile 0, .destroy 0]

/-- The kernel's resolver stays. -/
theorem not_holds_exactly_comparisonOnA :
    ¬ Throughout Process.step HoldsExactly (Process.start : Process tables) comparisonOnA := by
  rintro ⟨-, h⟩
  obtain ⟨-, h⟩ := h _ rfl
  obtain ⟨-, h⟩ := h _ rfl
  have h := h _ rfl
  have hempty : ({1} : Finset Nat) = ∅ :=
    (HoldsExactly.eq_empty h fun i => by cases i <;> rfl).2
  exact Finset.singleton_ne_empty 1 hempty

end Pefa
