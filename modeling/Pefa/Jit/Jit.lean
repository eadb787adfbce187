import Pefa.Kernels.Filter
import Pefa.Lib.Linker

/-!
# The JIT and its kernels

All kernels share one JIT. A kernel that is compiled adds a module to it and looks its two
functions up by name; a kernel that is destroyed removes the module whose key it has. The names
are made of the name of the kernel's field alone, so kernels on equally named fields export the
same names.

LLVM is a parameter: a mangler, and layers that hold modules and find symbols (`Linker`). The
state is the process's: the JIT, and the kernels that were created so far. One `step` is one
operation on a kernel. An exception leaves the process running; an error that ends the process
has no state after it.
-/

namespace Pefa

/-! ## Modules -/

/-- A module that was generated for a field and an expression. -/
structure FilterModule where
  field : Field
  expr : BooleanExpr
  predicate : field.type.CType → Bool
  generated : genPredicateFunc field expr = .ok predicate

/-- The name of the function that `execute` calls. -/
def filterName (field : Field) : String := field.name ++ "_filter"

/-- The name of the function that `execute_remaining` calls. -/
def filterRemainingName (field : Field) : String := field.name ++ "_filter_remaining"

/-- `gen_predicate_func`, `gen_filter_func` and `gen_filter_remaining_func` on a new module. -/
def generate (field : Field) (expr : BooleanExpr) : Except Error FilterModule :=
  match h : genPredicateFunc field expr with
  | .ok predicate => .ok ⟨field, expr, predicate, h⟩
  | .error e => .error e

/-- The symbols that a module exports; the predicate has internal linkage. -/
def FilterModule.exports (mangle : String → String) (m : FilterModule) : List String :=
  [mangle (filterName m.field), mangle (filterRemainingName m.field)]

theorem generate_eq_ok {field : Field} {expr : BooleanExpr} {m : FilterModule}
    (h : generate field expr = .ok m) : m.field = field ∧ m.expr = expr := by
  unfold generate at h
  split at h
  · cases h
    exact ⟨rfl, rfl⟩
  · cases h

theorem emit_of_generated {field : Field} {expr : BooleanExpr}
    {predicate : field.type.CType → Bool} (h : genPredicateFunc field expr = .ok predicate) :
    irEmitVisit field expr none = .ok (some predicate) := by
  obtain ⟨type, -, h⟩ := bind_eq_ok.mp h
  obtain ⟨result, hresult, h⟩ := bind_eq_ok.mp h
  cases result with
  | none => cases h
  | some p =>
      cases h
      exact hresult

/-! ## The JIT -/

/-- What the JIT uses of LLVM: the mangler of the target, and the layers that modules are added
to. -/
structure Llvm where
  mangle : String → String
  layers : Linker FilterModule (FilterModule.exports mangle)

/-- LLVM with names that are not changed, and modules in a table. -/
def tables : Llvm := ⟨id, .ofTables _⟩

variable (llvm : Llvm)

/-- `pefa::jit::JIT`: the layers, and the keys of `m_resolvers`. -/
structure JIT where
  layers : llvm.layers.State
  resolvers : Finset Nat

variable {llvm}

namespace JIT

/-- `JIT::JIT` -/
def create : JIT llvm := ⟨llvm.layers.init, ∅⟩

/-- The module that is loaded under a key. -/
def loaded (jit : JIT llvm) (key : Nat) : Option FilterModule := llvm.layers.loaded jit.layers key

/-- `JIT::addModule` -/
def addModule (jit : JIT llvm) (m : FilterModule) : Nat × JIT llvm :=
  let (key, layers) := llvm.layers.allocate jit.layers
  (key, ⟨llvm.layers.add layers key m, insert key jit.resolvers⟩)

/-- `JIT::removeModule` -/
def removeModule (jit : JIT llvm) (key : Nat) : JIT llvm :=
  { jit with layers := llvm.layers.remove jit.layers key }

end JIT

/-- The address of a function: the module that it is in, and its symbol. -/
structure JITSymbol where
  key : Nat
  symbol : String

/-- `JIT::findSymbol` -/
def JIT.findSymbol (jit : JIT llvm) (name : String) : Option JITSymbol :=
  (llvm.layers.find jit.layers (llvm.mangle name)).map fun key => ⟨key, llvm.mangle name⟩

/-! ## `FitlerKernelImpl` -/

/-- The members of a kernel; a null function has no address. -/
structure FitlerKernelImpl where
  field : Field
  expr : BooleanExpr
  moduleKey : Nat := 0
  isCompiled : Bool := false
  filterFunc : Option JITSymbol := none
  filterRemainingFunc : Option JITSymbol := none

namespace FitlerKernelImpl

/-- `FitlerKernelImpl::compile`: nothing is changed before the module is generated. -/
def compile (k : FitlerKernelImpl) (jit : JIT llvm) :
    Except Error (FitlerKernelImpl × JIT llvm) := do
  let m ← generate k.field k.expr
  let (key, jit) := jit.addModule m
  .ok ({ k with
    moduleKey := key
    filterFunc := jit.findSymbol (filterName k.field)
    filterRemainingFunc := jit.findSymbol (filterRemainingName k.field)
    isCompiled := true }, jit)

/-- `~FitlerKernelImpl` -/
def destroy (k : FitlerKernelImpl) (jit : JIT llvm) : JIT llvm :=
  if k.isCompiled then jit.removeModule k.moduleKey else jit

end FitlerKernelImpl

/-! ## The process -/

/-- One operation on kernels; a kernel is named by its place among those created so far. -/
inductive KernelOp where
  | createCpu (field : Field) (expr : BooleanExpr)
  | compile (i : Nat)
  | destroy (i : Nat)

variable (llvm) in
/-- The JIT of `get_JIT`, and the kernels created so far, without those destroyed. -/
structure Process where
  jit : JIT llvm
  kernels : List (Option FitlerKernelImpl)

namespace Process

/-- No kernel was created yet. -/
def start : Process llvm := ⟨.create, []⟩

/-- The kernel with a number, if it is alive. -/
def kernel? (s : Process llvm) (i : Nat) : Option FitlerKernelImpl := s.kernels[i]?.join

/-- One operation. There is no state after an operation on a kernel that is not alive, nor after
an error that is not an exception. -/
def step (s : Process llvm) : KernelOp → Option (Process llvm)
  | .createCpu field expr =>
      some { s with kernels := s.kernels ++ [some { field := field, expr := expr }] }
  | .compile i =>
      match s.kernel? i with
      | none => none
      | some k =>
          match k.compile s.jit with
          | .ok (k, jit) => some ⟨jit, s.kernels.set i (some k)⟩
          | .error e => if e.isException then some s else none
  | .destroy i =>
      match s.kernel? i with
      | none => none
      | some k => some ⟨k.destroy s.jit, s.kernels.set i none⟩

/-! ## What one operation does -/

theorem kernel?_set {s : Process llvm} {i : Nat} {k : FitlerKernelImpl}
    (h : s.kernel? i = some k) (jit : JIT llvm) (x : Option FitlerKernelImpl) :
    kernel? ⟨jit, s.kernels.set i x⟩ = Function.update s.kernel? i x := by
  have hlt : i < s.kernels.length := by
    by_contra hge
    rw [kernel?, List.getElem?_eq_none (Nat.le_of_not_lt hge)] at h
    cases h
  funext j
  by_cases hj : j = i
  · rw [hj, Function.update_self, kernel?, List.getElem?_set_self hlt]
    rfl
  · rw [Function.update_of_ne hj, kernel?, List.getElem?_set_ne (Ne.symm hj)]
    rfl

theorem kernel?_append (s : Process llvm) (k : FitlerKernelImpl) :
    kernel? ⟨s.jit, s.kernels ++ [some k]⟩ =
      Function.update s.kernel? s.kernels.length (some k) := by
  funext j
  rcases Nat.lt_trichotomy j s.kernels.length with hlt | rfl | hgt
  · rw [Function.update_of_ne hlt.ne, kernel?, List.getElem?_append_left hlt]
    rfl
  · rw [Function.update_self, kernel?, List.getElem?_concat_length]
    rfl
  · rw [Function.update_of_ne hgt.ne', kernel?, kernel?, List.getElem?_eq_none hgt.le,
      List.getElem?_eq_none (by rw [List.length_append, List.length_singleton]; omega)]

theorem kernel?_length (s : Process llvm) : s.kernel? s.kernels.length = none := by
  rw [kernel?, List.getElem?_eq_none (Nat.le_refl _)]
  rfl

/-- The states after one operation, with what it changed. -/
inductive Stepped (s : Process llvm) : KernelOp → Process llvm → Prop
  /-- a kernel was created -/
  | created {field : Field} {expr : BooleanExpr} {s' : Process llvm} (i : Nat)
      (hi : s.kernel? i = none) (hjit : s'.jit = s.jit)
      (hkernels : s'.kernel? =
        Function.update s.kernel? i (some { field := field, expr := expr })) :
      Stepped s (.createCpu field expr) s'
  /-- a kernel was compiled -/
  | compiled {i : Nat} {s' : Process llvm} {k : FitlerKernelImpl} {m : FilterModule}
      (hk : s.kernel? i = some k) (hm : generate k.field k.expr = .ok m)
      (hjit : s'.jit = (s.jit.addModule m).2)
      (hkernels : s'.kernel? = Function.update s.kernel? i (some { k with
        moduleKey := (s.jit.addModule m).1
        filterFunc := s'.jit.findSymbol (filterName k.field)
        filterRemainingFunc := s'.jit.findSymbol (filterRemainingName k.field)
        isCompiled := true })) :
      Stepped s (.compile i) s'
  /-- an exception was thrown before anything changed -/
  | threw {i : Nat} {k : FitlerKernelImpl} {e : Error} (hk : s.kernel? i = some k)
      (hm : generate k.field k.expr = .error e) : Stepped s (.compile i) s
  /-- a kernel was destroyed -/
  | destroyed {i : Nat} {s' : Process llvm} {k : FitlerKernelImpl} (hk : s.kernel? i = some k)
      (hjit : s'.jit = k.destroy s.jit)
      (hkernels : s'.kernel? = Function.update s.kernel? i none) : Stepped s (.destroy i) s'

/-- **What one operation does.** -/
theorem stepped {s s' : Process llvm} {op : KernelOp} (h : s.step op = some s') :
    Stepped s op s' := by
  cases op with
  | createCpu field expr =>
      cases h
      exact .created _ s.kernel?_length rfl (s.kernel?_append _)
  | compile i =>
      cases hk : s.kernel? i with
      | none =>
          simp only [step, hk] at h
          cases h
      | some k =>
          cases hm : generate k.field k.expr with
          | error e =>
              simp only [step, hk, FitlerKernelImpl.compile, hm, bind_error] at h
              split at h
              · cases h
                exact .threw hk hm
              · cases h
          | ok m =>
              simp only [step, hk, FitlerKernelImpl.compile, hm, bind_ok] at h
              cases h
              exact .compiled hk hm rfl (kernel?_set hk _ _)
  | destroy i =>
      cases hk : s.kernel? i with
      | none =>
          simp only [step, hk] at h
          cases h
      | some k =>
          simp only [step, hk] at h
          cases h
          exact .destroyed hk rfl (kernel?_set hk _ _)

end Process

/-! ## Keys and symbols -/

namespace JIT

variable {jit : JIT llvm}

/-- Modules are loaded under keys that were given out. -/
def KeysGiven (jit : JIT llvm) : Prop := llvm.layers.KeysGiven jit.layers

theorem loaded_addModule (jit : JIT llvm) (m : FilterModule) : (jit.addModule m).2.loaded =
    Function.update jit.loaded (jit.addModule m).1 (some m) :=
  Linker.loaded_addFresh jit.layers m

theorem loaded_removeModule (jit : JIT llvm) (key : Nat) :
    (jit.removeModule key).loaded = Function.update jit.loaded key none :=
  llvm.layers.loaded_remove _ _

/-- The key of a new module is not in use. -/
theorem loaded_newKey (h : jit.KeysGiven) (m : FilterModule) :
    jit.loaded (jit.addModule m).1 = none :=
  Linker.loaded_fresh h

/-- A symbol that is found is one of a loaded module. -/
theorem loaded_of_findSymbol {name : String} {sym : JITSymbol}
    (h : jit.findSymbol name = some sym) :
    ∃ m, jit.loaded sym.key = some m ∧ sym.symbol ∈ m.exports llvm.mangle := by
  obtain ⟨key, hkey, rfl⟩ := Option.map_eq_some_iff.mp h
  exact Linker.exports_of_find hkey

/-- A symbol that was found before is found where it was. -/
theorem findSymbol_addModule_of_some (h : jit.KeysGiven) {name : String} {sym : JITSymbol}
    (hfind : jit.findSymbol name = some sym) (m : FilterModule) :
    (jit.addModule m).2.findSymbol name = some sym := by
  obtain ⟨key, hkey, rfl⟩ := Option.map_eq_some_iff.mp hfind
  exact congrArg (Option.map _) (Linker.find_add_of_some h hkey m)

/-- A symbol that was not found before is found in the new module. -/
theorem findSymbol_addModule_of_none {name : String} (hfind : jit.findSymbol name = none)
    {m : FilterModule} (hname : llvm.mangle name ∈ m.exports llvm.mangle) :
    (jit.addModule m).2.findSymbol name = some ⟨(jit.addModule m).1, llvm.mangle name⟩ :=
  congrArg (Option.map _) (Linker.find_add_of_none (Option.map_eq_none_iff.mp hfind) hname)

end JIT

/-- No operation loads a module under a key that was not given out. -/
theorem Process.keysGiven_step {s s' : Process llvm} {op : KernelOp} (h : s.jit.KeysGiven)
    (hstep : s.step op = some s') : s'.jit.KeysGiven := by
  cases Process.stepped hstep with
  | created i hi hjit hkernels => rwa [hjit]
  | compiled hk hm hjit hkernels =>
      rw [hjit]
      exact Linker.keysGiven_add h _
  | threw hk hm => exact h
  | destroyed hk hjit hkernels =>
      rw [hjit, FitlerKernelImpl.destroy]
      split
      · exact Linker.keysGiven_remove h _
      · exact h

theorem Process.keysGiven_start : (Process.start : Process llvm).jit.KeysGiven :=
  Linker.keysGiven_init

end Pefa
