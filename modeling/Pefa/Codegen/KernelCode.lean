import Pefa.Codegen.PredicateCode
import Pefa.Codegen.RemainingRuns

/-!
# The code of a kernel

A compiled kernel consists of the three functions of its module. What is proved of them one by one
is put together here: called with pointers into a value buffer and a bitmap, the generated functions
do what `Pefa.filterFunc` and `Pefa.filterRemainingFunc` say, with the predicate that the visitor of
the expression stands for. So the loops that the other modules reason about are those of the emitted
code.
-/

namespace Pefa

namespace Ir

open ControlFlow

/-! ## The predicate -/

/-- The function that `gen_predicate_func` emits, from the instructions of its block. -/
def predicateFunction (field : Field) (type : IrType) (code : Code field.type)
    (result : Option Operand) : Function :=
  ⟨predicateName field, [type], some (.int 1), [⟨"body", code.instrs, some (.ret result)⟩]⟩

/-- **What `gen_predicate_func` emits**: where the predicate is generated, a function that returns
its truth value. -/
theorem genPredicateFunc_emits {field : Field} {expr : BooleanExpr}
    {predicate : field.type.CType → Bool} (h : Pefa.genPredicateFunc field expr = .ok predicate)
    (module : Module) :
    ∃ type code o, fromArrow field.type = .ok type ∧ Code.Computes code o predicate ∧
      genPredicateFunc field expr module = .ok { module with
        functions := module.functions ++ [predicateFunction field type code (some o)] } := by
  obtain ⟨llvmType, htype, h⟩ := bind_eq_ok.mp h
  obtain ⟨result, hvisit, h⟩ := bind_eq_ok.mp h
  have htype' : fromArrow field.type = .ok (irType llvmType) := by
    rw [fromArrow, htype]
    rfl
  have hemits : Emits Code.empty (irEmitVisit field expr none)
      (irEmitVisitor field (.arg 0 (irType llvmType)) expr none Code.empty.builder) :=
    irEmitVisitor_emits _ _ _ _ _ trivial
  rw [hvisit] at hemits
  generalize hrun : irEmitVisitor field (.arg 0 (irType llvmType)) expr none
    Code.empty.builder = run at hemits
  cases hemits with
  | @ok code o p hle hholds =>
      cases result with
      | none => cases h
      | some p =>
          cases h
          cases o with
          | none => exact hholds.elim
          | some o =>
              refine ⟨_, code, o, htype', hholds, ?_⟩
              rw [genPredicateFunc, htype', bind_ok]
              have hcode : (irEmitVisitor field (.arg 0 (irType llvmType)) expr none >>= createRet)
                  (Code.empty : Code field.type).builder = createRet (some o) code.builder := by
                rw [emit_bind, hrun]
                rfl
              exact congrArg (fun r : Except Error (Unit × Builder) => r >>= fun b =>
                Except.ok { module with functions := module.functions ++ [Function.mk
                  (predicateName field) [irType llvmType] (some (.int 1)) b.2.blocks] }) hcode

/-- A call of the predicate. -/
theorem predicateFunction_call {field : Field} {type : IrType} {code : Code field.type}
    {o : Operand} {predicate : field.type.CType → Bool} (h : code.Computes o predicate)
    (callee : Callee) (fuel : Nat) (x : field.type.CType) (memory : Memory) :
    (predicateFunction field type code (some o)).call callee (fuel + 1) [toValue field.type x]
        memory = .ok (.int 1 (BitVec.ofBool (predicate x)), memory) := by
  have hexec : (predicateFunction field type code (some o)).exec callee [toValue field.type x] 0
      ⟨fun _ => [], ⟨[], memory⟩⟩ = .ok (.return (.int 1 (BitVec.ofBool (predicate x))),
        ⟨Function.update (fun _ => []) 0 (code.vals x), ⟨[], memory⟩⟩) := by
    simp only [predicateFunction, Function.exec, List.getElem?_cons_zero, code.exec_instrs, bind_ok,
      Terminator.exec, h.operand]
  rw [Function.call, run, hexec]
  rfl

/-! ## The module -/

/-- Names that differ in their suffixes. -/
theorem name_ne {name a b : String} (h : a ≠ b) : name ++ a ≠ name ++ b := by
  intro heq
  apply h
  have hlist := congrArg String.toList heq
  rw [String.toList_append, String.toList_append] at hlist
  exact String.toList_injective (List.append_cancel_left hlist)

theorem Module.call_eq {m : Module} {name : String} {f : Function} (h : m.getFunction name = some f)
    (n : Nat) (fuel : List Nat) (args : List Value) (memory : Memory) :
    m.call (n :: fuel) name args memory =
      f.call (fun name arg => m.call fuel name [arg]) n args memory := by
  rw [Module.call, h]

theorem size_pos {type : DataType} {t : IrType} (h : fromArrow type = .ok t) : 0 < t.size := by
  unfold fromArrow at h
  cases hllvm : Pefa.fromArrow type with
  | error e =>
      rw [hllvm] at h
      cases h
  | ok llvmType =>
      rw [hllvm] at h
      cases h
      cases llvmType <;> decide

/-- The functions of a module, called with any pointers into a value buffer and a bitmap, return
what the loops around a predicate compute and have accessed what they access. Where the loops stop
with an error the functions stop with the same one; an error does not say at which access, or what
was accessed before it. -/
structure RunsLoops (module : Module) (field : Field) (type : IrType)
    (predicate : field.type.CType → Bool) : Prop where
  filter : ∀ (values : List field.type.CType) (bitmap : Bitmap) (source dest : Nat)
    (len : BitVec 64), values.length < 2 ^ 63 → ∃ n, ∀ fuel, n ≤ fuel →
      module.call [fuel, 1] (filterName field) (filterArgs source dest len)
          (memoryOf (toValue field.type) values type bitmap []) =
        (filterFunc predicate values type.size source bitmap dest len).map
          fun r => (.void, memoryOf (toValue field.type) values type r.1 r.2)
  remaining : ∀ (values : List field.type.CType) (bitmap : Bitmap) (source dest : Nat)
    (len bitOffset : BitVec 8), ∃ n, ∀ fuel, n ≤ fuel →
      module.call [fuel, 1] (filterRemainingName field) (remainingArgs source dest len bitOffset)
          (memoryOf (toValue field.type) values type bitmap []) =
        (filterRemainingFunc predicate values type.size source bitmap dest len bitOffset).map
          fun r => (.void, memoryOf (toValue field.type) values type r.1 r.2)

/-- The module of a kernel, around the function of the predicate. -/
def kernelModule (field : Field) (type : IrType) (predicate : Function) : Module :=
  ⟨field.name ++ "_filter_mod",
    [predicate,
      ⟨filterName field, [.ptr (.int 8), .ptr (.int 8), .int 64], none,
        filterBlocks type predicate.name⟩,
      ⟨filterRemainingName field, [.ptr (.int 8), .ptr (.int 8), .int 8, .int 8], none,
        filterRemainingBlocks type predicate.name⟩]⟩

theorem genModule_eq {field : Field} {expr : BooleanExpr} {type : IrType} {p : Function}
    (htype : fromArrow field.type = .ok type) (hname : p.name = predicateName field)
    (hret : p.returnType = some (.int 1))
    (hpredicate : genPredicateFunc field expr ⟨field.name ++ "_filter_mod", []⟩ =
      .ok ⟨field.name ++ "_filter_mod", [p]⟩) :
    genModule field expr = .ok (kernelModule field type p) := by
  have hfirst : ∀ fs : List Function,
      (Module.mk (field.name ++ "_filter_mod") (p :: fs)).getFunction (predicateName field) =
        some p :=
    fun fs => List.find?_cons_of_pos (by simp [hname])
  have hfilter := genFilterFunc_eq htype (hfirst []) hret
  have hremaining := genFilterRemainingFunc_eq htype
    (hfirst [⟨filterName field, [.ptr (.int 8), .ptr (.int 8), .int 64], none,
      filterBlocks type p.name⟩]) hret
  simp only [genModule, hpredicate, bind_ok]
  rw [hfilter, bind_ok]
  exact hremaining

/-- **The functions of a kernel's module** run the loops around its predicate. -/
theorem kernelModule_runs {field : Field} {type : IrType} {code : Code field.type} {o : Operand}
    {predicate : field.type.CType → Bool} (htype : fromArrow field.type = .ok type)
    (hcode : code.Computes o predicate) :
    RunsLoops (kernelModule field type (predicateFunction field type code (some o))) field type
      predicate := by
  obtain ⟨m, hm⟩ : ∃ m, m = kernelModule field type (predicateFunction field type code (some o)) :=
    ⟨_, rfl⟩
  rw [← hm]
  -- the names of the three functions differ, so each is found
  have hne₁ : predicateName field ≠ filterName field := name_ne (by decide)
  have hne₂ : predicateName field ≠ filterRemainingName field := name_ne (by decide)
  have hne₃ : filterName field ≠ filterRemainingName field := name_ne (by decide)
  have hget : m.getFunction (predicateName field) =
      some (predicateFunction field type code (some o)) := by
    simp [hm, Module.getFunction, kernelModule, predicateFunction]
  obtain ⟨callee, hcallee⟩ : ∃ callee : Callee, callee = fun name arg => m.call [1] name [arg] :=
    ⟨_, rfl⟩
  have hcall : ∀ x memory, callee (predicateName field) (toValue field.type x) memory =
      .ok (.int 1 (BitVec.ofBool (predicate x)), memory) := by
    intro x memory
    rw [hcallee]
    show m.call [1] _ _ _ = _
    rw [Module.call_eq hget]
    exact predicateFunction_call hcode _ 0 x memory
  constructor
  · intro values bitmap source dest len hvalues
    have hfilter : m.getFunction (filterName field) = some ⟨filterName field,
        [.ptr (.int 8), .ptr (.int 8), .int 64], none,
        filterBlocks type (predicateName field)⟩ := by
      simp [hm, Module.getFunction, kernelModule, predicateFunction, hne₁]
    obtain ⟨n, hn⟩ := filter_call hcall hvalues (size_pos htype) bitmap (filterName field)
      [.ptr (.int 8), .ptr (.int 8), .int 64]
    refine ⟨n, fun fuel hfuel => ?_⟩
    rw [Module.call_eq hfilter, ← hcallee]
    exact hn fuel hfuel
  · intro values bitmap source dest len bitOffset
    have hremaining : m.getFunction (filterRemainingName field) = some ⟨filterRemainingName field,
        [.ptr (.int 8), .ptr (.int 8), .int 8, .int 8], none,
        filterRemainingBlocks type (predicateName field)⟩ := by
      simp [hm, Module.getFunction, kernelModule, predicateFunction, hne₂, hne₃]
    obtain ⟨n, hn⟩ := filterRemaining_call hcall bitmap (filterRemainingName field)
      [.ptr (.int 8), .ptr (.int 8), .int 8, .int 8]
    refine ⟨n, fun fuel hfuel => ?_⟩
    rw [Module.call_eq hremaining, ← hcallee]
    exact hn fuel hfuel

/-- **What a kernel is compiled to**: wherever the predicate of an expression is generated the
module is, and its functions run the loops around that predicate. -/
theorem genModule_runs {field : Field} {expr : BooleanExpr} {predicate : field.type.CType → Bool}
    (h : Pefa.genPredicateFunc field expr = .ok predicate) :
    ∃ module type, genModule field expr = .ok module ∧ fromArrow field.type = .ok type ∧
      RunsLoops module field type predicate := by
  obtain ⟨type, code, o, htype, hcode, hpredicate⟩ :=
    genPredicateFunc_emits h ⟨field.name ++ "_filter_mod", []⟩
  exact ⟨_, type, genModule_eq htype rfl rfl hpredicate, htype, kernelModule_runs htype hcode⟩

/-- The kernel of `a > 4`. -/
theorem genModule_runs_aboveFour :
    ∃ module type, genModule ⟨"a", .int8⟩ ((col "a").gt (lit 4)) = .ok module ∧
      fromArrow .int8 = .ok type ∧
      RunsLoops module ⟨"a", .int8⟩ type fun x => CompareOp.gt.compare .int8 x (lit 4) :=
  genModule_runs rfl

end Ir

end Pefa
