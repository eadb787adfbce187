import Pefa.Codegen.FilterCode

/-!
# The code of the predicate

`IrEmitVisitor` emits one block of instructions. Executed on a value of the column they compute what
the expression says of it: what is emitted for a comparison compares, and what is emitted for an AND
or OR combines the two results that were emitted before it, which the instructions in between leave
alone. Where the visitor fails, it fails as `irEmitVisit` does.
-/

namespace Pefa

namespace Ir

open ControlFlow

/-! ## Straight-line code -/

section Instrs

variable {callee : Callee} {args : List Value} {regs : Nat → List Value} {block : Nat}

theorem exec_icmp {get : Operand → Except Error Value} {s : State} {pred : ICmp} {l r : Operand}
    {w : Nat} {x y : BitVec w} (hl : get l = .ok (.int w x)) (hr : get r = .ok (.int w y)) :
    (Instr.icmp pred l r).exec callee get s = .ok (.int 1 (BitVec.ofBool (pred.apply x y)), s) := by
  simp only [Instr.exec, hl, hr, bind_ok, Value.toInt_int]

/-- Instructions are executed one list after the other. -/
theorem execInstrs_append (is js : List Instr) (vals : List Value) (s : State) :
    execInstrs callee args regs block (is ++ js) vals s =
      execInstrs callee args regs block is vals s >>= fun r =>
        execInstrs callee args regs block js r.1 r.2 := by
  induction is generalizing vals s with
  | nil => rfl
  | cons i is ih =>
      simp only [List.cons_append, execInstrs]
      cases i.exec callee (operand args regs block vals) s with
      | error e => rfl
      | ok r => exact ih _ _

theorem execInstrs_trans {is js : List Instr} {vals vals' : List Value} {s s' : State}
    (h : execInstrs callee args regs block is vals s = .ok (vals', s')) :
    execInstrs callee args regs block (is ++ js) vals s =
      execInstrs callee args regs block js vals' s' := by
  rw [execInstrs_append, h]
  rfl

theorem execInstrs_error {i : Instr} {is : List Instr} {vals : List Value} {s : State} {e : Error}
    (h : i.exec callee (operand args regs block vals) s = .error e) :
    execInstrs callee args regs block (i :: is) vals s = .error e := by
  rw [execInstrs, h]
  rfl

theorem execInstrs_ok {i : Instr} {is : List Instr} {vals : List Value} {s s' : State} {v : Value}
    (h : i.exec callee (operand args regs block vals) s = .ok (v, s')) :
    execInstrs callee args regs block (i :: is) vals s =
      execInstrs callee args regs block is (vals ++ [v]) s' := by
  rw [execInstrs, h]
  rfl

theorem exec_shl_error {l r : Operand} {x y : BitVec 8} {vals : List Value} {s : State} {e : Error}
    (hl : operand args regs block vals l = .ok (.int 8 x))
    (hr : operand args regs block vals r = .ok (.int 8 y)) (h : shlByte x y = .error e) :
    (Instr.binary .shl l r).exec callee (operand args regs block vals) s = .error e := by
  obtain ⟨rfl, hshl⟩ := BinOp.apply_shl_of_error h
  simp only [Instr.exec, hl, hr, bind_ok, Value.toInt_int, hshl]

end Instrs

/-! ## Code that computes values -/

variable {type : DataType}

/-- Instructions of the first block that compute values from the one argument, and nothing else. -/
structure Code (type : DataType) where
  instrs : List Instr
  vals : type.CType → List Value
  length_vals : ∀ x, (vals x).length = instrs.length
  exec_instrs : ∀ (callee : Callee) (regs : Nat → List Value) (x : type.CType) (s : State),
    execInstrs callee [toValue type x] regs 0 instrs [] s = .ok (vals x, s)

namespace Code

def empty : Code type := ⟨[], fun _ => [], fun _ => rfl, fun _ _ _ _ => rfl⟩

/-- One more instruction. -/
def append (c : Code type) (i : Instr) (v : type.CType → Value)
    (h : ∀ (callee : Callee) (regs : Nat → List Value) (x : type.CType) (s : State),
      i.exec callee (operand [toValue type x] regs 0 (c.vals x)) s = .ok (v x, s)) :
    Code type where
  instrs := c.instrs ++ [i]
  vals := fun x => c.vals x ++ [v x]
  length_vals := fun x => by
    rw [List.length_append, List.length_append, c.length_vals]
    rfl
  exec_instrs := fun callee regs x s => by
    rw [execInstrs_append, c.exec_instrs, bind_ok, execInstrs, h]
    rfl

/-- The builder in the block that the code is emitted to. -/
def builder (c : Code type) : Builder := ⟨[⟨"body", c.instrs, none⟩], 0⟩

/-- The code goes on as the other does, and computes at least what it computes. -/
def IsPrefix (c c' : Code type) : Prop := ∀ x, (c.vals x).IsPrefix (c'.vals x)

theorem IsPrefix.refl (c : Code type) : c.IsPrefix c := fun _ => List.prefix_rfl

theorem IsPrefix.trans {c c' c'' : Code type} (h : c.IsPrefix c') (h' : c'.IsPrefix c'') :
    c.IsPrefix c'' := fun x => (h x).trans (h' x)

theorem isPrefix_append (c : Code type) {i : Instr} {v : type.CType → Value} (h) :
    c.IsPrefix (c.append i v h) := fun x => List.prefix_append (c.vals x) [v x]

/-- An instruction of the code has the truth value of a predicate. -/
def Computes (c : Code type) (o : Operand) (p : type.CType → Bool) : Prop :=
  ∃ i, o = .instr 0 i (.int 1) ∧ ∀ x, (c.vals x)[i]? = some (.int 1 (BitVec.ofBool (p x)))

/-- The result so far, as an operand and as a predicate. -/
def Holds (c : Code type) : Option Operand → Option (type.CType → Bool) → Prop
  | none, none => True
  | some o, some p => c.Computes o p
  | _, _ => False

theorem Computes.of_isPrefix {c c' : Code type} {o : Operand} {p : type.CType → Bool}
    (h : c.Computes o p) (hle : c.IsPrefix c') : c'.Computes o p := by
  obtain ⟨i, rfl, hi⟩ := h
  refine ⟨i, rfl, fun x => ?_⟩
  obtain ⟨rest, hrest⟩ := hle x
  rw [← hrest, List.getElem?_append_left (List.getElem?_eq_some_iff.mp (hi x)).1]
  exact hi x

/-- The operand is evaluated to the truth value. -/
theorem Computes.operand {c : Code type} {o : Operand} {p : type.CType → Bool}
    (h : c.Computes o p) (args : List Value) (regs : Nat → List Value) (x : type.CType) :
    operand args regs 0 (c.vals x) o = .ok (.int 1 (BitVec.ofBool (p x))) := by
  obtain ⟨i, rfl, hi⟩ := h
  simp only [Ir.operand, if_pos, hi]

/-- The instruction that was emitted last. -/
theorem computes_append (c : Code type) {i : Instr} {p : type.CType → Bool} (h) :
    (c.append i (fun x => .int 1 (BitVec.ofBool (p x))) h).Computes
      (.instr 0 c.instrs.length (.int 1)) p := by
  refine ⟨c.instrs.length, rfl, fun x => ?_⟩
  show (c.vals x ++ [_])[c.instrs.length]? = _
  rw [← c.length_vals x, List.getElem?_concat_length]

end Code

/-! ## What the visitor emits -/

/-- A constant is of an integral or a floating-point type. -/
theorem constFromVariant_eq_ok {l : LiteralExpr} {constant : type.CType}
    (h : Pefa.constFromVariant type l = .ok constant) :
    (∃ signed w, type = .integral signed w) ∨ ∃ w, type = .floating w := by
  cases type with
  | integral signed w => exact .inl ⟨signed, w, rfl⟩
  | floating w => exact .inr ⟨w, rfl⟩
  | string | bool | na => cases h
  | other id text bitWidth =>
      cases id with
      | decimal =>
          obtain ⟨value, -, h⟩ := bind_eq_ok.mp h
          cases h
      | _ => cases h

theorem createCmpFunc_emits {l : LiteralExpr} {constant : type.CType} (icmp ucmp : ICmp)
    (fcmp : FCmp) (t : IrType) (h : Pefa.constFromVariant type l = .ok constant) :
    ∃ o cmp i, constFromVariant type l = .ok o ∧
      Pefa.createCmpFunc (fun _ => icmp.apply) (fun _ => ucmp.apply) fcmp.apply type = .ok cmp ∧
      createCmpFunc icmp ucmp fcmp type (.arg 0 t) o = insert i (.int 1) ∧
      ∀ (callee : Callee) (regs : Nat → List Value) (vals : List Value) (x : type.CType)
        (s : State),
        i.exec callee (operand [toValue type x] regs 0 vals) s =
          .ok (.int 1 (BitVec.ofBool (cmp x constant)), s) := by
  rcases constFromVariant_eq_ok h with ⟨signed, w, rfl⟩ | ⟨w, rfl⟩
  · have ho : constFromVariant (.integral signed w) l = .ok (.constInt w.bits constant) := by
      rw [constFromVariant, h]
      rfl
    cases signed with
    | true => exact ⟨_, _, .icmp icmp _ _, ho, rfl, rfl, fun _ _ _ _ _ => exec_icmp rfl rfl⟩
    | false => exact ⟨_, _, .icmp ucmp _ _, ho, rfl, rfl, fun _ _ _ _ _ => exec_icmp rfl rfl⟩
  · have ho : constFromVariant (.floating w) l = .ok (.constFloat w constant) := by
      rw [constFromVariant, h]
      rfl
    exact ⟨_, _, .fcmp fcmp _ _, ho, rfl, rfl, fun _ _ _ _ _ => rfl⟩

/-- What is emitted for a comparison is one instruction, which compares. -/
theorem createCmp_emits {l : LiteralExpr} {constant : type.CType} (op : CompareOp) (t : IrType)
    (h : Pefa.constFromVariant type l = .ok constant) :
    ∃ o cmp i, constFromVariant type l = .ok o ∧ Pefa.createCmp op type = .ok cmp ∧
      createCmp op type (.arg 0 t) o = insert i (.int 1) ∧
      ∀ (callee : Callee) (regs : Nat → List Value) (vals : List Value) (x : type.CType)
        (s : State),
        i.exec callee (operand [toValue type x] regs 0 vals) s =
          .ok (.int 1 (BitVec.ofBool (cmp x constant)), s) := by
  cases op with
  | gt => exact createCmpFunc_emits .sgt .ugt .ogt t h
  | lt => exact createCmpFunc_emits .slt .ult .olt t h
  | ge => exact createCmpFunc_emits .sge .uge .oge t h
  | le => exact createCmpFunc_emits .sle .ule .ole t h
  | eq => exact createCmpFunc_emits .eq .eq .oeq t h
  | neq => exact createCmpFunc_emits .ne .ne .one t h

/-- What is emitted for an AND or OR of two operands is one instruction, which combines them. -/
theorem createPredicate_emits (op : PredicateOp) (l r : Operand) (hl : l.type = .int 1) :
    ∃ i, createPredicate op l r = insert i (.int 1) ∧
      ∀ (callee : Callee) (get : Operand → Except Error Value) (p q : Bool) (s : State),
        get l = .ok (.int 1 (BitVec.ofBool p)) → get r = .ok (.int 1 (BitVec.ofBool q)) →
        i.exec callee get s = .ok (.int 1 (BitVec.ofBool (op.apply p q)), s) := by
  cases op with
  | and =>
      refine ⟨.binary .and l r, ?_, fun callee get p q s hp hq => ?_⟩
      · rw [createPredicate, createBinary, hl]
      · simp [Instr.exec, hp, hq, bind_ok, BinOp.apply, PredicateOp.apply]
  | or =>
      refine ⟨.binary .or l r, ?_, fun callee get p q s hp hq => ?_⟩
      · rw [createPredicate, createBinary, hl]
      · simp [Instr.exec, hp, hq, bind_ok, BinOp.apply, PredicateOp.apply]

/-- The builder does what is computed: it fails with the same error, or goes on in code whose result
has the truth value of the predicate that is returned. -/
inductive Emits (c : Code type) :
    Except Error (Option (type.CType → Bool)) → Except Error (Option Operand × Builder) → Prop
  | error (e : Error) : Emits c (.error e) (.error e)
  | ok {c' : Code type} {r : Option Operand} {p : Option (type.CType → Bool)}
      (hle : c.IsPrefix c') (h : c'.Holds r p) : Emits c (.ok p) (.ok (r, c'.builder))

theorem Emits.bind {c : Code type} {x : Except Error (Option (type.CType → Bool))}
    {f : Option (type.CType → Bool) → Except Error (Option (type.CType → Bool))}
    {m : Emit (Option Operand)} {g : Option Operand → Emit (Option Operand)}
    (h : Emits c x (m c.builder))
    (hf : ∀ p r c', c.IsPrefix c' → c'.Holds r p → Emits c' (f p) (g r c'.builder)) :
    Emits c (x >>= f) ((m >>= g) c.builder) := by
  show Emits c (x >>= f) (m c.builder >>= fun r => g r.1 r.2)
  generalize m c.builder = y at h
  cases h with
  | error e => exact .error e
  | @ok c' r p hle h =>
      show Emits c (f p) (g r c'.builder)
      generalize hx : f p = x
      generalize hy : g r c'.builder = y
      have hnext := hf p r c' hle h
      rw [hx, hy] at hnext
      cases hnext with
      | error e => exact .error e
      | ok hle' h' => exact .ok (hle.trans hle') h'

/-- What is emitted for an AND or OR of two results. -/
theorem emits_predicate (op : PredicateOp) {c : Code type} {l r : Operand}
    {p q : type.CType → Bool} (hl : c.Computes l p) (hr : c.Computes r q) :
    Emits c (.ok (some fun x => op.apply (p x) (q x)))
      ((some <$> createPredicate op l r) c.builder) := by
  obtain ⟨i, hi, hexec⟩ := createPredicate_emits op l r (by
    obtain ⟨j, rfl, -⟩ := hl
    rfl)
  have hcode : ∀ (callee : Callee) (regs : Nat → List Value) (x : type.CType) (s : State),
      i.exec callee (operand [toValue type x] regs 0 (c.vals x)) s =
        .ok (.int 1 (BitVec.ofBool (op.apply (p x) (q x))), s) :=
    fun callee regs x s => hexec _ _ _ _ _ (hl.operand _ _ x) (hr.operand _ _ x)
  rw [hi]
  exact .ok (c.isPrefix_append hcode) (c.computes_append hcode)

/-- **What the visitor emits** computes what `irEmitVisit` returns. -/
theorem irEmitVisitor_emits {field : Field} (t : IrType) (e : BooleanExpr) (c : Code field.type)
    (r : Option Operand) (p : Option (field.type.CType → Bool)) (hr : c.Holds r p) :
    Emits c (irEmitVisit field e p) (irEmitVisitor field (.arg 0 t) e r c.builder) := by
  induction e generalizing c r p with
  | booleanConst value => exact .ok (.refl c) hr
  | predicateExpr lhs rhs op ihl ihr =>
      rw [irEmitVisit, irEmitVisitor]
      refine (ihl c r p hr).bind fun pl rl cl hlel hl => ?_
      refine (ihr cl rl pl hl).bind fun pr rr cr hler hr => ?_
      cases pl with
      | none =>
          cases rl with
          | none => exact .error .nullDeref
          | some rl => exact hl.elim
      | some pl =>
          cases rl with
          | none => exact hl.elim
          | some rl =>
              cases pr with
              | none =>
                  cases rr with
                  | none => exact .error .nullDeref
                  | some rr => exact hr.elim
              | some pr =>
                  cases rr with
                  | none => exact hr.elim
                  | some rr => exact emits_predicate op (Code.Computes.of_isPrefix hl hler) hr
  | compareExpr lhs rhs op =>
      simp only [irEmitVisit, irEmitVisitor]
      split
      · cases hconst : Pefa.constFromVariant field.type rhs with
        | error e =>
            have ho : constFromVariant field.type rhs = .error e := by
              rw [constFromVariant, hconst]
              rfl
            rw [ho]
            exact .error e
        | ok constant =>
            obtain ⟨o, cmp, i, ho, hcmp, hi, hexec⟩ := createCmp_emits op t hconst
            rw [ho, bind_ok, hcmp, bind_ok]
            show Emits c _ ((some <$> createCmp op field.type (.arg 0 t) o) c.builder)
            rw [hi]
            have hcode := fun callee regs x s => hexec callee regs (c.vals x) x s
            exact .ok (c.isPrefix_append hcode) (c.computes_append hcode)
      · exact .error .assertFailed

end Ir

end Pefa
