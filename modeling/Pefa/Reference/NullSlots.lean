import Pefa.Kernels.LiteralRange
import Pefa.Reference.RawBuffers

/-!
# What is stored under nulls

A null is a cleared bit of the validity buffer; the value buffer has some bytes in its place.
Nothing in the program looks at the validity buffer, so a filter compares those bytes, and a
materialization copies them and makes values of them. Two tables that agree but for those bytes
have the same rows; a query returns the same on both when it means the same at both fronts, and
all queries do when no null lies at the front (`no_leak_iff`).

Literals may be any `int`s here, so comparisons are read as the kernels make them, with what is
left of the literal in the column's type.
-/

namespace Pefa

/-! ## Bytes under nulls -/

namespace ArrayData

variable {α : Type}

/-- Place `p` of the buffer is that of a null. -/
def NullSlot (a : ArrayData α) (p : Nat) : Prop :=
  a.offset ≤ p ∧ p < a.offset + a.length ∧ a.isValid (p - a.offset) = false

instance (a : ArrayData α) (p : Nat) : Decidable (a.NullSlot p) :=
  inferInstanceAs (Decidable (_ ∧ _ ∧ _))

/-- The same array but for what is stored under the nulls. -/
structure SameUnlessNull (a a' : ArrayData α) : Prop where
  offset : a'.offset = a.offset
  length : a'.length = a.length
  validity : a'.validity = a.validity
  values : ∀ p, ¬ a.NullSlot p → a'.values[p]? = a.values[p]?

/-- What is stored under a null is not part of the array. -/
theorem SameUnlessNull.cells_eq {a a' : ArrayData α} (h : a.SameUnlessNull a') :
    a'.cells = a.cells := by
  refine List.ext_getElem (by rw [length_cells, length_cells, h.length]) fun i hi' hi => ?_
  have hlt : i < a.length := by simpa using hi
  have hvalid : a'.isValid i = a.isValid i := by rw [isValid, isValid, h.validity, h.offset]
  simp only [cells, List.getElem_mapIdx, hvalid]
  split
  · next hv =>
      have hslot : ¬ a.NullSlot (a.offset + i) := by
        rintro ⟨-, -, hnull⟩
        rw [Nat.add_sub_cancel_left, hv] at hnull
        cases hnull
      have hvalue := h.values _ hslot
      rw [List.getElem?_eq_getElem (by have := a'.inBounds; rw [h.offset, h.length] at this; omega),
        List.getElem?_eq_getElem (by have := a.inBounds; omega)] at hvalue
      simp only [elems, List.getElem_take, List.getElem_drop, h.offset]
      exact hvalue.symm ▸ rfl
  · rfl

/-- Without a null below the length the fronts are the same. -/
theorem SameUnlessNull.front_eq {a a' : ArrayData α} (h : a.SameUnlessNull a')
    (hnone : ∀ p < a.length, ¬ a.NullSlot p) : a'.front = a.front := by
  refine List.ext_getElem? fun p => ?_
  by_cases hp : p < a.length
  · rw [getElem?_front hp, getElem?_front (by rw [h.length]; exact hp), h.values p (hnone p hp)]
  · rw [List.getElem?_eq_none (by rw [length_front, h.length]; omega),
      List.getElem?_eq_none (by rw [length_front]; omega)]

/-- The array with other bytes under its nulls. -/
def overwriteNulls (f : α → α) (a : ArrayData α) : ArrayData α :=
  { a with
    values := a.values.mapIdx fun p x => if a.NullSlot p then f x else x
    inBounds := by rw [List.length_mapIdx]; exact a.inBounds }

theorem sameUnlessNull_overwriteNulls (f : α → α) (a : ArrayData α) :
    a.SameUnlessNull (a.overwriteNulls f) where
  offset := rfl
  length := rfl
  validity := rfl
  values p hp := by
    rw [overwriteNulls, List.getElem?_mapIdx]
    simp [hp]

/-- Where the front stays the same, there is no null in it. -/
theorem not_nullSlot_of_front {f : α → α} (hf : ∀ x, f x ≠ x) {a : ArrayData α}
    (h : (a.overwriteNulls f).front = a.front) {p : Nat} (hp : p < a.length) : ¬ a.NullSlot p := by
  intro hslot
  have hp' : p < (a.overwriteNulls f).length := hp
  have hvalue := congrArg (·[p]?) h
  simp only [getElem?_front hp, getElem?_front hp'] at hvalue
  obtain ⟨x, hx⟩ := getElem?_values hp
  rw [overwriteNulls, List.getElem?_mapIdx, hx, Option.map_some, if_pos hslot] at hvalue
  exact hf x (Option.some.inj hvalue)

end ArrayData

/-- The same column but for what is stored under the nulls. -/
def ColumnsAgree (c c' : Column) : Prop :=
  ∃ data, c' = { c with data := data } ∧
    List.Forall₂ ArrayData.SameUnlessNull c.data.chunks data.chunks

/-- The same table but for what is stored under the nulls. -/
def TablesAgree (t t' : Table) : Prop := List.Forall₂ ColumnsAgree t.columns t'.columns

/-- No null lies below the length of its chunk in the buffer. -/
def NoNullInFront (t : Table) : Prop :=
  ∀ c ∈ t.columns, ∀ a ∈ c.data.chunks, ∀ p < a.length, ¬ a.NullSlot p

theorem flatMap_eq_of_forall₂ {α β : Type} {l l' : List α} {f : α → List β}
    (h : List.Forall₂ (fun a a' => f a' = f a) l l') : l'.flatMap f = l.flatMap f := by
  induction h with
  | nil => rfl
  | cons ha _ ih => rw [List.flatMap_cons, List.flatMap_cons, ha, ih]

section Agree

variable {α : Type} {c c' : ChunkedArray α}

theorem ChunkedArray.cells_of_agree (h : List.Forall₂ ArrayData.SameUnlessNull c.chunks c'.chunks) :
    c'.cells = c.cells :=
  flatMap_eq_of_forall₂ (h.imp fun _ _ ha => ha.cells_eq)

theorem ChunkedArray.front_of_agree (h : List.Forall₂ ArrayData.SameUnlessNull c.chunks c'.chunks)
    (hnone : ∀ a ∈ c.chunks, ∀ p < a.length, ¬ a.NullSlot p) : c'.front = c.front :=
  flatMap_eq_of_forall₂ (forall₂_imp_mem h fun a _ ha hab => hab.front_eq (hnone a ha))

theorem ChunkedArray.length_of_agree
    (h : List.Forall₂ ArrayData.SameUnlessNull c.chunks c'.chunks) : c'.length = c.length := by
  rw [← length_cells c', cells_of_agree h, length_cells]

end Agree

section Tables

variable {t t' : Table}

theorem TablesAgree.numRows_eq (h : TablesAgree t t') : t'.numRows = t.numRows := by
  unfold TablesAgree at h
  rw [Table.numRows, Table.numRows]
  generalize t.columns = cols, t'.columns = cols' at h
  cases h with
  | nil => rfl
  | cons hc _ =>
      obtain ⟨data, rfl, hdata⟩ := hc
      exact ChunkedArray.length_of_agree hdata

/-- The rows are the same: cells agree in whether they are null and, if not, in their values. -/
theorem TablesAgree.logicalRows_eq (h : TablesAgree t t') : t'.logicalRows = t.logicalRows := by
  refine Table.rowsBy_of_forall₂ h.numRows_eq (h.imp ?_)
  rintro c c' ⟨data, rfl, hdata⟩
  exact Table.cellAt_with_data (ChunkedArray.cells_of_agree hdata)

theorem TablesAgree.frontRows_eq (h : TablesAgree t t') (hnone : NoNullInFront t) :
    t'.frontRows = t.frontRows := by
  refine Table.rowsBy_of_forall₂ h.numRows_eq (forall₂_imp_mem h ?_)
  rintro c c' hc ⟨data, rfl, hdata⟩
  exact Table.cellAt_with_data
    (congrArg (List.map some) (ChunkedArray.front_of_agree hdata (hnone c hc)))

theorem TablesAgree.singleChunk (h : TablesAgree t t') (hsingle : SingleChunk t) :
    SingleChunk t' where
  valid c' hc' := by
    obtain ⟨c, hc, data, rfl, hdata⟩ := forall₂_mem_right h hc'
    rw [h.numRows_eq, ← hsingle.valid c hc]
    exact ChunkedArray.length_of_agree hdata
  single c' hc' := by
    obtain ⟨c, hc, data, rfl, hdata⟩ := forall₂_mem_right h hc'
    obtain ⟨chunk, hchunk⟩ := hsingle.single c hc
    rw [hchunk] at hdata
    obtain ⟨chunk', rest, -, hrest, hchunks⟩ := List.forall₂_cons_left_iff.mp hdata
    rw [List.forall₂_nil_left_iff.mp hrest] at hchunks
    exact ⟨chunk', hchunks⟩
  integral c' hc' := by
    obtain ⟨c, hc, data, rfl, -⟩ := forall₂_mem_right h hc'
    exact hsingle.integral c hc

/-! ## Other bytes under the nulls -/

theorem ChunkedArray.lens_overwriteNulls {α : Type} (f : α → α) (c : ChunkedArray α) :
    (c.chunks.map (·.overwriteNulls f)).map (·.length) = c.chunks.map (·.length) := by
  rw [List.map_map]
  rfl

def ChunkedArray.overwriteNulls {α : Type} (f : α → α) (c : ChunkedArray α) : ChunkedArray α where
  chunks := c.chunks.map (·.overwriteNulls f)
  length_lt := by rw [lens_overwriteNulls]; exact c.length_lt

/-- Another value of the type, if it is an integer type. -/
def DataType.otherValue : (type : DataType) → type.CType → type.CType
  | .integral _ w, x => BitVec.add x 1#w.bits
  | .floating _, x => x
  | .string, x => x
  | .bool, x => x
  | .na, x => x
  | .other _ _ _, x => x

theorem DataType.otherValue_ne {type : DataType} (h : type.isIntegral = true) (x : type.CType) :
    type.otherValue x ≠ x := by
  cases type with
  | integral s w =>
      intro heq
      have hone : (1#w.bits : BitVec w.bits) = 0#w.bits := by
        have hadd : BitVec.add x 1#w.bits = BitVec.add x 0#w.bits := by
          show otherValue (.integral s w) x = BitVec.add x 0#w.bits
          rw [heq]
          exact (BitVec.add_zero x).symm
        exact add_left_cancel hadd
      cases w <;> exact absurd hone (by decide)
  | _ => cases h

namespace Table

/-- The table with other bytes under all its nulls. -/
def overwriteNulls (t : Table) : Table :=
  ⟨t.columns.map fun c => { c with data := c.data.overwriteNulls c.type.otherValue }⟩

theorem agree_overwriteNulls (t : Table) : TablesAgree t t.overwriteNulls := by
  refine List.forall₂_map_right_iff.mpr (List.forall₂_same.mpr fun c _ => ⟨_, rfl, ?_⟩)
  refine List.forall₂_map_right_iff.mpr (List.forall₂_same.mpr fun a _ => ?_)
  exact a.sameUnlessNull_overwriteNulls _

/-- The rows at the front show the bytes under the nulls there. -/
theorem noNullInFront_of_frontRows (h : SingleChunk t)
    (heq : t.frontRows = t.overwriteNulls.frontRows) : NoNullInFront t := by
  intro c hc a ha
  obtain ⟨chunk, hchunk⟩ := h.single c hc
  obtain rfl : a = chunk := by simpa [hchunk] using ha
  have hlen := h.valid c hc
  have hagree := t.agree_overwriteNulls
  have hrows : t.overwriteNulls.frontRows = t.rowsBy fun c =>
      (c.data.overwriteNulls c.type.otherValue).front.map some := by
    refine rowsBy_of_forall₂ hagree.numRows_eq (List.forall₂_map_right_iff.mpr ?_)
    exact List.forall₂_same.mpr fun c _ r => cellAt_with_data rfl r
  have hlength : (c.data.overwriteNulls c.type.otherValue).length = c.data.length :=
    congrArg List.sum (c.data.lens_overwriteNulls _)
  have hcells := cells_of_rowsBy (heq.trans hrows) hc (by simpa using hlen)
    (by simpa using hlength.trans hlen)
  have hfront : c.data.front = (c.data.overwriteNulls c.type.otherValue).front :=
    List.map_injective_iff.mpr (Option.some_injective _) hcells
  have hsingle : (a.overwriteNulls c.type.otherValue).front = a.front := by
    simpa [ChunkedArray.front, ChunkedArray.overwriteNulls, hchunk] using hfront.symm
  exact fun p hp => ArrayData.not_nullSlot_of_front
    (DataType.otherValue_ne (h.integral c hc)) hsingle hp

end Table

end Tables

/-! ## Comparisons with any `int` -/

/-- The comparison of an integer with an `int` literal as the kernel makes it. -/
def CompareOp.compareWrapped (op : CompareOp) (type : DataType) (x : type.CType)
    (l : LiteralExpr) : Bool :=
  match type, x, l with
  | .integral s w, x, .int val => op.holds (intValue s x) (wrapped s w val.toInt)
  | _, _, _ => false

def Cell.compareWrapped (c : Cell) (l : LiteralExpr) (op : CompareOp) : Bool :=
  c.value.any fun x => op.compareWrapped c.type x l

def LiteralExpr.isInt : LiteralExpr → Bool
  | .int _ => true
  | _ => false

/-- The literal is an `int`, and the one field that has the name is of an integer type. -/
def ComparesInt (fields : List Field) (lhs : ColumnRef) (l : LiteralExpr) (_ : CompareOp) : Prop :=
  ∃ f ∈ onlyNamed (·.name) fields lhs.name, f.type.isIntegral = true ∧ l.isInt = true

instance (fields : List Field) (lhs : ColumnRef) (l : LiteralExpr) (op : CompareOp) :
    Decidable (ComparesInt fields lhs l op) :=
  inferInstanceAs (Decidable (∃ f ∈ onlyNamed (·.name) fields lhs.name,
    f.type.isIntegral = true ∧ l.isInt = true))

/-- Queries on integers with any `int` literals. -/
def RowSemantics.ints : RowSemantics where
  compare := Cell.compareWrapped
  admitsProject names := !names.isEmpty
  admitsFilter fields e := decide (e.ConstFree ∧ e.AllCompare (ComparesInt fields))
  admitsFilter_and fields e e' := by
    rw [← Bool.decide_and, decide_eq_decide, BooleanExpr.constFree_and, BooleanExpr.allCompare_and]
    exact and_and_and_comm

theorem ComparesInt.compilesOn {fields : List Field} {lhs : ColumnRef} {l : LiteralExpr}
    {op : CompareOp} (h : ComparesInt fields lhs l op) :
    CompilesOn Cell.compareWrapped fields lhs l op := by
  obtain ⟨f, hf, htype, hint⟩ := h
  obtain ⟨name, type⟩ := f
  obtain ⟨lhsName⟩ := lhs
  obtain rfl : name = lhsName := onlyNamed_name hf
  cases type with
  | integral s w =>
      cases l with
      | int val =>
          exact ⟨_, hf, FilterKernel.compile_of_emit (FilterKernel.fromArrow_integral s w)
            (irEmitVisit_int name s w val op)⟩
      | _ => cases hint
  | _ => cases htype

theorem ints_compiled : RowSemantics.ints.Compiled where
  project h := by simpa [RowSemantics.ints] using h
  filter h := by
    obtain ⟨hfree, hints⟩ := of_decide_eq_true h
    exact ⟨hfree, hints.imp fun _ _ _ => ComparesInt.compilesOn⟩

theorem ints_keepsAll : RowSemantics.ints.KeepsAll := by
  intro fields name f hf hintegral
  obtain ⟨fname, type⟩ := f
  cases type with
  | integral s w =>
      refine ⟨decide_eq_true ⟨⟨trivial, trivial⟩, ⟨_, hf, rfl, rfl⟩, ⟨_, hf, rfl, rfl⟩⟩,
        fun x => ?_⟩
      show (CompareOp.holds .eq (intValue s x) (wrapped s w (0#32).toInt) ||
        CompareOp.holds .neq (intValue s x) (wrapped s w (0#32).toInt)) = true
      simp [CompareOp.holds]
  | _ => cases hintegral

/-- **When bytes under nulls do not leak**, on tables of one integer chunk each. A query returns
the same on two tables that agree but under their nulls if it has no filter, or if an `int` can
count the rows and the query means the same at both fronts. All queries do so on all such tables
exactly if no column can be named, or no null lies below the length of its chunk. -/
theorem no_leak_iff {t : Table} (h : SingleChunk t) :
    (∀ t', TablesAgree t t' → ∀ steps ≠ [], RowSemantics.ints.Admits t.fields steps →
      (SameResult t t' steps ↔ (steps.any Step.isFilter = true → t.numRows < 2 ^ 31 ∧
        t.frontRows.interpret Cell.compareWrapped steps =
          t'.frontRows.interpret Cell.compareWrapped steps))) ∧
    ((∀ t', TablesAgree t t' → ∀ steps ≠ [], RowSemantics.ints.Admits t.fields steps →
        SameResult t t' steps) ↔
      (HasNamed t → t.numRows < 2 ^ 31 ∧ NoNullInFront t)) := by
  refine ⟨fun t' hagree steps hsteps hadm => sameResult_iff ints_compiled h (hagree.singleChunk h)
    hagree.numRows_eq hagree.logicalRows_eq hsteps hadm, fun hall hnamed => ?_,
    fun hnone t' hagree => ?_⟩
  · have hagree := t.agree_overwriteNulls
    obtain ⟨hlt, hfront⟩ := (sameResult_all_iff ints_compiled ints_keepsAll h (hagree.singleChunk h)
      hagree.numRows_eq hagree.logicalRows_eq).mp (hall _ hagree) hnamed
    exact ⟨hlt, Table.noNullInFront_of_frontRows h hfront⟩
  · refine (sameResult_all_iff ints_compiled ints_keepsAll h (hagree.singleChunk h)
      hagree.numRows_eq hagree.logicalRows_eq).mpr fun hnamed => ?_
    obtain ⟨hlt, hfront⟩ := hnone hnamed
    exact ⟨hlt, (hagree.frontRows_eq hfront).symm⟩

/-- A number and a null, with `x` under the null. -/
def numberAndNull (x : BitVec 32) : Table := ⟨[⟨"a", .int32,
  ⟨[⟨[7#32, x], 0, 2, some [true, false], Nat.le_refl 2, by norm_num⟩], by simp⟩⟩]⟩

theorem singleChunk_numberAndNull (x : BitVec 32) : SingleChunk (numberAndNull x) := by
  refine ⟨fun c hc => ?_, fun c hc => ?_, fun c hc => ?_⟩ <;> obtain rfl := List.mem_singleton.mp hc
  · rfl
  · exact ⟨_, rfl⟩
  · rfl

theorem agree_numberAndNull (x y : BitVec 32) :
    TablesAgree (numberAndNull x) (numberAndNull y) := by
  refine List.Forall₂.cons ⟨_, rfl, List.Forall₂.cons ⟨rfl, rfl, rfl, fun p hp => ?_⟩ .nil⟩ .nil
  cases p with
  | zero => rfl
  | succ p =>
      cases p with
      | zero => exact absurd ⟨Nat.zero_le 1, Nat.lt_add_one 1, rfl⟩ hp
      | succ p => rfl

theorem no_leak_iff_numberAndNull :
    (∀ t', TablesAgree (numberAndNull 0) t' → ∀ steps ≠ [],
      RowSemantics.ints.Admits (numberAndNull 0).fields steps →
      (SameResult (numberAndNull 0) t' steps ↔ (steps.any Step.isFilter = true →
        (numberAndNull 0).numRows < 2 ^ 31 ∧
          (numberAndNull 0).frontRows.interpret Cell.compareWrapped steps =
            t'.frontRows.interpret Cell.compareWrapped steps))) ∧
    ((∀ t', TablesAgree (numberAndNull 0) t' → ∀ steps ≠ [],
        RowSemantics.ints.Admits (numberAndNull 0).fields steps →
        SameResult (numberAndNull 0) t' steps) ↔
      (HasNamed (numberAndNull 0) →
        (numberAndNull 0).numRows < 2 ^ 31 ∧ NoNullInFront (numberAndNull 0))) :=
  no_leak_iff (singleChunk_numberAndNull 0)

/-- With a 9 under the null, the query that looks for nines returns a row; with a 0 it does not. -/
theorem not_no_leak_numberAndNull : TablesAgree (numberAndNull 0) (numberAndNull 9) ∧
    ¬ SameResult (numberAndNull 0) (numberAndNull 9) [.filter ((col "a").eq (lit 9))] := by
  have hagree := agree_numberAndNull 0 9
  refine ⟨hagree, fun h => ?_⟩
  obtain ⟨-, hsame⟩ := (sameResult_iff ints_compiled (singleChunk_numberAndNull 0)
    (singleChunk_numberAndNull 9) hagree.numRows_eq hagree.logicalRows_eq (by decide)
    (by decide)).mp h rfl
  have hzero : ((numberAndNull 0).frontRows.interpret Cell.compareWrapped
      [.filter ((col "a").eq (lit 9))]).map (·.rows.length) = some 0 := by decide
  have hnine : ((numberAndNull 9).frontRows.interpret Cell.compareWrapped
      [.filter ((col "a").eq (lit 9))]).map (·.rows.length) = some 1 := by decide
  rw [show RowSemantics.ints.compare = Cell.compareWrapped from rfl] at hsame
  rw [hsame, hnine] at hzero
  cases hzero

end Pefa
