import Pefa.Execution.FilterExprTruth

/-!
# One kernel for a whole tree

A tree of comparisons on one column can be evaluated in two ways: by one kernel compiled from the
whole tree, or as the executor does it, by one kernel for each comparison and bytewise AND and OR
of the buffers. Both start from bitmaps with every bit set and make the same calls.

Whatever the calls are, a bit of the bitmap is either left alone by all of them, and stays set,
or is decided by one element, the same for every predicate (`callsKeep_decided`). A tree of AND
and OR is true where all its comparisons are, so on both kinds of bits the two ways agree, on the
bits behind the last row as well. What the executor needs beyond the kernels is that an `int` can
count the bytes of a buffer (`fused_agrees_iff`).
-/

namespace Pefa

open Blocks

/-! ## The kernel of a tree -/

/-- A comparison of the column with a literal that fits it. -/
def OnField (field : Field) (lhs : ColumnRef) (l : LiteralExpr) (_ : CompareOp) : Prop :=
  lhs.name = field.name ∧ l.Fits field.type

instance (field : Field) (lhs : ColumnRef) (l : LiteralExpr) (op : CompareOp) :
    Decidable (OnField field lhs l op) :=
  inferInstanceAs (Decidable (_ ∧ _))

/-- What a tree of comparisons of one column says of an element. -/
def treePredicate (type : DataType) (e : BooleanExpr) (x : type.CType) : Bool :=
  e.truth fun _ l op => op.compare type x l

theorem irEmitVisit_compare {field : Field} {lhs : ColumnRef} {l : LiteralExpr} (op : CompareOp)
    (h : OnField field lhs l op) (result : Option (field.type.CType → Bool)) :
    irEmitVisit field (.compareExpr lhs l op) result =
      .ok (some fun x => op.compare field.type x l) :=
  FilterKernel.irEmitVisit_compareExpr h.1 (compileCompare_fits h.2 op) result

/-- **The code emitted for a tree says what the tree says.** -/
theorem irEmitVisit_tree {field : Field} : ∀ {e : BooleanExpr}, e.ConstFree →
    e.AllCompare (OnField field) → ∀ result : Option (field.type.CType → Bool),
    irEmitVisit field e result = .ok (some (treePredicate field.type e))
  | .booleanConst _, hfree, _, _ => hfree.elim
  | .predicateExpr lhs rhs op, hfree, hleaves, result => by
      simp only [irEmitVisit, irEmitVisit_tree hfree.1 hleaves.1, bind_ok,
        irEmitVisit_tree hfree.2 hleaves.2]
      rfl
  | .compareExpr _ _ op, _, hleaves, result => irEmitVisit_compare op hleaves result

/-- The kernel of a tree on a field. -/
def treeKernel (field : Field) (e : BooleanExpr) : FilterKernel field :=
  ⟨e, some (treePredicate field.type e)⟩

theorem compile_tree {field : Field} {e : BooleanExpr} (hfree : e.ConstFree)
    (hleaves : e.AllCompare (OnField field)) :
    (FilterKernel.createCpu field e).compile = .ok (treeKernel field e) := by
  obtain ⟨_, l, _, -, hfits⟩ := exists_leaf hleaves hfree.startsWithConst_eq
  exact FilterKernel.compile_of_emit (FilterKernel.fromArrow_of_fits hfits)
    (irEmitVisit_tree hfree hleaves none)

/-! ## What decides a bit -/

section Calls

variable {field : Field} {size : Nat} {column : ChunkedArray field.type.CType}

variable (field size column) in
/-- The bits that all the calls together keep. -/
def callsKeep (predicate : field.type.CType → Bool) (r : Nat) : Bool :=
  (kernelCalls column.lens).all fun call => callKeep predicate size column call r

/-- The calls on a bitmap with every bit set. -/
theorem runCalls_ones (kernel : FilterKernel field) {predicate : field.type.CType → Bool}
    (hp : kernel.predicate = some predicate) (hsize : ElemSize field.type size)
    (hcov : CoversHead column.lens) {rows : Nat} (hrows : rows = column.length) :
    runCalls kernel column (kernelCalls column.lens) (allocateFullBitmap rows) =
      .ok ((allocateFullBitmap rows).mask (callsKeep field size column predicate)) := by
  have hbytes : column.length ≤ 8 * (allocateFullBitmap rows).length := by
    rw [allocateFullBitmap, Bitmap.length_ones, hrows]
    exact bytesForBits_le.mp (Nat.le_refl _)
  rw [runCalls_eq_foldl hp hsize hcov (fun _ h => h) hbytes, Bitmap.foldl_mask]
  simp only [List.all_map]
  rfl

/-- The test of a row either passes for every predicate or is that of one element. -/
theorem rowTest_decided {α : Type} {values : List α} {s len j : Nat} (hj : j < len)
    (hlen : len ≤ values.length) :
    (∀ p : α → Bool, rowTest p values size s len j = true) ∨
      ∃ x, ∀ p : α → Bool, rowTest p values size s len j = p x := by
  have hbase : tailBase size s len ≤ len - (s + len) % 8 := elemIndex_le _ _
  unfold rowTest
  by_cases hhead : j < headRows s
  · -- a row of the shared head that is not looked at passes for every predicate
    simp only [if_pos hhead]
    by_cases hskip : headCount s len ≤ j
    · exact Or.inl fun p => by rw [decide_eq_true hskip, Bool.true_or]
    · obtain ⟨x, hx⟩ : ∃ x, values[j]? = some x :=
        ⟨_, List.getElem?_eq_getElem (by omega)⟩
      exact Or.inr ⟨x, fun p => by
        rw [decide_eq_false hskip, Bool.false_or, test_of_getElem? p hx]⟩
  · simp only [if_neg hhead]
    by_cases hwhole : j < len - (s + len) % 8
    · obtain ⟨x, hx⟩ : ∃ x, values[j]? = some x :=
        ⟨_, List.getElem?_eq_getElem (by omega)⟩
      exact Or.inr ⟨x, fun p => by rw [if_pos hwhole, test_of_getElem? p hx]⟩
    · obtain ⟨x, hx⟩ : ∃ x, values[tailBase size s len + (j - (len - (s + len) % 8))]? = some x :=
        ⟨_, List.getElem?_eq_getElem (by omega)⟩
      exact Or.inr ⟨x, fun p => by rw [if_neg hwhole, test_of_getElem? p hx]⟩

/-- No call touches a bit behind the last row. -/
theorem callsKeep_behind (hcov : CoversHead column.lens) {r : Nat} (hr : column.length ≤ r)
    (predicate : field.type.CType → Bool) : callsKeep field size column predicate r = true := by
  refine List.all_eq_true.mpr fun call hcall => ?_
  obtain ⟨i, len, hi, hcase⟩ := mem_kernelCalls.mp hcall
  have hend : start column.lens i + len ≤ column.length := start_add_le_sum hi
  obtain ⟨chunk, hchunk, rfl⟩ := ChunkedArray.getElem?_lens hi
  exact callKeep_of_other hchunk (hcov i _ hi) (by omega) hcase

variable (size) in
/-- **A bit is kept by every predicate, or it is decided by one element.** -/
theorem callsKeep_decided (hcov : CoversHead column.lens) (r : Nat) :
    (∀ p, callsKeep field size column p r = true) ∨
      ∃ x, ∀ p, callsKeep field size column p r = p x := by
  rcases Nat.lt_or_ge r column.length with hr | hr
  · obtain ⟨i, chunk, j, hi, hj, rfl⟩ := ChunkedArray.exists_chunk hr
    have hkeep : ∀ p, callsKeep field size column p (start column.lens i + j) =
        rowTest p chunk.values size (start column.lens i) chunk.length j :=
      fun p => all_callKeep hcov hi hj
    have hbounds := chunk.inBounds
    simp only [hkeep]
    exact rowTest_decided hj (by omega)
  · exact Or.inl fun p => callsKeep_behind hcov hr p

end Calls

/-- A tree of AND and OR is true where all its comparisons are. -/
theorem BooleanExpr.ConstFree.truth_of_all {atom : ColumnRef → LiteralExpr → CompareOp → Bool} :
    ∀ {e : BooleanExpr}, e.ConstFree → (∀ lhs l op, atom lhs l op = true) → e.truth atom = true
  | .booleanConst _, hfree, _ => hfree.elim
  | .predicateExpr lhs rhs op, hfree, hatom => by
      show op.apply _ _ = true
      rw [truth_of_all hfree.1 hatom, truth_of_all hfree.2 hatom]
      cases op <;> rfl
  | .compareExpr lhs l op, _, hatom => hatom lhs l op

/-- The bit of a tree is the tree of the bits of its comparisons. -/
theorem truth_callsKeep (field : Field) {size : Nat} {column : ChunkedArray field.type.CType}
    (hcov : CoversHead column.lens) {e : BooleanExpr} (hfree : e.ConstFree) (r : Nat) :
    (e.truth fun _ l op => callsKeep field size column (fun x => op.compare field.type x l) r) =
      callsKeep field size column (treePredicate field.type e) r := by
  rcases callsKeep_decided size hcov r with hkept | ⟨x, hx⟩
  · rw [hkept, hfree.truth_of_all fun _ l op => hkept _]
  · simp only [hx]
    rfl

/-! ## Both ways -/

/-- One kernel for the tree leaves the buffer that the executor leaves for it. -/
def FusedAgrees (table : Table) (c : Column) (e : BooleanExpr) : Prop :=
  ∃ kernel buffer s, (FilterKernel.createCpu c.field e).compile = .ok kernel ∧
    runCalls kernel c.data (kernelCalls c.data.lens) (allocateFullBitmap table.numRows) =
      .ok buffer ∧
    FilterExprExecutor.visit table e ⟨[], none⟩ = .ok s ∧ s.result = some buffer

section Executor

variable {table : Table} {c : Column} {e : BooleanExpr}

/-- The bits of a comparison's buffer. -/
def leafBits (c : Column) (r : Nat) (_ : ColumnRef) (l : LiteralExpr) (op : CompareOp) : Bool :=
  callsKeep c.field c.type.byteWidth c.data (fun x => op.compare c.type x l) r

/-- A comparison computes all bits of its buffer, those behind the last row too. -/
theorem compareComputes_bits (hcol : table.getColumnByName c.name = some c)
    (hrows : table.numRows = c.data.length) (hcov : CoversHead c.data.lens) {lhs : ColumnRef}
    {l : LiteralExpr} {op : CompareOp} (hleaf : OnField c.field lhs l op) :
    CompareComputes table (leafBits c) (8 * bytesForBits table.numRows)
      (bytesForBits table.numRows) lhs l op := by
  have hcompile := FilterKernel.compile_compare op hleaf.1 hleaf.2
  let kernel : FilterKernel c.field := ⟨.compareExpr lhs l op, some fun x => op.compare c.type x l⟩
  have hrun := runCalls_ones kernel rfl (elemSize_of_fits hleaf.2) hcov hrows
  refine ⟨(allocateFullBitmap table.numRows).mask
    (callsKeep c.field c.type.byteWidth c.data fun x => op.compare c.type x l),
    ?_, ?_, fun r hr => ?_⟩
  · have hname : table.getColumnByName lhs.name = some c := by rw [hleaf.1, hcol]
    simp only [compareBuffer, hname, hcompile, bind_ok]
    exact hrun
  · rw [Bitmap.length_mask, allocateFullBitmap, Bitmap.length_ones]
  · rw [allocateFullBitmap, Bitmap.bit_mask (by rwa [Bitmap.length_ones]), Bitmap.bit_ones hr,
      Bool.true_and]
    rfl

theorem allCompare_bits (hcol : table.getColumnByName c.name = some c)
    (hrows : table.numRows = c.data.length) (hcov : CoversHead c.data.lens)
    (hleaves : e.AllCompare (OnField c.field)) :
    e.AllCompare (CompareComputes table (leafBits c) (8 * bytesForBits table.numRows)
      (bytesForBits table.numRows)) :=
  hleaves.imp fun _ _ _ hleaf => compareComputes_bits hcol hrows hcov hleaf

/-- The executor finishes only if an `int` can count the bytes of the buffers it combines. -/
theorem FusedAgrees.bytes_lt (h : FusedAgrees table c e)
    (hcol : table.getColumnByName c.name = some c) (hrows : table.numRows = c.data.length)
    (hcov : CoversHead c.data.lens) (hleaves : e.AllCompare (OnField c.field))
    (hpred : e.IsPredicate) : bytesForBits table.numRows < 2 ^ 31 := by
  obtain ⟨kernel, buffer, s, -, -, hvisit, -⟩ := h
  exact visit_predicate_bytes (allCompare_bits hcol hrows hcov hleaves) hpred
    (fun _ ha => by cases ha) hvisit

end Executor

/-- **Fused and unfused evaluation leave the same buffer**, byte for byte, if and only if the tree
is a single comparison or an `int` can count the bytes of the buffer. -/
theorem fused_agrees_iff {table : Table} {c : Column} {e : BooleanExpr}
    (hcol : table.getColumnByName c.name = some c) (hrows : table.numRows = c.data.length)
    (hcov : CoversHead c.data.lens) (hfree : e.ConstFree)
    (hleaves : e.AllCompare (OnField c.field)) :
    FusedAgrees table c e ↔ (e.IsPredicate → bytesForBits table.numRows < 2 ^ 31) := by
  constructor
  · exact fun h hpred => h.bytes_lt hcol hrows hcov hleaves hpred
  · intro hbytes
    obtain ⟨_, l, _, -, hfits⟩ := exists_leaf hleaves hfree.startsWithConst_eq
    have hrun := runCalls_ones (treeKernel c.field e) rfl
      (elemSize_of_fits hfits) hcov hrows
    obtain ⟨s, a, hvisit, hvisited⟩ := visit_ok (s := ⟨[], none⟩) (Nat.le_refl _)
      (allCompare_bits hcol hrows hcov hleaves) hbytes (fun _ ht => by cases ht)
      (hfree.asRead_eq none)
    obtain ⟨b, hb, hlen, hbits⟩ := hvisited.result
    refine ⟨treeKernel c.field e, _, s, compile_tree hfree hleaves, hrun, hvisit, ?_⟩
    rw [hb]
    have hones : (allocateFullBitmap table.numRows).length = bytesForBits table.numRows :=
      Bitmap.length_ones _
    congr 1
    apply Bitmap.ext (by rw [hlen, Bitmap.length_mask, hones])
    intro r hr
    rw [hlen] at hr
    rw [hbits r hr, Bitmap.bit_mask (by rwa [hones]), allocateFullBitmap, Bitmap.bit_ones hr,
      Bool.true_and]
    exact truth_callsKeep c.field hcov hfree r

/-- A column of `2 ^ 34` zeros in one chunk. -/
def tooManyBytes : Column where
  name := "a"
  type := .int8
  data :=
    { chunks := [.replicate (2 ^ 34) 0#8 (by norm_num)]
      length_lt := by
        rw [List.map_singleton, List.sum_singleton]
        norm_num [ArrayData.replicate] }

theorem length_tooManyBytes : tooManyBytes.data.length = 2 ^ 34 := by
  rw [ChunkedArray.length, ChunkedArray.lens, tooManyBytes, List.map_singleton, List.sum_singleton]
  rfl

/-- The kernel of the tree goes through all rows, and the executor cannot combine its buffers. -/
theorem fused_not_agrees_tooManyBytes :
    ¬ FusedAgrees ⟨[tooManyBytes]⟩ tooManyBytes
      (((col "a").gt (lit 0)).and ((col "a").lt (lit 5))) := by
  intro h
  have hrows : Table.numRows ⟨[tooManyBytes]⟩ = 2 ^ 34 := length_tooManyBytes
  have hlt := h.bytes_lt rfl rfl (coversHead_singleton _) ⟨⟨rfl, by decide⟩, rfl, by decide⟩
    trivial
  rw [hrows] at hlt
  exact absurd hlt (by decide)

theorem fused_agrees_iff_tooManyBytes :
    FusedAgrees ⟨[tooManyBytes]⟩ tooManyBytes
        (((col "a").gt (lit 0)).and ((col "a").lt (lit 5))) ↔
      ((((col "a").gt (lit 0)).and ((col "a").lt (lit 5))).IsPredicate →
        bytesForBits (Table.numRows ⟨[tooManyBytes]⟩) < 2 ^ 31) :=
  fused_agrees_iff rfl rfl (coversHead_singleton _) ⟨trivial, trivial⟩
    ⟨⟨rfl, by decide⟩, rfl, by decide⟩

end Pefa
