import Pefa.Lib.Arena
import Pefa.QueryCompiler.QueryCompiler

/-!
# Plans on a heap

The nodes of plans as mutable cells: a `std::shared_ptr<LogicalPlan>` is null or an address, plans
share the nodes they have in common, and `JoinFilterPass` assigns to a node that is already there.

A pass only ever assigns to nodes it has made itself. With the nodes of the heap divided into
regions, one for each pass and others for everything else, this is what a visit does (`Built`): it
adds nodes to the region of the pass, it leaves all other regions alone, and it leaves `m_result`
pointing to the plan that the visitor of plan values computes (`visit_built`). So executing a query
changes no node that was there before (`execute_frame`).
-/

namespace Pefa

open Arena

/-! ## Nodes -/

/-- A `LogicalPlan` object. -/
inductive PlanNode where
  | projectionNode (input : Option Nat) (fields : List String)
  | filterNode (input : Option Nat) (expr : BooleanExpr)
  | materializeFilterNode (input : Option Nat)
  deriving DecidableEq

def PlanNode.input : PlanNode → Option Nat
  | .projectionNode input _ => input
  | .filterNode input _ => input
  | .materializeFilterNode input => input

abbrev PlanHeap := Arena PlanNode PlanNode.input

/-- The plan that a chain of nodes is. -/
def toPlan : List PlanNode → LogicalPlan
  | [] => .nullptr
  | .projectionNode _ fields :: nodes => .projectionNode (toPlan nodes) fields
  | .filterNode _ expr :: nodes => .filterNode (toPlan nodes) expr
  | .materializeFilterNode _ :: nodes => .materializeFilterNode (toPlan nodes)

/-- The plan that a pointer stands for. -/
def planAt (heap : PlanHeap) (p : Option Nat) : LogicalPlan := toPlan (heap.chain p)

@[simp] theorem planAt_none (heap : PlanHeap) : planAt heap none = .nullptr := by
  rw [planAt, chain_none, toPlan]

theorem planAt_some {heap : PlanHeap} {a : Nat} {node : PlanNode}
    (h : heap.cells[a]? = some node) :
    planAt heap (some a) = toPlan (node :: heap.chain node.input) := by
  rw [planAt, chain_some h]

theorem planAt_some_ne {heap : PlanHeap} {a : Nat} (h : a < heap.size) :
    planAt heap (some a) ≠ .nullptr := by
  obtain ⟨node, hnode⟩ := exists_cell h
  rw [planAt_some hnode]
  cases node <;> simp [toPlan]

/-! ## Building queries -/

/-- `std::make_shared` of a node. -/
def makeNode (heap : PlanHeap) (node : PlanNode) : Except Error (PlanHeap × Option Nat) :=
  match heap.alloc? node with
  | some heap' => .ok (heap', some heap.size)
  | none => .error .outOfBounds

/-- `QueryCompiler::project` -/
def projectOn (heap : PlanHeap) (plan : Option Nat) (columns : List String) :
    Except Error (PlanHeap × Option Nat) :=
  makeNode heap (.projectionNode plan columns)

/-- `QueryCompiler::filter` -/
def filterOn (heap : PlanHeap) (plan : Option Nat) (expr : BooleanExpr) :
    Except Error (PlanHeap × Option Nat) := do
  let (heap, filter) ← makeNode heap (.filterNode plan expr)
  makeNode heap (.materializeFilterNode filter)

/-- A call on the query that `plan` belongs to. -/
def stepOn (heap : PlanHeap) (plan : Option Nat) : Step → Except Error (PlanHeap × Option Nat)
  | .project columns => projectOn heap plan columns
  | .filter expr => filterOn heap plan expr

theorem makeNode_ok {heap : PlanHeap} (node : PlanNode) (h : heap.Valid node.input) :
    ∃ heap', makeNode heap node = .ok (heap', some heap.size) ∧
      heap'.cells = heap.cells ++ [node] ∧ heap'.Valid (some heap.size) ∧
      planAt heap' (some heap.size) = toPlan (node :: heap.chain node.input) := by
  obtain ⟨heap', halloc, hcells⟩ := alloc?_eq_some h
  have hget : heap'.cells[heap.size]? = some node := by
    rw [hcells]
    exact List.getElem?_concat_length
  have hchain : heap'.chain node.input = heap.chain node.input :=
    chain_of_extends (fun a ha => by rw [hcells, List.getElem?_append_left ha]) h
  refine ⟨heap', ?_, hcells, fun a ha => ?_, by rw [planAt_some hget, hchain]⟩
  · simp only [makeNode, halloc]
  · obtain rfl : heap.size = a := by simpa using ha
    exact lt_size hget

/-- The builder makes the plans of `LogicalPlan.step` and shares what was there. -/
theorem stepOn_ok {heap : PlanHeap} {plan : Option Nat} (h : heap.Valid plan) (s : Step) :
    ∃ heap' plan', stepOn heap plan s = .ok (heap', plan') ∧
      (∀ a < heap.size, heap'.cells[a]? = heap.cells[a]?) ∧ heap'.Valid plan' ∧
      planAt heap' plan' = (planAt heap plan).step s := by
  cases s with
  | project columns =>
      obtain ⟨heap', hmake, hcells, hvalid, hplan⟩ :=
        makeNode_ok (.projectionNode plan columns) h
      exact ⟨heap', _, hmake, fun a ha => by rw [hcells, List.getElem?_append_left ha], hvalid,
        hplan⟩
  | filter expr =>
      obtain ⟨heap₁, hmake₁, hcells₁, hvalid₁, hplan₁⟩ :=
        makeNode_ok (.filterNode plan expr) h
      obtain ⟨heap₂, hmake₂, hcells₂, hvalid₂, hplan₂⟩ :=
        makeNode_ok (.materializeFilterNode (some heap.size)) hvalid₁
      refine ⟨heap₂, some heap₁.size, ?_, fun a ha => ?_, hvalid₂, ?_⟩
      · simp only [stepOn, filterOn, hmake₁, bind_ok, hmake₂]
      · have ha₁ : a < heap₁.cells.length := by
          rw [hcells₁, List.length_append]
          exact Nat.lt_add_right _ ha
        rw [hcells₂, List.getElem?_append_left ha₁, hcells₁, List.getElem?_append_left ha]
      · rw [hplan₂]
        exact congrArg LogicalPlan.materializeFilterNode hplan₁

/-! ## Passes -/

inductive PassKind where
  | optimizerPass
  | joinFilterPass
  deriving DecidableEq, Repr

/-- The heap and `m_result`. -/
structure PassState where
  heap : PlanHeap
  mResult : Option Nat

namespace PassState

/-- `m_result = std::make_shared<…>(…)` -/
def make (heap : PlanHeap) (node : PlanNode) : Except Error PassState := do
  let (heap, mResult) ← makeNode heap node
  .ok ⟨heap, mResult⟩

/-- `JoinFilterPass::on_visit(const FilterNode &)` -/
def joinFilterOnVisit (expr : BooleanExpr) (heap : PlanHeap) (mResult : Option Nat) :
    Except Error PassState :=
  match mResult with
  | none => make heap (.filterNode none expr)
  | some a =>
      match h : heap.cells[a]? with
      | some (.filterNode input prev) =>
          -- `prev->expr = prev->expr->AND(node.expr)`
          .ok ⟨heap.set a (.filterNode input (prev.and expr)) fun old hold => by
            rw [h] at hold
            cases hold
            rfl, some a⟩
      | some (.materializeFilterNode input) =>
          -- remove unnecessary materialization and revisit
          joinFilterOnVisit expr heap input
      | some (.projectionNode _ _) => make heap (.filterNode (some a) expr)
      | none => .error .outOfBounds
termination_by rank mResult
decreasing_by exact rank_link_lt h

section

variable {expr prev : BooleanExpr} {heap : PlanHeap} {a : Nat} {input : Option Nat}

theorem joinFilterOnVisit_filterNode (hc : heap.cells[a]? = some (.filterNode input prev))
    (hlink : ∀ old, heap.cells[a]? = some old →
      (PlanNode.filterNode input (prev.and expr)).input = old.input) :
    joinFilterOnVisit expr heap (some a) =
      .ok ⟨heap.set a (.filterNode input (prev.and expr)) hlink, some a⟩ := by
  rw [joinFilterOnVisit]
  split
  · next hc' =>
      rw [hc] at hc'
      cases hc'
      rfl
  all_goals simp_all

theorem joinFilterOnVisit_materializeFilterNode
    (hc : heap.cells[a]? = some (.materializeFilterNode input)) :
    joinFilterOnVisit expr heap (some a) = joinFilterOnVisit expr heap input := by
  rw [joinFilterOnVisit]
  split <;> simp_all

theorem joinFilterOnVisit_projectionNode {fields : List String}
    (hc : heap.cells[a]? = some (.projectionNode input fields)) :
    joinFilterOnVisit expr heap (some a) = make heap (.filterNode (some a) expr) := by
  rw [joinFilterOnVisit]
  split <;> simp_all

end

/-- `on_visit` of a pass. -/
def onVisit (kind : PassKind) (node : PlanNode) (s : PassState) : Except Error PassState :=
  match kind, node with
  | _, .projectionNode _ fields => make s.heap (.projectionNode s.mResult fields)
  | .optimizerPass, .filterNode _ expr => make s.heap (.filterNode s.mResult expr)
  | .joinFilterPass, .filterNode _ expr => joinFilterOnVisit expr s.heap s.mResult
  | _, .materializeFilterNode _ => make s.heap (.materializeFilterNode s.mResult)

/-- `PlanVisitor::visit` for a pass: the node is read again after its input was visited. -/
def visit (kind : PassKind) (p : Option Nat) (s : PassState) : Except Error PassState :=
  match p with
  | none => .ok s
  | some a =>
      match _ : s.heap.cells[a]? with
      | none => .error .outOfBounds
      | some node =>
          visit kind node.input s >>= fun s =>
          match s.heap.cells[a]? with
          | none => .error .outOfBounds
          | some node => s.onVisit kind node
termination_by rank p
decreasing_by exact rank_link_lt (by assumption)

end PassState

/-- An `OptimizerPass` object. -/
structure Pass where
  kind : PassKind
  mResult : Option Nat

/-- A new pass. -/
def Pass.create (kind : PassKind) : Pass := ⟨kind, none⟩

/-- `OptimizerPass::execute`: the visit goes on from the `m_result` there is. -/
def Pass.execute (pass : Pass) (heap : PlanHeap) (input : Option Nat) : Except Error PassState :=
  match input with
  | none => .error .nullDeref
  | some a => PassState.visit pass.kind (some a) ⟨heap, pass.mResult⟩

/-- `PlanOptimizer::run`: the passes after the run, and the result. -/
def runPasses : List Pass → PlanHeap → Option Nat → Except Error (List Pass × PlanHeap × Option Nat)
  | [], heap, res => .ok ([], heap, res)
  | pass :: passes, heap, res => do
      let s ← pass.execute heap res
      let (passes, heap, res) ← runPasses passes s.heap s.mResult
      .ok (⟨pass.kind, s.mResult⟩ :: passes, heap, res)

/-- `QueryCompiler::execute`: the table or the failure, and the heap afterwards. -/
def executeOn (heap : PlanHeap) (plan : Option Nat) (table : Table) :
    Except Error Table × PlanHeap :=
  match runPasses [.create .joinFilterPass] heap plan with
  | .error e => (.error e, heap)
  | .ok (_, heap, plan) =>
      (do
        let ctx ← ExecutionContext.create table
        let ctx ← (executePlanVisitor executionOps).start (planAt heap plan) ctx
        .ok ctx.table, heap)

/-! ## What a visit builds -/

/-- The pass as a visitor of plan values. -/
def PassKind.visitor : PassKind → PlanVisitor LogicalPlan
  | .optimizerPass => Pefa.optimizerPass
  | .joinFilterPass => Pefa.joinFilterPass

/-- What a visitor does on a node. -/
def PlanVisitor.onVisitNode {σ : Type} (v : PlanVisitor σ) (node : PlanNode) (s : σ) :
    Except Error σ :=
  match node with
  | .projectionNode _ fields => v.onVisitProjection fields s
  | .filterNode _ expr => v.onVisitFilter expr s
  | .materializeFilterNode _ => v.onVisitMaterialize s

theorem PlanVisitor.visit_planAt {σ : Type} (v : PlanVisitor σ) {heap : PlanHeap} {a : Nat}
    {node : PlanNode} (h : heap.cells[a]? = some node) (s : σ) :
    v.visit (planAt heap (some a)) s =
      v.visit (planAt heap node.input) s >>= v.onVisitNode node := by
  rw [planAt_some h]
  cases node <;> rfl

/-- A pass whose nodes are those of region `k` has gone on from `heap` to `s`: it has added nodes,
it has changed nodes of its own region at most, and `m_result` points to `plan`. -/
structure Built (region : Nat → Nat) (k : Nat) (heap : PlanHeap) (s : PassState)
    (plan : LogicalPlan) : Prop where
  size_le : heap.size ≤ s.heap.size
  regions : Regions (extend region heap.size k) s.heap
  within : Within (extend region heap.size k) s.heap k s.mResult
  frame : ∀ a < heap.size, region a ≠ k → s.heap.cells[a]? = heap.cells[a]?
  plan_eq : planAt s.heap s.mResult = plan

section Built

variable {region : Nat → Nat} {k : Nat} {heap : PlanHeap}

theorem Built.refl (hr : Regions region heap) {p : Option Nat} (hp : Within region heap k p) :
    Built region k heap ⟨heap, p⟩ (planAt heap p) where
  size_le := Nat.le_refl _
  regions := hr.extend k
  within := hp.extend k
  frame _ _ _ := rfl
  plan_eq := rfl

theorem extend_extend {size size' : Nat} (h : size ≤ size') :
    extend (extend region size k) size' k = extend region size k := by
  funext a
  unfold extend
  split
  · rfl
  · rw [if_neg (by omega)]

theorem Built.trans {s s' : PassState} {plan plan' : LogicalPlan} (h : Built region k heap s plan)
    (h' : Built (extend region heap.size k) k s.heap s' plan') : Built region k heap s' plan' where
  size_le := le_trans h.size_le h'.size_le
  regions := by
    have hr := h'.regions
    rwa [extend_extend h.size_le] at hr
  within := by
    have hw := h'.within
    rwa [extend_extend h.size_le] at hw
  frame a ha hne := by
    rw [h'.frame a (lt_of_lt_of_le ha h.size_le) (by rwa [extend_of_lt ha]), h.frame a ha hne]
  plan_eq := h'.plan_eq

/-- A new node on top of `m_result`. -/
theorem make_built (hr : Regions region heap) {p : Option Nat} (hp : Within region heap k p)
    (node : PlanNode) (hnode : node.input = p) :
    ∃ s, PassState.make heap node = .ok s ∧
      Built region k heap s (toPlan (node :: heap.chain p)) := by
  subst hnode
  obtain ⟨heap', hmake, hcells, hvalid, hplan⟩ := makeNode_ok node hp.valid
  have hsize : heap'.size = heap.size + 1 := by simp [Arena.size, hcells]
  have hold : ∀ a < heap.size, heap'.cells[a]? = heap.cells[a]? := fun a ha => by
    rw [hcells, List.getElem?_append_left ha]
  have hregions : Regions (extend region heap.size k) heap' := by
    intro a c i hc hi
    rcases Nat.lt_or_ge a heap.size with ha | ha
    · rw [hold a ha] at hc
      exact hr.extend k a c i hc hi
    · -- the new node and what it is on top of are both of the region
      obtain rfl : a = heap.size := by
        have := lt_size hc
        omega
      rw [hcells, show heap.size = heap.cells.length from rfl, List.getElem?_concat_length] at hc
      cases hc
      rw [extend_of_le (Nat.le_refl _), extend_of_lt (hp i hi).1, (hp i hi).2]
  have hwithin : Within (extend region heap.size k) heap' k (some heap.size) := by
    intro a ha
    obtain rfl : heap.size = a := by simpa using ha
    exact ⟨by omega, extend_of_le (Nat.le_refl _)⟩
  refine ⟨⟨heap', some heap.size⟩, ?_, ⟨hsize ▸ Nat.le_succ _, hregions, hwithin,
    fun a ha _ => hold a ha, hplan⟩⟩
  simp only [PassState.make, hmake, bind_ok]

/-- A filter of the pass's own whose expression was changed. -/
theorem set_built (hr : Regions region heap) {a : Nat} {input : Option Nat}
    {prev expr : BooleanExpr} (hc : heap.cells[a]? = some (.filterNode input prev))
    (hlink : ∀ old, heap.cells[a]? = some old →
      (PlanNode.filterNode input (prev.and expr)).input = old.input)
    (ha : a < heap.size) (hk : region a = k) :
    Built region k heap ⟨heap.set a (.filterNode input (prev.and expr)) hlink, some a⟩
      (joinFilterOnVisit expr (planAt heap (some a))) := by
  have hsize : (heap.set a _ hlink).size = heap.size := List.length_set
  refine ⟨le_of_eq hsize.symm, (hr.extend k).set hlink, ?_, ?_, ?_⟩
  · intro b hb
    obtain rfl : a = b := by simpa using hb
    exact ⟨by rw [hsize]; exact ha, by rw [extend_of_lt ha, hk]⟩
  · -- the cells of other regions
    intro b _ hb
    apply List.getElem?_set_ne
    intro hab
    rw [← hab] at hb
    exact hb hk
  · rw [planAt_some hc]
    show toPlan _ = _
    rw [chain_set hlink hc]
    rfl

/-- **Joining a filter** changes a filter of the pass's own, or adds one. -/
theorem joinFilterOnVisit_built (hr : Regions region heap) (expr : BooleanExpr) (p : Option Nat) :
    Within region heap k p → ∃ s, PassState.joinFilterOnVisit expr heap p = .ok s ∧
      Built region k heap s (joinFilterOnVisit expr (planAt heap p)) := by
  induction p using heap.pointer_induction with
  | null =>
      intro hp
      obtain ⟨s, hs, hbuilt⟩ := make_built hr hp (.filterNode none expr) rfl
      rw [chain_none] at hbuilt
      rw [planAt_none]
      exact ⟨s, by rw [PassState.joinFilterOnVisit, hs], hbuilt⟩
  | dangling a hc =>
      intro hp
      obtain ⟨c, hcell⟩ := exists_cell (hp a rfl).1
      rw [hc] at hcell
      cases hcell
  | cell a node hc ih =>
      intro hp
      obtain ⟨ha, hk⟩ := hp a rfl
      cases node with
      | projectionNode input fields =>
          obtain ⟨s, hs, hbuilt⟩ := make_built hr hp (.filterNode (some a) expr) rfl
          rw [chain_some hc] at hbuilt
          rw [planAt_some hc]
          exact ⟨s, by rw [PassState.joinFilterOnVisit_projectionNode hc, hs], hbuilt⟩
      | materializeFilterNode input =>
          obtain ⟨s, hs, hbuilt⟩ := ih (hr.within_link hc hk)
          rw [planAt_some hc]
          exact ⟨s, (PassState.joinFilterOnVisit_materializeFilterNode hc).trans hs, hbuilt⟩
      | filterNode input prev =>
          have hlink : ∀ old, heap.cells[a]? = some old →
              (PlanNode.filterNode input (prev.and expr)).input = old.input := by
            intro old hold
            rw [hc] at hold
            cases hold
            rfl
          exact ⟨_, PassState.joinFilterOnVisit_filterNode hc hlink, set_built hr hc hlink ha hk⟩

/-- **One node** of the plan that is visited. -/
theorem onVisit_built (kind : PassKind) (node : PlanNode) (hr : Regions region heap)
    {p : Option Nat} (hp : Within region heap k p) :
    ∃ s plan, PassState.onVisit kind node ⟨heap, p⟩ = .ok s ∧ Built region k heap s plan ∧
      kind.visitor.onVisitNode node (planAt heap p) = .ok plan := by
  have hmake : ∀ node' : PlanNode, node'.input = p → ∃ s, PassState.make heap node' = .ok s ∧
      Built region k heap s (toPlan (node' :: heap.chain p)) := fun _ h => make_built hr hp _ h
  cases node with
  | projectionNode input fields =>
      obtain ⟨s, hs, hbuilt⟩ := hmake (.projectionNode p fields) rfl
      exact ⟨s, _, by cases kind <;> exact hs, hbuilt, by cases kind <;> rfl⟩
  | materializeFilterNode input =>
      obtain ⟨s, hs, hbuilt⟩ := hmake (.materializeFilterNode p) rfl
      exact ⟨s, _, by cases kind <;> exact hs, hbuilt, by cases kind <;> rfl⟩
  | filterNode input expr =>
      cases kind with
      | optimizerPass =>
          obtain ⟨s, hs, hbuilt⟩ := hmake (.filterNode p expr) rfl
          exact ⟨s, _, hs, hbuilt, rfl⟩
      | joinFilterPass =>
          obtain ⟨s, hs, hbuilt⟩ := joinFilterOnVisit_built hr expr p hp
          exact ⟨s, _, hs, hbuilt, rfl⟩

/-- **A visit of a plan of other regions** builds what the visitor of plan values computes. -/
theorem visit_built (kind : PassKind) (hr : Regions region heap) {m : Option Nat}
    (hm : Within region heap k m) (p : Option Nat) :
    (∀ a ∈ p, a < heap.size ∧ region a ≠ k) → ∃ s plan,
      PassState.visit kind p ⟨heap, m⟩ = .ok s ∧ Built region k heap s plan ∧
      kind.visitor.visit (planAt heap p) (planAt heap m) = .ok plan := by
  induction p using heap.pointer_induction with
  | null =>
      intro _
      exact ⟨⟨heap, m⟩, _, by rw [PassState.visit], Built.refl hr hm, by rw [planAt_none]; rfl⟩
  | dangling a hc =>
      intro hp
      obtain ⟨c, hcell⟩ := exists_cell (hp a rfl).1
      rw [hc] at hcell
      cases hcell
  | cell a node hc ih =>
      intro hp
      obtain ⟨ha, hk⟩ := hp a rfl
      obtain ⟨s₁, plan₁, hvisit₁, hbuilt₁, htree₁⟩ := ih fun i hi =>
        ⟨lt_trans (heap.descends hc hi) ha, by rw [hr a node i hc hi]; exact hk⟩
      -- the node belongs to another region, so it is still what it was
      have hnode : s₁.heap.cells[a]? = some node := by rw [hbuilt₁.frame a ha hk, hc]
      obtain ⟨s₂, plan₂, hvisit₂, hbuilt₂, htree₂⟩ :=
        onVisit_built kind node hbuilt₁.regions hbuilt₁.within
      refine ⟨s₂, plan₂, ?_, hbuilt₁.trans hbuilt₂, ?_⟩
      · rw [PassState.visit]
        split
        · next hnone =>
            rw [hc] at hnone
            cases hnone
        · next node' hsome =>
            rw [hc] at hsome
            cases hsome
            rw [hvisit₁, bind_ok]
            simp only [hnode]
            exact hvisit₂
      · rw [PlanVisitor.visit_planAt _ hc, htree₁, bind_ok, ← hbuilt₁.plan_eq]
        exact htree₂

end Built

/-! ## Executing queries -/

/-- One run of an optimizer with a new `JoinFilterPass` adds nodes and changes none. -/
theorem runPasses_create {heap : PlanHeap} {p : Option Nat} (hp : heap.Valid p) :
    (p = none ∧ runPasses [.create .joinFilterPass] heap p = .error .nullDeref) ∨
    ∃ (s : PassState) (plan : LogicalPlan), runPasses [.create .joinFilterPass] heap p =
        .ok ([⟨.joinFilterPass, s.mResult⟩], s.heap, s.mResult) ∧
      (∀ a < heap.size, s.heap.cells[a]? = heap.cells[a]?) ∧ heap.size ≤ s.heap.size ∧
      planAt s.heap s.mResult = plan ∧ optimize (planAt heap p) = .ok plan := by
  cases p with
  | none => exact Or.inl ⟨rfl, rfl⟩
  | some a =>
      -- everything that is there is region 0, and the pass is region 1
      have hregions : Regions (fun _ => 0) heap := fun _ _ _ _ _ => rfl
      obtain ⟨s, plan, hvisit, hbuilt, htree⟩ := visit_built (k := 1) .joinFilterPass hregions
        (m := none) (fun _ h => by cases h) (some a)
        fun b hb => ⟨hp b hb, Nat.zero_ne_one⟩
      refine Or.inr ⟨s, plan, ?_, fun b hb => hbuilt.frame b hb Nat.zero_ne_one, hbuilt.size_le,
        hbuilt.plan_eq, ?_⟩
      · simp only [runPasses, Pass.execute, Pass.create, hvisit, bind_ok]
      · rw [planAt_none] at htree
        rw [optimize, PlanVisitor.start_of_ne (planAt_some_ne (hp a rfl))]
        exact htree

/-- **One execution** returns what the plan's value says, and changes no node. -/
theorem executeOn_ok {heap : PlanHeap} {p : Option Nat} (hp : heap.Valid p) (table : Table) :
    (executeOn heap p table).1 = execute (planAt heap p) table ∧
      heap.size ≤ (executeOn heap p table).2.size ∧
      ∀ a < heap.size, (executeOn heap p table).2.cells[a]? = heap.cells[a]? := by
  rcases runPasses_create hp with ⟨rfl, hrun⟩ | ⟨s, plan, hrun, hframe, hsize, hplan, hopt⟩
  · simp only [executeOn, hrun, execute, planAt_none]
    exact ⟨rfl, Nat.le_refl _, fun _ _ => trivial⟩
  · simp only [executeOn, hrun, execute, hopt, bind_ok, hplan]
    exact ⟨trivial, hsize, hframe⟩

/-- The heap after a sequence of executions. -/
def executeAll (heap : PlanHeap) (calls : List (Option Nat × Table)) : PlanHeap :=
  calls.foldl (fun heap call => (executeOn heap call.1 call.2).2) heap

theorem executeAll_frame {heap : PlanHeap} {calls : List (Option Nat × Table)}
    (hcalls : ∀ call ∈ calls, heap.Valid call.1) :
    heap.size ≤ (executeAll heap calls).size ∧
      ∀ a < heap.size, (executeAll heap calls).cells[a]? = heap.cells[a]? := by
  induction calls generalizing heap with
  | nil => exact ⟨Nat.le_refl _, fun _ _ => rfl⟩
  | cons call calls ih =>
      obtain ⟨-, hsize, hframe⟩ := executeOn_ok (hcalls call List.mem_cons_self) call.2
      have hvalid : ∀ c ∈ calls, (executeOn heap call.1 call.2).2.Valid c.1 :=
        fun c hc a ha => lt_of_lt_of_le (hcalls c (List.mem_cons_of_mem _ hc) a ha) hsize
      obtain ⟨hsize', hframe'⟩ := ih hvalid
      exact ⟨le_trans hsize hsize', fun a ha => by
        rw [← hframe a ha]
        exact hframe' a (lt_of_lt_of_le ha hsize)⟩

/-- **Executing queries never changes a plan**: after any sequence of executions of queries on the
heap every node is as it was, every query is optimized to the plan it was optimized to before, and
it returns what it returned before. -/
theorem execute_frame {heap : PlanHeap} {calls : List (Option Nat × Table)} {p : Option Nat}
    (hcalls : ∀ call ∈ calls, heap.Valid call.1) (hp : heap.Valid p) (table : Table) :
    (∀ a < heap.size, (executeAll heap calls).cells[a]? = heap.cells[a]?) ∧
      (runPasses [.create .joinFilterPass] (executeAll heap calls) p >>= fun out =>
        .ok (planAt out.2.1 out.2.2)) = optimize (planAt heap p) ∧
      (executeOn (executeAll heap calls) p table).1 = execute (planAt heap p) table := by
  obtain ⟨hsize, hframe⟩ := executeAll_frame hcalls
  have hp' : (executeAll heap calls).Valid p := fun a ha => lt_of_lt_of_le (hp a ha) hsize
  have hplan : planAt (executeAll heap calls) p = planAt heap p :=
    congrArg toPlan (chain_of_extends hframe hp)
  refine ⟨hframe, ?_, by rw [(executeOn_ok hp' table).1, hplan]⟩
  rcases runPasses_create hp' with ⟨rfl, hrun⟩ | ⟨s, plan, hrun, -, -, hplan', hopt⟩
  · rw [hrun, planAt_none]
    rfl
  · rw [hrun, bind_ok, hplan', ← hplan, hopt]

/-- A base query and two queries derived from it, on one heap. -/
def sharedPrefix : PlanHeap where
  cells := [.filterNode none ((col "a").gt (lit 0)), .materializeFilterNode (some 0),
    .filterNode (some 1) ((col "b").lt (lit 5)), .materializeFilterNode (some 2),
    .projectionNode (some 1) ["b"]]
  descends := by
    intro a c i hc hi
    have ha : a < 5 := (List.getElem?_eq_some_iff.mp hc).1
    interval_cases a <;> cases hc <;> cases hi <;> decide

theorem execute_frame_sharedPrefix :
    (∀ a < sharedPrefix.size, (executeAll sharedPrefix [(some 3, ⟨[]⟩), (some 4, ⟨[]⟩)]).cells[a]? =
        sharedPrefix.cells[a]?) ∧
      (runPasses [.create .joinFilterPass]
          (executeAll sharedPrefix [(some 3, ⟨[]⟩), (some 4, ⟨[]⟩)]) (some 3) >>= fun out =>
        .ok (planAt out.2.1 out.2.2)) = optimize (planAt sharedPrefix (some 3)) ∧
      (executeOn (executeAll sharedPrefix [(some 3, ⟨[]⟩), (some 4, ⟨[]⟩)]) (some 3) ⟨[]⟩).1 =
        execute (planAt sharedPrefix (some 3)) ⟨[]⟩ :=
  execute_frame (by decide) (by decide) ⟨[]⟩

end Pefa
