import Pefa.QueryCompiler.Expressions

/-!
# Logical plans and their visitors

A plan is a chain of nodes, each pointing to its input, with the last step of the query on top and
a null pointer at the bottom. A visitor is called on a node after it was called on the node's
input, so it sees the steps in the order in which the query was built.

Here a plan is the value its pointer stands for; `PlanHeap` has the nodes as mutable cells.
-/

namespace Pefa

/-- A `std::shared_ptr<LogicalPlan>`. -/
inductive LogicalPlan where
  | nullptr
  | projectionNode (input : LogicalPlan) (fields : List String)
  | filterNode (input : LogicalPlan) (expr : BooleanExpr)
  | materializeFilterNode (input : LogicalPlan)
  deriving DecidableEq

/-- What a `PlanVisitor` does on each kind of node; of the node it uses the fields shown. -/
structure PlanVisitor (σ : Type) where
  onVisitProjection : List String → σ → Except Error σ
  onVisitFilter : BooleanExpr → σ → Except Error σ
  onVisitMaterialize : σ → Except Error σ

namespace PlanVisitor

variable {σ : Type}

/-- `PlanVisitor::visit`: the input first, if there is one. -/
def visit (v : PlanVisitor σ) : LogicalPlan → σ → Except Error σ
  | .nullptr, s => .ok s
  | .projectionNode input fields, s => visit v input s >>= v.onVisitProjection fields
  | .filterNode input expr, s => visit v input s >>= v.onVisitFilter expr
  | .materializeFilterNode input, s => visit v input s >>= v.onVisitMaterialize

/-- `plan->visit(visitor)` -/
def start (v : PlanVisitor σ) (plan : LogicalPlan) (s : σ) : Except Error σ :=
  match plan with
  | .nullptr => .error .nullDeref
  | plan => v.visit plan s

theorem start_of_ne {v : PlanVisitor σ} {plan : LogicalPlan} (h : plan ≠ .nullptr) (s : σ) :
    v.start plan s = v.visit plan s := by
  cases plan with
  | nullptr => exact absurd rfl h
  | projectionNode => rfl
  | filterNode => rfl
  | materializeFilterNode => rfl

end PlanVisitor

/-! ## Queries -/

/-- One call on a `QueryCompiler`. -/
inductive Step where
  | project (columns : List String)
  | filter (expr : BooleanExpr)
  deriving DecidableEq

namespace LogicalPlan

/-- `QueryCompiler::project` on the plan so far. -/
def project (plan : LogicalPlan) (columns : List String) : LogicalPlan :=
  .projectionNode plan columns

/-- `QueryCompiler::filter` on the plan so far. -/
def filter (plan : LogicalPlan) (expr : BooleanExpr) : LogicalPlan :=
  .materializeFilterNode (.filterNode plan expr)

/-- One call. -/
def step (plan : LogicalPlan) : Step → LogicalPlan
  | .project columns => plan.project columns
  | .filter expr => plan.filter expr

/-- The plan of a sequence of calls on a new `QueryCompiler`. -/
def build (steps : List Step) : LogicalPlan := steps.foldl step .nullptr

@[simp] theorem build_nil : build [] = .nullptr := rfl

theorem build_concat (steps : List Step) (s : Step) :
    build (steps ++ [s]) = (build steps).step s := by
  simp [build, List.foldl_append]

theorem step_ne_nullptr (plan : LogicalPlan) (s : Step) : plan.step s ≠ .nullptr := by
  cases s <;> simp [step, project, filter]

theorem build_ne_nullptr {steps : List Step} (h : steps ≠ []) : build steps ≠ .nullptr := by
  obtain ⟨init, s, rfl⟩ := (List.eq_nil_or_concat steps).resolve_left h
  rw [List.concat_eq_append, build_concat]
  exact step_ne_nullptr _ s

end LogicalPlan

/-- The call is a filter. -/
def Step.isFilter : Step → Bool
  | .project _ => false
  | .filter _ => true

namespace LogicalPlan

/-- There is a materialization in the plan. -/
def materializes : LogicalPlan → Bool
  | .nullptr => false
  | .projectionNode input _ => input.materializes
  | .filterNode input _ => input.materializes
  | .materializeFilterNode _ => true

/-- A query materializes if and only if it filters. -/
theorem materializes_build (steps : List Step) :
    (build steps).materializes = steps.any Step.isFilter := by
  induction steps using List.reverseRecOn with
  | nil => rfl
  | append_singleton steps s ih =>
      rw [build_concat, List.any_append, ← ih]
      cases s with
      | project columns => simp [step, project, materializes, Step.isFilter]
      | filter e => simp [step, filter, materializes, Step.isFilter]

end LogicalPlan

/-! ## Visits of the plan of a query -/

namespace PlanVisitor

variable {σ τ : Type}

/-- What the visits of the nodes of one call do. -/
def visitStep (v : PlanVisitor σ) (s : σ) : Step → Except Error σ
  | .project columns => v.onVisitProjection columns s
  | .filter expr => v.onVisitFilter expr s >>= v.onVisitMaterialize

theorem visit_step (v : PlanVisitor σ) (plan : LogicalPlan) (call : Step) (s : σ) :
    v.visit (plan.step call) s = v.visit plan s >>= fun t => v.visitStep t call := by
  cases call with
  | project columns => rfl
  | filter expr =>
      show (v.visit plan s >>= v.onVisitFilter expr) >>= v.onVisitMaterialize = _
      rw [bind_assoc]
      rfl

/-- **A visitor sees the calls of a query in their order.** -/
theorem visit_build (v : PlanVisitor σ) (steps : List Step) (s : σ) :
    v.visit (.build steps) s = steps.foldlM v.visitStep s := by
  induction steps using List.reverseRecOn with
  | nil => rfl
  | append_singleton steps call ih =>
      rw [LogicalPlan.build_concat, visit_step, ih, List.foldlM_append]
      simp

/-- Nothing the visitor does without failing changes `P`. -/
structure Keeps (v : PlanVisitor σ) (P : σ → Prop) : Prop where
  projection : ∀ {fields s s'}, P s → v.onVisitProjection fields s = .ok s' → P s'
  filter : ∀ {expr s s'}, P s → v.onVisitFilter expr s = .ok s' → P s'
  materialize : ∀ {s s'}, P s → v.onVisitMaterialize s = .ok s' → P s'

/-- **What every node keeps, every plan keeps.** -/
theorem Keeps.visit {v : PlanVisitor σ} {P : σ → Prop} (h : v.Keeps P) :
    ∀ {plan : LogicalPlan} {s s' : σ}, P s → v.visit plan s = .ok s' → P s' := by
  intro plan
  induction plan with
  | nullptr =>
      intro s s' hs hv
      cases hv
      exact hs
  | projectionNode input fields ih =>
      intro s s' hs hv
      obtain ⟨s₁, hv₁, hv⟩ := bind_eq_ok.mp hv
      exact h.projection (ih hs hv₁) hv
  | filterNode input expr ih =>
      intro s s' hs hv
      obtain ⟨s₁, hv₁, hv⟩ := bind_eq_ok.mp hv
      exact h.filter (ih hs hv₁) hv
  | materializeFilterNode input ih =>
      intro s s' hs hv
      obtain ⟨s₁, hv₁, hv⟩ := bind_eq_ok.mp hv
      exact h.materialize (ih hs hv₁) hv

/-- What every node keeps and a materialization brings about holds after a visit of a plan with a
materialization in it. -/
theorem Keeps.visit_materializes {v : PlanVisitor σ} {P : σ → Prop} (h : v.Keeps P)
    (hmat : ∀ {s s'}, v.onVisitMaterialize s = .ok s' → P s') :
    ∀ {plan : LogicalPlan} {s s' : σ}, plan.materializes = true → v.visit plan s = .ok s' →
      P s' := by
  intro plan
  induction plan with
  | nullptr =>
      intro s s' hplan
      cases hplan
  | projectionNode input fields ih =>
      intro s s' hplan hv
      obtain ⟨s₁, hv₁, hv⟩ := bind_eq_ok.mp hv
      exact h.projection (ih hplan hv₁) hv
  | filterNode input expr ih =>
      intro s s' hplan hv
      obtain ⟨s₁, hv₁, hv⟩ := bind_eq_ok.mp hv
      exact h.filter (ih hplan hv₁) hv
  | materializeFilterNode input ih =>
      intro s s' _ hv
      obtain ⟨s₁, hv₁, hv⟩ := bind_eq_ok.mp hv
      exact hmat hv

/-- Whatever the visitor `w` does without failing, `v` does too, on related states. -/
structure Simulates (v : PlanVisitor σ) (w : PlanVisitor τ) (R : σ → τ → Prop) : Prop where
  projection : ∀ {fields s t t'}, R s t → w.onVisitProjection fields t = .ok t' →
    ∃ s', v.onVisitProjection fields s = .ok s' ∧ R s' t'
  filter : ∀ {expr s t t'}, R s t → w.onVisitFilter expr t = .ok t' →
    ∃ s', v.onVisitFilter expr s = .ok s' ∧ R s' t'
  materialize : ∀ {s t t'}, R s t → w.onVisitMaterialize t = .ok t' →
    ∃ s', v.onVisitMaterialize s = .ok s' ∧ R s' t'

/-- **A simulation of visitors holds on every plan.** -/
theorem Simulates.visit {v : PlanVisitor σ} {w : PlanVisitor τ} {R : σ → τ → Prop}
    (h : v.Simulates w R) : ∀ {plan : LogicalPlan} {s : σ} {t t' : τ}, R s t →
      w.visit plan t = .ok t' → ∃ s', v.visit plan s = .ok s' ∧ R s' t' := by
  intro plan
  induction plan with
  | nullptr =>
      intro s t t' hst hw
      cases hw
      exact ⟨s, rfl, hst⟩
  | projectionNode input fields ih =>
      intro s t t' hst hw
      obtain ⟨t₁, hw₁, hw⟩ := bind_eq_ok.mp hw
      obtain ⟨s₁, hv₁, h₁⟩ := ih hst hw₁
      obtain ⟨s', hv, h'⟩ := h.projection h₁ hw
      exact ⟨s', bind_eq_ok.mpr ⟨s₁, hv₁, hv⟩, h'⟩
  | filterNode input expr ih =>
      intro s t t' hst hw
      obtain ⟨t₁, hw₁, hw⟩ := bind_eq_ok.mp hw
      obtain ⟨s₁, hv₁, h₁⟩ := ih hst hw₁
      obtain ⟨s', hv, h'⟩ := h.filter h₁ hw
      exact ⟨s', bind_eq_ok.mpr ⟨s₁, hv₁, hv⟩, h'⟩
  | materializeFilterNode input ih =>
      intro s t t' hst hw
      obtain ⟨t₁, hw₁, hw⟩ := bind_eq_ok.mp hw
      obtain ⟨s₁, hv₁, h₁⟩ := ih hst hw₁
      obtain ⟨s', hv, h'⟩ := h.materialize h₁ hw
      exact ⟨s', bind_eq_ok.mpr ⟨s₁, hv₁, hv⟩, h'⟩

end PlanVisitor

end Pefa
