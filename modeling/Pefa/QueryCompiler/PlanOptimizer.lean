import Pefa.QueryCompiler.LogicalPlan

/-!
# The plan optimizer

An optimizer pass is a visitor that rebuilds the plan it visits in `m_result`; `JoinFilterPass`
differs from the plain pass on filters, which it joins with a filter below.

On a plan made by `project` and `filter` calls the pass never finds a filter on top of `m_result`
at first: it finds the materialization above it, strips that, and visits the filter again. The
node that follows in the plan puts the materialization back. So between two visits of the pass
`m_result` is itself the plan of a sequence of calls, the one in which neighbouring filters are
joined (`joinFilterPass_build`).
-/

namespace Pefa

/-- `JoinFilterPass::on_visit(const FilterNode &)`: the new `m_result`. -/
def joinFilterOnVisit (expr : BooleanExpr) : LogicalPlan → LogicalPlan
  | .filterNode input prev => .filterNode input (prev.and expr)
  | .materializeFilterNode input => joinFilterOnVisit expr input
  | result => .filterNode result expr

theorem joinFilterOnVisit_ne_nullptr (e : BooleanExpr) (result : LogicalPlan) :
    joinFilterOnVisit e result ≠ .nullptr := by
  induction result with
  | nullptr => exact nofun
  | projectionNode input fields => exact nofun
  | filterNode input prev => exact nofun
  | materializeFilterNode input ih => exact ih

/-- `OptimizerPass` -/
def optimizerPass : PlanVisitor LogicalPlan where
  onVisitProjection fields result := .ok (.projectionNode result fields)
  onVisitFilter expr result := .ok (.filterNode result expr)
  onVisitMaterialize result := .ok (.materializeFilterNode result)

/-- `JoinFilterPass` -/
def joinFilterPass : PlanVisitor LogicalPlan :=
  { optimizerPass with onVisitFilter := fun expr result => .ok (joinFilterOnVisit expr result) }

/-- `PlanOptimizer::run` with one new `JoinFilterPass`. -/
def optimize (plan : LogicalPlan) : Except Error LogicalPlan := joinFilterPass.start plan .nullptr

/-! ## What the pass does to a sequence of calls -/

/-- Add a call to a sequence that has no neighbouring filters: a filter is joined with the last
call if that is a filter. The sequence is kept with its last call first. -/
def joinStep : List Step → Step → List Step
  | .filter e :: rest, .filter e' => .filter (e.and e') :: rest
  | calls, s => s :: calls

@[simp] theorem joinStep_project (calls : List Step) (columns : List String) :
    joinStep calls (.project columns) = .project columns :: calls := by
  cases calls with
  | nil => rfl
  | cons s calls => cases s <;> rfl

@[simp] theorem joinStep_filter_filter (rest : List Step) (e e' : BooleanExpr) :
    joinStep (.filter e :: rest) (.filter e') = .filter (e.and e') :: rest := rfl

@[simp] theorem joinStep_project_filter (rest : List Step) (columns : List String)
    (e : BooleanExpr) :
    joinStep (.project columns :: rest) (.filter e) = .filter e :: .project columns :: rest := rfl

/-- The sequence of calls with each run of filters joined into one, the last call first. -/
def joinSteps (steps : List Step) : List Step := steps.foldl joinStep []

theorem joinSteps_concat (steps : List Step) (s : Step) :
    joinSteps (steps ++ [s]) = joinStep (joinSteps steps) s := by
  simp [joinSteps, List.foldl_append]

theorem joinStep_ne_nil (calls : List Step) (s : Step) : joinStep calls s ≠ [] := by
  unfold joinStep
  split <;> simp

theorem joinSteps_ne_nil {steps : List Step} (h : steps ≠ []) : joinSteps steps ≠ [] := by
  obtain ⟨init, s, rfl⟩ := (List.eq_nil_or_concat steps).resolve_left h
  rw [List.concat_eq_append, joinSteps_concat]
  exact joinStep_ne_nil _ s

/-- Joining leaves a filter where there was one. -/
theorem joinSteps_isFilter (steps : List Step) :
    (joinSteps steps).any Step.isFilter = steps.any Step.isFilter := by
  induction steps using List.reverseRecOn with
  | nil => rfl
  | append_singleton steps s ih =>
      have hstep : ∀ calls : List Step,
          (joinStep calls s).any Step.isFilter = (s :: calls).any Step.isFilter := by
        intro calls
        unfold joinStep
        split <;> simp [Step.isFilter]
      rw [joinSteps_concat, hstep, List.any_cons, ih, List.any_append, List.any_cons, List.any_nil,
        Bool.or_false, Bool.or_comm]

namespace LogicalPlan

theorem build_reverse_cons (s : Step) (calls : List Step) :
    build (s :: calls).reverse = (build calls.reverse).step s := by
  rw [List.reverse_cons, build_concat]

end LogicalPlan

/-- A filter on top of the plan of some calls, joined and materialized again, is the plan of the
calls with the filter added. -/
theorem joinFilterOnVisit_build (e : BooleanExpr) (calls : List Step) :
    LogicalPlan.materializeFilterNode (joinFilterOnVisit e (.build calls.reverse)) =
      .build (joinStep calls (.filter e)).reverse := by
  cases calls with
  | nil => rfl
  | cons s calls =>
      cases s with
      | project columns =>
          simp only [joinStep_project_filter, LogicalPlan.build_reverse_cons]
          rfl
      | filter e' =>
          -- the pass strips the materialization and finds the filter under it
          simp only [joinStep_filter_filter, LogicalPlan.build_reverse_cons]
          rfl

/-- **The pass joins neighbouring filters**: the optimized plan is the plan of the calls in which
each run of filters is one filter. -/
theorem joinFilterPass_build (steps : List Step) :
    joinFilterPass.visit (.build steps) .nullptr = .ok (.build (joinSteps steps).reverse) := by
  induction steps using List.reverseRecOn with
  | nil => rfl
  | append_singleton steps s ih =>
      rw [LogicalPlan.build_concat, joinSteps_concat]
      cases s with
      | project columns =>
          rw [joinStep_project, LogicalPlan.build_reverse_cons]
          simp only [LogicalPlan.step, LogicalPlan.project, PlanVisitor.visit, ih, bind_ok]
          rfl
      | filter e =>
          rw [← joinFilterOnVisit_build]
          simp only [LogicalPlan.step, LogicalPlan.filter, PlanVisitor.visit, ih, bind_ok]
          rfl

/-- **The optimizer**, on the plan of any calls. -/
theorem optimize_build {steps : List Step} (h : steps ≠ []) :
    optimize (.build steps) = .ok (.build (joinSteps steps).reverse) := by
  rw [optimize, PlanVisitor.start_of_ne (LogicalPlan.build_ne_nullptr h), joinFilterPass_build]

end Pefa
