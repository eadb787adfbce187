import Pefa.QueryCompiler.PlanOptimizer

/-!
# The comparisons and projections of a plan

What of a plan reaches the kernels is its comparisons, in the order in which a visitor meets them.
The optimizer rebuilds the tree around them but neither drops, repeats nor reorders one
(`comparisons_optimize`), and it leaves the projections alone (`projections_optimize`).

So it does not matter either whether comparisons are replaced by others before a plan is optimized
or afterwards (`optimize_answered`).
-/

namespace Pefa

namespace BooleanExpr

/-- The comparisons of a tree, from left to right. -/
def comparisons : BooleanExpr → List (ColumnRef × LiteralExpr × CompareOp)
  | .booleanConst _ => []
  | .predicateExpr lhs rhs _ => lhs.comparisons ++ rhs.comparisons
  | .compareExpr lhs rhs op => [(lhs, rhs, op)]

/-- The tree with the comparisons of some columns answered by others of the same column. -/
def answered (held : String → Option (LiteralExpr × CompareOp)) : BooleanExpr → BooleanExpr
  | .booleanConst value => .booleanConst value
  | .predicateExpr lhs rhs op => .predicateExpr (lhs.answered held) (rhs.answered held) op
  | .compareExpr lhs rhs op =>
      let (rhs, op) := (held lhs.name).getD (rhs, op)
      .compareExpr lhs rhs op

theorem answered_none (e : BooleanExpr) : e.answered (fun _ => none) = e := by
  induction e with
  | booleanConst value => rfl
  | predicateExpr lhs rhs op ihl ihr => rw [answered, ihl, ihr]
  | compareExpr lhs rhs op => rfl

end BooleanExpr

namespace LogicalPlan

/-- The comparisons of a plan, in the order in which they are evaluated. -/
def comparisons : LogicalPlan → List (ColumnRef × LiteralExpr × CompareOp)
  | .nullptr => []
  | .projectionNode input _ => input.comparisons
  | .filterNode input expr => input.comparisons ++ expr.comparisons
  | .materializeFilterNode input => input.comparisons

/-- The projections of a plan, in the order in which they are made. -/
def projections : LogicalPlan → List (List String)
  | .nullptr => []
  | .projectionNode input fields => input.projections ++ [fields]
  | .filterNode input _ => input.projections
  | .materializeFilterNode input => input.projections

def answered (held : String → Option (LiteralExpr × CompareOp)) : LogicalPlan → LogicalPlan
  | .nullptr => .nullptr
  | .projectionNode input fields => .projectionNode (input.answered held) fields
  | .filterNode input expr => .filterNode (input.answered held) (expr.answered held)
  | .materializeFilterNode input => .materializeFilterNode (input.answered held)

theorem answered_none (plan : LogicalPlan) : plan.answered (fun _ => none) = plan := by
  induction plan with
  | nullptr => rfl
  | projectionNode input fields ih => rw [answered, ih]
  | filterNode input expr ih => rw [answered, ih, BooleanExpr.answered_none]
  | materializeFilterNode input ih => rw [answered, ih]

end LogicalPlan

/-! ## Joining filters -/

open LogicalPlan

theorem comparisons_joinFilterOnVisit (e : BooleanExpr) (result : LogicalPlan) :
    (joinFilterOnVisit e result).comparisons = result.comparisons ++ e.comparisons := by
  induction result with
  | nullptr => rfl
  | projectionNode input fields => rfl
  | filterNode input prev =>
      exact (List.append_assoc input.comparisons prev.comparisons e.comparisons).symm
  | materializeFilterNode input ih => exact ih

theorem projections_joinFilterOnVisit (e : BooleanExpr) (result : LogicalPlan) :
    (joinFilterOnVisit e result).projections = result.projections := by
  induction result with
  | nullptr => rfl
  | projectionNode input fields => rfl
  | filterNode input prev => rfl
  | materializeFilterNode input ih => exact ih

theorem joinFilterOnVisit_answered (held : String → Option (LiteralExpr × CompareOp))
    (e : BooleanExpr) (result : LogicalPlan) :
    joinFilterOnVisit (e.answered held) (result.answered held) =
      (joinFilterOnVisit e result).answered held := by
  induction result with
  | nullptr => rfl
  | projectionNode input fields => rfl
  | filterNode input prev => rfl
  | materializeFilterNode input ih => exact ih

/-! ## Optimizing -/

/-- **The pass keeps the comparisons and the projections**, and replaces none. -/
theorem joinFilterPass_visit (plan result : LogicalPlan) :
    ∃ result', joinFilterPass.visit plan result = .ok result' ∧
      result'.comparisons = result.comparisons ++ plan.comparisons ∧
      result'.projections = result.projections ++ plan.projections ∧
      ∀ held, joinFilterPass.visit (plan.answered held) (result.answered held) =
        .ok (result'.answered held) := by
  induction plan with
  | nullptr =>
      exact ⟨result, rfl, by simp [LogicalPlan.comparisons], by simp [projections], fun _ => rfl⟩
  | projectionNode input fields ih =>
      obtain ⟨r, hr, hcomparisons, hproj, hheld⟩ := ih
      refine ⟨.projectionNode r fields, ?_, hcomparisons, ?_, fun held => ?_⟩
      · rw [PlanVisitor.visit, hr]
        rfl
      · rw [projections, projections, hproj, List.append_assoc]
      · rw [answered, PlanVisitor.visit, hheld]
        rfl
  | filterNode input expr ih =>
      obtain ⟨r, hr, hcomparisons, hproj, hheld⟩ := ih
      refine ⟨joinFilterOnVisit expr r, ?_, ?_, ?_, fun held => ?_⟩
      · rw [PlanVisitor.visit, hr]
        rfl
      · rw [comparisons_joinFilterOnVisit, hcomparisons, LogicalPlan.comparisons, List.append_assoc]
      · rw [projections_joinFilterOnVisit, hproj, projections]
      · rw [answered, PlanVisitor.visit, hheld, ← joinFilterOnVisit_answered]
        rfl
  | materializeFilterNode input ih =>
      obtain ⟨r, hr, hcomparisons, hproj, hheld⟩ := ih
      refine ⟨.materializeFilterNode r, ?_, hcomparisons, hproj, fun held => ?_⟩
      · rw [PlanVisitor.visit, hr]
        rfl
      · rw [answered, PlanVisitor.visit, hheld]
        rfl

/-- Only a null plan is not optimized. -/
theorem optimize_eq_error {plan : LogicalPlan} {e : Error} (h : optimize plan = .error e) :
    plan = .nullptr := by
  by_contra hne
  obtain ⟨result, hresult, -⟩ := joinFilterPass_visit plan .nullptr
  rw [optimize, PlanVisitor.start_of_ne hne, hresult] at h
  cases h

section Optimize

variable {plan plan' : LogicalPlan} (h : optimize plan = .ok plan')
include h

theorem visit_of_optimize : plan ≠ .nullptr ∧ joinFilterPass.visit plan .nullptr = .ok plan' := by
  have hne : plan ≠ .nullptr := by
    rintro rfl
    cases h
  rw [optimize, PlanVisitor.start_of_ne hne] at h
  exact ⟨hne, h⟩

theorem optimize_ne_nullptr : plan' ≠ .nullptr := by
  obtain ⟨hne, hvisit⟩ := visit_of_optimize h
  cases plan with
  | nullptr => exact absurd rfl hne
  | projectionNode input fields =>
      obtain ⟨result, -, hresult⟩ := bind_eq_ok.mp hvisit
      cases hresult
      exact nofun
  | filterNode input expr =>
      obtain ⟨result, -, hresult⟩ := bind_eq_ok.mp hvisit
      cases hresult
      exact joinFilterOnVisit_ne_nullptr expr result
  | materializeFilterNode input =>
      obtain ⟨result, -, hresult⟩ := bind_eq_ok.mp hvisit
      cases hresult
      exact nofun

/-- **The optimizer drops, repeats and reorders no comparison.** -/
theorem comparisons_optimize : plan'.comparisons = plan.comparisons := by
  obtain ⟨-, hvisit⟩ := visit_of_optimize h
  obtain ⟨result, hresult, hcomparisons, -, -⟩ := joinFilterPass_visit plan .nullptr
  rw [hvisit] at hresult
  cases hresult
  exact hcomparisons

theorem projections_optimize : plan'.projections = plan.projections := by
  obtain ⟨-, hvisit⟩ := visit_of_optimize h
  obtain ⟨result, hresult, -, hproj, -⟩ := joinFilterPass_visit plan .nullptr
  rw [hvisit] at hresult
  cases hresult
  exact hproj

/-- Comparisons may be replaced before a plan is optimized or afterwards. -/
theorem optimize_answered (held : String → Option (LiteralExpr × CompareOp)) :
    optimize (plan.answered held) = .ok (plan'.answered held) := by
  obtain ⟨hne, hvisit⟩ := visit_of_optimize h
  obtain ⟨result, hresult, -, -, hheld⟩ := joinFilterPass_visit plan .nullptr
  rw [hvisit] at hresult
  cases hresult
  have hne' : plan.answered held ≠ .nullptr := by
    cases plan with
    | nullptr => exact absurd rfl hne
    | projectionNode input fields => exact nofun
    | filterNode input expr => exact nofun
    | materializeFilterNode input => exact nofun
  rw [optimize, PlanVisitor.start_of_ne hne']
  exact hheld held

end Optimize

end Pefa
