import Pefa.QueryCompiler.PlanOptimizer
import Pefa.Execution.FilterExpr
import Pefa.Execution.Materialize

/-!
# Executing a query

`execute` optimizes the plan, builds a context for the table and has `ExecutePlanVisitor` go
through the plan. The visitor hands its context from one operation to the next, so it is written
for any three operations on any kind of context; `executionOps` are those of the program.
-/

namespace Pefa

/-- The operations that `ExecutePlanVisitor` calls, on contexts `κ`. -/
structure ExecutionOps (κ : Type) where
  project : κ → List String → Except Error κ
  generateFilterBitmap : κ → BooleanExpr → Except Error κ
  materializeFilter : κ → Except Error κ

/-- `ExecutePlanVisitor` -/
def executePlanVisitor {κ : Type} (ops : ExecutionOps κ) : PlanVisitor κ where
  onVisitProjection fields ctx := ops.project ctx fields
  onVisitFilter expr ctx := ops.generateFilterBitmap ctx expr
  onVisitMaterialize ctx := ops.materializeFilter ctx

/-- The operations of `pefa::execution`. -/
def executionOps : ExecutionOps ExecutionContext :=
  ⟨project, generateFilterBitmap, materializeFilter⟩

/-- `QueryCompiler::execute` -/
def execute (plan : LogicalPlan) (table : Table) : Except Error Table := do
  let plan ← optimize plan
  let ctx ← ExecutionContext.create table
  let ctx ← (executePlanVisitor executionOps).start plan ctx
  .ok ctx.table

/-- **What is executed**: the joined calls, from a new context. -/
theorem execute_build {steps : List Step} (h : steps ≠ []) (table : Table) :
    execute (.build steps) table = (do
      let ctx ← ExecutionContext.create table
      let ctx ← (executePlanVisitor executionOps).visit (.build (joinSteps steps).reverse) ctx
      .ok ctx.table) := by
  have hjoined : (joinSteps steps).reverse ≠ [] := by
    simpa using joinSteps_ne_nil h
  rw [execute, optimize_build h, bind_ok]
  simp only [PlanVisitor.start_of_ne (LogicalPlan.build_ne_nullptr hjoined)]

end Pefa
