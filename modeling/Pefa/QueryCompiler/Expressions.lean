import Pefa.Arrow

/-!
# Filter expressions

The syntax trees a query is written in, and what they say. Expressions are immutable and shared
freely, so a pointer to one is the expression.

`truth` is the meaning of a tree, given the truth of its comparisons; `CompareOp.holds` is the
meaning of a comparison of two integers.
-/

namespace Pefa

/-- `std::variant<int, double, std::string, bool>`; an `int` has 32 bits. -/
inductive LiteralExpr where
  | int (value : BitVec 32)
  | double (value : FloatValue)
  | string (value : String)
  | bool (value : Bool)
  deriving DecidableEq

structure ColumnRef where
  name : String
  deriving DecidableEq, Repr

/-- `CompareExpr::Op` -/
inductive CompareOp where
  | gt | lt | ge | le | eq | neq
  deriving DecidableEq, Repr

/-- `PredicateExpr::Op` -/
inductive PredicateOp where
  | and | or
  deriving DecidableEq, Repr

inductive BooleanExpr where
  | booleanConst (value : Bool)
  | predicateExpr (lhs rhs : BooleanExpr) (op : PredicateOp)
  | compareExpr (lhs : ColumnRef) (rhs : LiteralExpr) (op : CompareOp)
  deriving DecidableEq

namespace BooleanExpr

/-- `BooleanExpr::AND` -/
def and (lhs rhs : BooleanExpr) : BooleanExpr := .predicateExpr lhs rhs .and

/-- `BooleanExpr::OR` -/
def or (lhs rhs : BooleanExpr) : BooleanExpr := .predicateExpr lhs rhs .or

end BooleanExpr

def col (name : String) : ColumnRef := ⟨name⟩

def lit (value : BitVec 32) : LiteralExpr := .int value

namespace ColumnRef

def eq (lhs : ColumnRef) (rhs : LiteralExpr) : BooleanExpr := .compareExpr lhs rhs .eq
def le (lhs : ColumnRef) (rhs : LiteralExpr) : BooleanExpr := .compareExpr lhs rhs .le
def ge (lhs : ColumnRef) (rhs : LiteralExpr) : BooleanExpr := .compareExpr lhs rhs .ge
def neq (lhs : ColumnRef) (rhs : LiteralExpr) : BooleanExpr := .compareExpr lhs rhs .neq
def lt (lhs : ColumnRef) (rhs : LiteralExpr) : BooleanExpr := .compareExpr lhs rhs .lt
def gt (lhs : ColumnRef) (rhs : LiteralExpr) : BooleanExpr := .compareExpr lhs rhs .gt

end ColumnRef

/-! ## What expressions say -/

def PredicateOp.apply : PredicateOp → Bool → Bool → Bool
  | .and => (· && ·)
  | .or => (· || ·)

/-- The comparison of two integers. -/
def CompareOp.holds : CompareOp → Int → Int → Bool
  | .gt, x, y => decide (x > y)
  | .lt, x, y => decide (x < y)
  | .ge, x, y => decide (x ≥ y)
  | .le, x, y => decide (x ≤ y)
  | .eq, x, y => decide (x = y)
  | .neq, x, y => decide (x ≠ y)

namespace BooleanExpr

/-- The truth of a tree, given the truth of its comparisons. -/
def truth (atom : ColumnRef → LiteralExpr → CompareOp → Bool) : BooleanExpr → Bool
  | .booleanConst value => value
  | .predicateExpr lhs rhs op => op.apply (lhs.truth atom) (rhs.truth atom)
  | .compareExpr lhs rhs op => atom lhs rhs op

/-- Every comparison of the tree satisfies `p`. -/
def AllCompare (p : ColumnRef → LiteralExpr → CompareOp → Prop) : BooleanExpr → Prop
  | .booleanConst _ => True
  | .predicateExpr lhs rhs _ => lhs.AllCompare p ∧ rhs.AllCompare p
  | .compareExpr lhs rhs op => p lhs rhs op

/-- The tree is made of AND, OR and comparisons alone. -/
def ConstFree : BooleanExpr → Prop
  | .booleanConst _ => False
  | .predicateExpr lhs rhs _ => lhs.ConstFree ∧ rhs.ConstFree
  | .compareExpr _ _ _ => True

instance instDecidableConstFree : (e : BooleanExpr) → Decidable e.ConstFree
  | .booleanConst _ => inferInstanceAs (Decidable False)
  | .predicateExpr lhs rhs _ =>
      @instDecidableAnd _ _ (instDecidableConstFree lhs) (instDecidableConstFree rhs)
  | .compareExpr _ _ _ => inferInstanceAs (Decidable True)

instance instDecidableAllCompare (p : ColumnRef → LiteralExpr → CompareOp → Prop)
    [∀ c l op, Decidable (p c l op)] : (e : BooleanExpr) → Decidable (e.AllCompare p)
  | .booleanConst _ => inferInstanceAs (Decidable True)
  | .predicateExpr lhs rhs _ =>
      @instDecidableAnd _ _ (instDecidableAllCompare p lhs) (instDecidableAllCompare p rhs)
  | .compareExpr c l op => inferInstanceAs (Decidable (p c l op))

@[simp] theorem truth_and (atom : ColumnRef → LiteralExpr → CompareOp → Bool)
    (e₁ e₂ : BooleanExpr) : (e₁.and e₂).truth atom = (e₁.truth atom && e₂.truth atom) := rfl

@[simp] theorem allCompare_and {p : ColumnRef → LiteralExpr → CompareOp → Prop}
    {e₁ e₂ : BooleanExpr} : (e₁.and e₂).AllCompare p ↔ e₁.AllCompare p ∧ e₂.AllCompare p := Iff.rfl

@[simp] theorem constFree_and {e₁ e₂ : BooleanExpr} :
    (e₁.and e₂).ConstFree ↔ e₁.ConstFree ∧ e₂.ConstFree := Iff.rfl

/-- The truth of a tree depends on the truth of its own comparisons only. -/
theorem truth_congr {atom atom' : ColumnRef → LiteralExpr → CompareOp → Bool} :
    ∀ {e : BooleanExpr}, e.AllCompare (fun c l op => atom c l op = atom' c l op) →
      e.truth atom = e.truth atom'
  | .booleanConst _, _ => rfl
  | .predicateExpr _ _ op, h => by
      show op.apply _ _ = op.apply _ _
      rw [truth_congr h.1, truth_congr h.2]
  | .compareExpr _ _ _, h => h

theorem AllCompare.imp {p q : ColumnRef → LiteralExpr → CompareOp → Prop}
    (hpq : ∀ c l op, p c l op → q c l op) :
    ∀ {e : BooleanExpr}, e.AllCompare p → e.AllCompare q
  | .booleanConst _, _ => trivial
  | .predicateExpr _ _ _, h => ⟨AllCompare.imp hpq h.1, AllCompare.imp hpq h.2⟩
  | .compareExpr _ _ _, h => hpq _ _ _ h

end BooleanExpr

end Pefa
