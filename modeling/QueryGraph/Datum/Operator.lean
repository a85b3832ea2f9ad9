import QueryGraph.Datum.Arithmetic
import QueryGraph.Datum.Order

/-!
# Operators on values

Connectives and comparisons follow three-valued logic: a missing operand makes
the result missing unless the other operand decides it alone.

Main definitions:

- {lit}`Datum.conjunction`, {lit}`Datum.disjunction`: the connectives.
- {lit}`Datum.comparison`: the six comparisons.
- {lit}`Datum.apply`: any operator on two evaluated operands.
-/

namespace QueryGraph

namespace Datum

/-- The truth value of an operand of a connective; a missing value has none and
any other value is no operand. -/
def logicOperand? : Datum → Option (Option Bool)
  | .null => some none
  | .boolean b => some (some b)
  | _ => none

/-- Three-valued truth as a value. -/
def ofTruth : Option Bool → Datum
  | some b => .boolean b
  | none => .null

/-- Three-valued conjunction. -/
def conjunction : Option Bool → Option Bool → Option Bool
  | some false, _ | _, some false => some false
  | some true, some true => some true
  | _, _ => none

/-- Three-valued disjunction. -/
def disjunction : Option Bool → Option Bool → Option Bool
  | some true, _ | _, some true => some true
  | some false, some false => some false
  | _, _ => none

/-- A connective on two values. -/
def connective (join : Option Bool → Option Bool → Option Bool) (kind : ExprKind)
    (l r : Datum) : Except EvalError Datum :=
  match l.logicOperand?, r.logicOperand? with
  | some a, some b => .ok (ofTruth (join a b))
  | _, _ => .error (mismatch kind l r)

/-- Whether an order satisfies a comparison. -/
def accepts : ExprKind → Ordering → Bool
  | .equal, o => o == .eq
  | .notEqual, o => o != .eq
  | .less, o => o == .lt
  | .lessEqual, o => o != .gt
  | .greater, o => o == .gt
  | .greaterEqual, o => o != .lt
  | _, _ => false

/-- A comparison of two values.  It is missing where an operand is, and where the
order is unknown. -/
def comparison (kind : ExprKind) (l r : Datum) : Except EvalError Datum :=
  if l.isNull || r.isNull then .ok .null
  else match l.compareWith r with
    | .known o => .ok (.boolean (accepts kind o))
    | .unknown => .ok .null
    | .incomparable => .error (mismatch kind l r)

/-- The two values written one after the other; a missing one makes the result
missing. -/
def concatenation (l r : Datum) : Datum :=
  if l.isNull || r.isNull then .null else .text (l.chars ++ r.chars)

/-- An operator on two evaluated operands. -/
def apply (kind : ExprKind) (l r : Datum) : Except EvalError Datum :=
  if kind = .and then connective conjunction kind l r
  else if kind = .or then connective disjunction kind l r
  else if kind.isComparison then comparison kind l r
  else if kind.isArithmetic then arithmetic kind l r
  else if kind = .concatenate then .ok (concatenation l r)
  else .error (.unsupported kind)

end Datum

end QueryGraph
