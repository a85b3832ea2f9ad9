import QueryGraph.Datum.Operator
import QueryGraph.Expr.Basic

/-!
# Evaluating expressions

An expression is evaluated on a row, which is a list of values laid out by a
schema.  Operands are evaluated left to right and the first error wins.

Main definitions:

- {lit}`Row.lookup?`: the value of a column.
- {lit}`Expr.eval`: the value of an expression.
-/

namespace QueryGraph

/-- The values of a row in the order of its schema. -/
abbrev Row := List Datum

/-- The value under the first column of a schema whose name matches. -/
def Row.lookup? (schema : Schema) (row : Row) (name : String) : Option Datum :=
  (schema.columnIndex? name).bind (row[·]?)

namespace Expr

/-- The value of an expression on a row. -/
def eval (schema : Schema) (row : Row) : Expr → Except EvalError Datum
  | .const d => .ok d
  | .field c =>
    match row.lookup? schema c.name with
    | some d => .ok d
    | none => .error (.columnNotFound c.name)
  | .binary k l r _ => do
    let a ← l.eval schema row
    let b ← r.eval schema row
    Datum.apply k a b

end Expr

end QueryGraph
