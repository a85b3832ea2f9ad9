import QueryGraph.Catalog.DataType
import QueryGraph.Expr.Kind

/-!
# Errors of expressions

What can go wrong while an expression is typed or evaluated, and how it is
reported.

Main definitions:

- {lit}`EvalError`: the causes.
- {lit}`EvalError.message`: the wording of each cause.
-/

namespace QueryGraph

/-- Why an integer result has no representation. -/
inductive Overflow where
  /-- The operation leaves the widest integer type. -/
  | operation (left : Int) (kind : ExprKind) (right : Int)
  /-- The result does not fit the type that the operands call for. -/
  | narrowing (result : Int) (dataType : DataType)
deriving DecidableEq, Repr

/-- The wording of an overflow. -/
def Overflow.message : Overflow → String
  | .operation l k r => toString l ++ " " ++ k.symbol ++ " " ++ toString r
  | .narrowing v t => toString v ++ " out of range for " ++ t.name

/-- Why an expression cannot be typed or evaluated. -/
inductive EvalError where
  /-- The kind does not join two operands. -/
  | unsupported (kind : ExprKind)
  /-- The operator is not defined on operands of these types. -/
  | incompatible (kind : ExprKind) (left right : DataType)
  | divisionByZero
  | overflow (cause : Overflow)
  /-- The row has no value for this column. -/
  | columnNotFound (name : String)
deriving DecidableEq, Repr

/-- The wording of an error. -/
def EvalError.message : EvalError → String
  | .unsupported k =>
    "Unsupported operator: " ++ Enumeration.tag k ++ " expression is not supported"
  | .incompatible k l r => "Incompatible types: " ++ l.name ++ " " ++ k.symbol ++ " " ++ r.name
  | .divisionByZero => "Division by zero"
  | .overflow c => "Numeric overflow: " ++ c.message
  | .columnNotFound n => "Column not found: " ++ n

end QueryGraph
