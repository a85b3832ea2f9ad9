import QueryGraph.Catalog.Json
import QueryGraph.Datum.Json
import QueryGraph.Expr.Basic

/-!
# JSON form of expressions

An expression is a variant; an operator's payload is a record.  The type of an
operator's result is read as it stands and not derived again.

Main definitions:

- {lit}`Expr.writeJson`, {lit}`Expr.readJson?`: writing and reading an expression.
-/

namespace QueryGraph

namespace Expr

/-- Writes an expression. -/
def writeJson : Expr → Json
  | .const d => .ofVariant "Const" (toJson d)
  | .field c => .ofVariant "Field" (toJson c)
  | .binary k l r t =>
    .ofVariant "Binary" (.ofRecord
      [("eval_type", toJson k), ("left", l.writeJson), ("right", r.writeJson),
        ("return_type", toJson t)])

/-- Reads an operator with the given reader for its operands. -/
def readOperator? (readOperand : Json → Option Expr) (levels : Nat) (j : Json) :
    Option Expr := do
  match ← j.record? levels ["eval_type", "left", "right", "return_type"] with
  | (levels, [kind, left, right, valueType]) =>
    let kind ← Json.required? (ofJson? levels) kind
    let left ← Json.required? readOperand left
    let right ← Json.required? readOperand right
    let valueType ← Json.required? (ofJson? levels) valueType
    return .binary kind left right valueType
  | _ => none

/-- Reads an expression with the given reader for operands. -/
def readVariant? (readOperand : Json → Option Expr) (levels : Nat) (j : Json) :
    Option Expr := do
  let (levels, name, payload) ← j.variant? levels
  match name with
  | "Const" => (Json.required? (ofJson? levels) payload).map .const
  | "Field" => (Json.required? (ofJson? levels) payload).map .field
  | "Binary" => Json.required? (readOperator? readOperand levels) payload
  | _ => none

/-- Reads an expression.  An operand stands two levels below its operator. -/
def readJson? : Nat → Json → Option Expr
  | 0, _ => none
  | 1, j => readVariant? (fun _ => none) 1 j
  | levels + 2, j => readVariant? (readJson? levels) (levels + 2) j

instance : JsonFormat Expr where
  toJson := writeJson
  ofJson? := readJson?

end Expr

end QueryGraph
