import QueryGraph.Expr.Error

/-!
# Result types of operators

Connectives and comparisons are boolean, concatenation is text, and arithmetic
takes a common type of its operands from a lattice of numeric types.

The lattice is not symmetric: an {lit}`INT4` on the left of a {lit}`FLOAT4` stays
narrow, while a {lit}`FLOAT4` on the left is always widened.

Main definitions:

- {lit}`Promotion.lattice?`: the lattice itself.
- {lit}`Promotion.numeric`: the lattice with what a policy adds to it.
- {lit}`Promotion.resultType`: the result type of any operator.
-/

namespace QueryGraph

/-- What arithmetic does with operand types outside the lattice. -/
inductive PromotionPolicy where
  /-- It rejects them, except for a short integer on the left and for nulls. -/
  | strict
  /-- It takes the left operand's type. -/
  | permissive
deriving DecidableEq, Repr

instance : Enumeration PromotionPolicy where
  members := [.strict, .permissive]
  tag
    | .strict => "Strict"
    | .permissive => "Permissive"
  mem_members a := by cases a <;> decide
  tags_nodup := by decide

namespace Promotion

/-- The common numeric type of two operands, where the lattice has one. -/
def lattice? : DataType → DataType → Option DataType
  | .int4, .int2 | .int4, .int4 => some .int4
  | .int4, .int8 => some .int8
  | .int4, .float4 => some .float4
  | .int4, .float8 => some .float8
  | .int8, .int2 | .int8, .int4 | .int8, .int8 => some .int8
  | .int8, .float4 | .int8, .float8 => some .float8
  | .float4, r | .float8, r => if r.isNumeric then some .float8 else none
  | _, _ => none

/-- What the strict policy adds to the lattice: a short integer may stand on the
left as it may on the right, and an untyped null takes the other side's type. -/
def strictExtra? : DataType → DataType → Option DataType
  | .int2, .int2 => some .int2
  | .int2, .null => some .int2
  | .int2, r => lattice? r .int2
  | .null, r => if r.isNumeric || r = .null then some r else none
  | l, .null => if l.isNumeric then some l else none
  | _, _ => none

/-- Whether a permissive policy falls back to the left operand's type. -/
def fallsBack (policy : PromotionPolicy) (left right : DataType) : Bool :=
  policy = .permissive && (lattice? left right).isNone

/-- The result type of arithmetic. -/
def numeric (policy : PromotionPolicy) (kind : ExprKind) (left right : DataType) :
    Except EvalError DataType :=
  match lattice? left right with
  | some t => .ok t
  | none =>
    match policy with
    | .permissive => .ok left
    | .strict =>
      match strictExtra? left right with
      | some t => .ok t
      | none => .error (.incompatible kind left right)

/-- The result type of an operator. -/
def resultType (policy : PromotionPolicy) (kind : ExprKind) (left right : DataType) :
    Except EvalError DataType :=
  if kind.isLogical || kind.isComparison then .ok .boolean
  else if kind.isArithmetic then numeric policy kind left right
  else if kind = .concatenate then .ok .text
  else .error (.unsupported kind)

end Promotion

end QueryGraph
