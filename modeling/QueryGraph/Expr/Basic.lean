import QueryGraph.Catalog.Schema
import QueryGraph.Datum.Basic
import QueryGraph.Expr.Promotion

/-!
# Expressions

An expression is a constant, a column, or an operator on two expressions.  An
operator carries the type of its result, which is fixed when it is built.

Main definitions:

- {lit}`Expr.binary?`: builds and types an operator.
- {lit}`Expr.valueType`: the type of the result, known before anything is
  evaluated.
- {lit}`Expr.render`: the text of an expression, where nested operators stand in
  parentheses.

Main results:

- {lit}`Expr.sameValue_comm`, {lit}`Expr.sameValue_trans`: equality up to equal
  constants is symmetric and transitive.
-/

namespace QueryGraph

/-- An expression over the columns of a row. -/
inductive Expr where
  | const (value : Datum)
  | field (column : Column)
  | binary (kind : ExprKind) (left right : Expr) (valueType : DataType)
deriving DecidableEq, Repr

namespace Expr

/-- The kind of the topmost node. -/
def kind : Expr → ExprKind
  | .const _ => .const
  | .field _ => .field
  | .binary k _ _ _ => k

/-- The type of the result. -/
def valueType : Expr → DataType
  | .const d => d.dataType
  | .field c => c.dataType
  | .binary _ _ _ t => t

/-- An operator on two expressions, typed by a policy. -/
def binary? (policy : PromotionPolicy) (kind : ExprKind) (left right : Expr) :
    Except EvalError Expr :=
  if kind.isBinary then do
    let t ← Promotion.resultType policy kind left.valueType right.valueType
    .ok (.binary kind left right t)
  else .error (.unsupported kind)

/-- Puts a text in parentheses. -/
def parenthesize (text : String) : String :=
  "(" ++ text ++ ")"

/-- Whether the topmost node is an operator. -/
def isOperator : Expr → Bool
  | .binary .. => true
  | _ => false

/-- The text of an expression. -/
def render : Expr → String
  | .const d => d.render
  | .field c => c.name
  | .binary k l r _ => operand l ++ " " ++ k.symbol ++ " " ++ operand r
where
  /-- The text of an operand. -/
  operand (e : Expr) : String :=
    if e.isOperator then parenthesize e.render else e.render

/-- Equality up to constants that are equal as values. -/
def sameValue : Expr → Expr → Bool
  | .const a, .const b => a.sameValue b
  | .field a, .field b => a == b
  | .binary k l r t, .binary k' l' r' t' =>
    k == k' && l.sameValue l' && r.sameValue r' && t == t'
  | _, _ => false

theorem sameValue_comm (a b : Expr) : a.sameValue b = b.sameValue a := by
  induction a generalizing b with
  | const d => cases b <;> simp [sameValue, Datum.sameValue_comm]
  | field c => cases b <;> simp [sameValue, BEq.comm (a := c)]
  | binary k l r t ihl ihr =>
    cases b with
    | binary k' l' r' t' =>
      simp [sameValue, ihl l', ihr r', BEq.comm (a := k), BEq.comm (a := t)]
    | _ => rfl

/-- Expressions that equal a third one are equal. -/
theorem sameValue_trans {a b c : Expr} (hab : a.sameValue b = true)
    (hbc : b.sameValue c = true) : a.sameValue c = true := by
  induction a generalizing b c with
  | const d =>
    cases b <;> simp only [sameValue, Bool.false_eq_true] at hab
    cases c <;> simp only [sameValue, Bool.false_eq_true] at hbc
    exact Datum.sameValue_trans hab hbc
  | field d =>
    cases b <;> simp only [sameValue, Bool.false_eq_true] at hab
    cases c <;> simp only [sameValue, Bool.false_eq_true] at hbc
    exact BEq.trans hab hbc
  | binary k l r t ihl ihr =>
    cases b <;> simp only [sameValue, Bool.false_eq_true] at hab
    cases c <;> simp only [sameValue, Bool.false_eq_true] at hbc
    simp only [Bool.and_eq_true] at hab hbc
    obtain ⟨⟨⟨hk, hl⟩, hr⟩, ht⟩ := hab
    obtain ⟨⟨⟨hk', hl'⟩, hr'⟩, ht'⟩ := hbc
    simp only [sameValue, Bool.and_eq_true]
    exact ⟨⟨⟨BEq.trans hk hk', ihl hl hl'⟩, ihr hr hr'⟩, BEq.trans ht ht'⟩

end Expr

end QueryGraph
