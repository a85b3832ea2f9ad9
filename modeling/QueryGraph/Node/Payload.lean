import QueryGraph.Agreement
import QueryGraph.Node.Kind
import QueryGraph.Node.Target

/-!
# Operators of plan nodes

What an operator of a plan says apart from its inputs.  Operators are grouped by
the number of inputs they have slots for, so that a node can only have the slots
of its operator.

Main definitions:

- {lit}`LeafOp`, {lit}`UnaryOp`, {lit}`BinaryOp`: the operators.
- {lit}`LeafOp.sameValue` and its companions: equality up to equal constants.

Main results:

- {lit}`LeafOp.sameValue_comm`, {lit}`LeafOp.sameValue_trans` and their companions:
  this equality is symmetric and transitive.
-/

namespace QueryGraph

/-- An operator without inputs. -/
inductive LeafOp where
  /-- Reads a relation. -/
  | scan (table : String) (aliasName : Option String)
  /-- Evaluates expressions without an input relation. -/
  | exprs (targets : List Target)
deriving DecidableEq, Repr

/-- An operator with one input. -/
inductive UnaryOp where
  /-- The top of a planned statement. -/
  | root
  /-- Computes output columns. -/
  | projection (targets : List Target)
  /-- Keeps the rows that satisfy a predicate. -/
  | selection (predicate : Expr)
  /-- Groups rows and computes aggregates. -/
  | groupBy (keys : List Column) (targets : List Target)
  /-- Keeps the groups that satisfy a predicate. -/
  | having (predicate : Expr)
  /-- Orders rows. -/
  | sort (keys : List SortKey)
  /-- Keeps so many rows at most. -/
  | limit (count : UInt64)
  /-- A nested plan used as a relation. -/
  | tableSubQuery (aliasName : String)
  /-- Stores rows in a new table. -/
  | createTable (table : String)
  /-- Adds rows to a table, or replaces its rows. -/
  | insert (table : String) (overwrite : Bool)
deriving DecidableEq, Repr

/-- An operator with two inputs. -/
inductive BinaryOp where
  | join (joinType : JoinType) (predicate : Option Expr)
  | union (all : Bool)
  | except (all : Bool)
  | intersect (all : Bool)
deriving DecidableEq, Repr

namespace LeafOp

/-- The kind of an operator. -/
def kind : LeafOp → NodeKind
  | .scan .. => .scan
  | .exprs _ => .exprs

/-- Equality up to equal constants. -/
def sameValue : LeafOp → LeafOp → Bool
  | .scan t a, .scan t' a' => t == t' && a == a'
  | .exprs ts, .exprs ts' => agreesAll Target.sameValue ts ts'
  | _, _ => false

/-- It does not matter which of two operators without inputs is compared with which. -/
theorem sameValue_comm (a b : LeafOp) : a.sameValue b = b.sameValue a := by
  cases a with
  | scan t n => cases b <;> simp [sameValue, BEq.comm (a := t), BEq.comm (a := n)]
  | exprs ts =>
    cases b with
    | scan => rfl
    | exprs ts' => exact agreesAll_comm Target.sameValue_comm ts ts'

/-- Operators without inputs that equal a third one are equal. -/
theorem sameValue_trans {a b c : LeafOp} (hab : a.sameValue b = true)
    (hbc : b.sameValue c = true) : a.sameValue c = true := by
  cases a <;> cases b <;> simp only [sameValue, Bool.false_eq_true] at hab <;>
    cases c <;> simp only [sameValue, Bool.false_eq_true] at hbc
  · simp only [Bool.and_eq_true] at hab hbc
    simp only [sameValue, Bool.and_eq_true]
    exact ⟨BEq.trans hab.1 hbc.1, BEq.trans hab.2 hbc.2⟩
  · exact agreesAll_trans hab hbc fun _ _ _ => Target.sameValue_trans

/-- Equal operators without inputs make nodes of one kind. -/
theorem kind_eq_of_sameValue {a b : LeafOp} (h : a.sameValue b = true) : a.kind = b.kind := by
  cases a <;> cases b <;> simp_all [sameValue, kind]

end LeafOp

namespace UnaryOp

/-- The kind of an operator. -/
def kind : UnaryOp → NodeKind
  | .root => .root
  | .projection _ => .projection
  | .selection _ => .selection
  | .groupBy .. => .groupBy
  | .having _ => .having
  | .sort _ => .sort
  | .limit _ => .limit
  | .tableSubQuery _ => .tableSubQuery
  | .createTable _ => .createTable
  | .insert .. => .insert

/-- Equality up to equal constants. -/
def sameValue : UnaryOp → UnaryOp → Bool
  | .root, .root => true
  | .projection ts, .projection ts' => agreesAll Target.sameValue ts ts'
  | .selection p, .selection p' => p.sameValue p'
  | .groupBy ks ts, .groupBy ks' ts' => ks == ks' && agreesAll Target.sameValue ts ts'
  | .having p, .having p' => p.sameValue p'
  | .sort ks, .sort ks' => ks == ks'
  | .limit n, .limit n' => n == n'
  | .tableSubQuery a, .tableSubQuery a' => a == a'
  | .createTable t, .createTable t' => t == t'
  | .insert t o, .insert t' o' => t == t' && o == o'
  | _, _ => false

theorem sameValue_comm (a b : UnaryOp) : a.sameValue b = b.sameValue a := by
  cases a with
  | projection ts =>
    cases b with
    | projection ts' => exact agreesAll_comm Target.sameValue_comm ts ts'
    | _ => rfl
  | groupBy ks ts =>
    cases b with
    | groupBy ks' ts' =>
      simp [sameValue, BEq.comm (a := ks), agreesAll_comm Target.sameValue_comm ts]
    | _ => rfl
  | selection p => cases b <;> simp [sameValue, Expr.sameValue_comm p]
  | having p => cases b <;> simp [sameValue, Expr.sameValue_comm p]
  | root => cases b <;> rfl
  | sort ks => cases b <;> simp [sameValue, BEq.comm (a := ks)]
  | limit n => cases b <;> simp [sameValue, BEq.comm (a := n)]
  | tableSubQuery n => cases b <;> simp [sameValue, BEq.comm (a := n)]
  | createTable t => cases b <;> simp [sameValue, BEq.comm (a := t)]
  | insert t o => cases b <;> simp [sameValue, BEq.comm (a := t), BEq.comm (a := o)]

theorem sameValue_trans {a b c : UnaryOp} (hab : a.sameValue b = true)
    (hbc : b.sameValue c = true) : a.sameValue c = true := by
  cases a <;> cases b <;> simp only [sameValue, Bool.false_eq_true] at hab <;>
    cases c <;> simp only [sameValue, Bool.false_eq_true] at hbc
  case root => rfl
  case projection => exact agreesAll_trans hab hbc fun _ _ _ => Target.sameValue_trans
  case groupBy =>
    simp only [Bool.and_eq_true] at hab hbc
    simp only [sameValue, Bool.and_eq_true]
    exact ⟨BEq.trans hab.1 hbc.1,
      agreesAll_trans hab.2 hbc.2 fun _ _ _ => Target.sameValue_trans⟩
  case selection => exact Expr.sameValue_trans hab hbc
  case having => exact Expr.sameValue_trans hab hbc
  case insert =>
    simp only [Bool.and_eq_true] at hab hbc
    simp only [sameValue, Bool.and_eq_true]
    exact ⟨BEq.trans hab.1 hbc.1, BEq.trans hab.2 hbc.2⟩
  all_goals exact BEq.trans hab hbc

/-- Equal operators with one input make nodes of one kind. -/
theorem kind_eq_of_sameValue {a b : UnaryOp} (h : a.sameValue b = true) : a.kind = b.kind := by
  cases a <;> cases b <;> simp_all [sameValue, kind]

end UnaryOp

namespace BinaryOp

/-- The kind of an operator. -/
def kind : BinaryOp → NodeKind
  | .join .. => .join
  | .union _ => .union
  | .except _ => .except
  | .intersect _ => .intersect

/-- Equality up to equal constants. -/
def sameValue : BinaryOp → BinaryOp → Bool
  | .join t p, .join t' p' => t == t' && agreesOption Expr.sameValue p p'
  | .union a, .union a' => a == a'
  | .except a, .except a' => a == a'
  | .intersect a, .intersect a' => a == a'
  | _, _ => false

/-- It does not matter which of two operators with two inputs is compared with which. -/
theorem sameValue_comm (a b : BinaryOp) : a.sameValue b = b.sameValue a := by
  cases a with
  | join t p =>
    cases b with
    | join t' p' =>
      simp [sameValue, BEq.comm (a := t), agreesOption_comm Expr.sameValue_comm p]
    | _ => rfl
  | union n => cases b <;> simp [sameValue, BEq.comm (a := n)]
  | except n => cases b <;> simp [sameValue, BEq.comm (a := n)]
  | intersect n => cases b <;> simp [sameValue, BEq.comm (a := n)]

/-- Operators with two inputs that equal a third one are equal. -/
theorem sameValue_trans {a b c : BinaryOp} (hab : a.sameValue b = true)
    (hbc : b.sameValue c = true) : a.sameValue c = true := by
  cases a <;> cases b <;> simp only [sameValue, Bool.false_eq_true] at hab <;>
    cases c <;> simp only [sameValue, Bool.false_eq_true] at hbc
  case join =>
    simp only [Bool.and_eq_true] at hab hbc
    simp only [sameValue, Bool.and_eq_true]
    exact ⟨BEq.trans hab.1 hbc.1, agreesOption_trans hab.2 hbc.2 fun _ _ _ => Expr.sameValue_trans⟩
  all_goals exact BEq.trans hab hbc

/-- Equal operators with two inputs make nodes of one kind. -/
theorem kind_eq_of_sameValue {a b : BinaryOp} (h : a.sameValue b = true) : a.kind = b.kind := by
  cases a <;> cases b <;> simp_all [sameValue, kind]

end BinaryOp

end QueryGraph
