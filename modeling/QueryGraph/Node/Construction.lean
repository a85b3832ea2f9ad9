import QueryGraph.Node.Basic

/-!
# Building plan nodes

One constructor for each kind of node.  It draws the identifier from the supply
of the session and derives the schema: a source states it, targets name it, a
join puts both inputs side by side, and all other operators keep that of their
(left) input.

Main definitions:

- {lit}`PlanNode.scan`, {lit}`PlanNode.join` and so on: the constructors.
-/

namespace QueryGraph

namespace PlanNode

/-- A leaf with a fresh identifier. -/
def makeLeaf (op : LeafOp) (schema : Schema) : Planning PlanNode := do
  return .leaf (← freshId) schema op

/-- A node with one input and a fresh identifier. -/
def makeUnary (op : UnaryOp) (schema : Schema) (child : PlanNode) : Planning PlanNode := do
  return .unary (← freshId) schema op (some child)

/-- A node with two inputs and a fresh identifier. -/
def makeBinary (op : BinaryOp) (schema : Schema) (left right : PlanNode) :
    Planning PlanNode := do
  return .binary (← freshId) schema op (some left) (some right)

/-- Reads a relation, which the plan may call by another name. -/
def scan (table : String) (aliasName : Option String) (schema : Schema) : Planning PlanNode :=
  makeLeaf (.scan table aliasName) schema

/-- Evaluates expressions without an input relation. -/
def exprs (targets : List Target) : Planning PlanNode :=
  makeLeaf (.exprs targets) (targetsSchema targets)

/-- Computes output columns. -/
def projection (targets : List Target) (child : PlanNode) : Planning PlanNode :=
  makeUnary (.projection targets) (targetsSchema targets) child

/-- Keeps the rows that satisfy a predicate. -/
def selection (predicate : Expr) (child : PlanNode) : Planning PlanNode :=
  makeUnary (.selection predicate) child.schema child

/-- Groups rows and computes aggregates. -/
def groupBy (keys : List Column) (targets : List Target) (child : PlanNode) :
    Planning PlanNode :=
  makeUnary (.groupBy keys targets) (targetsSchema targets) child

/-- Keeps the groups that satisfy a predicate. -/
def having (predicate : Expr) (child : PlanNode) : Planning PlanNode :=
  makeUnary (.having predicate) child.schema child

/-- Orders rows. -/
def sort (keys : List SortKey) (child : PlanNode) : Planning PlanNode :=
  makeUnary (.sort keys) child.schema child

/-- Keeps so many rows at most. -/
def limit (count : UInt64) (child : PlanNode) : Planning PlanNode :=
  makeUnary (.limit count) child.schema child

/-- Uses a nested plan as a relation. -/
def tableSubQuery (aliasName : String) (child : PlanNode) : Planning PlanNode :=
  makeUnary (.tableSubQuery aliasName) child.schema child

/-- Stores rows in a new table. -/
def createTable (table : String) (child : PlanNode) : Planning PlanNode :=
  makeUnary (.createTable table) child.schema child

/-- Adds rows to a table, or replaces its rows. -/
def insert (table : String) (overwrite : Bool) (child : PlanNode) : Planning PlanNode :=
  makeUnary (.insert table overwrite) child.schema child

/-- Closes a statement. -/
def root (child : PlanNode) : Planning PlanNode :=
  makeUnary .root child.schema child

/-- Joins two inputs. -/
def join (joinType : JoinType) (predicate : Option Expr) (left right : PlanNode) :
    Planning PlanNode :=
  makeBinary (.join joinType predicate) (left.schema.merge right.schema) left right

/-- The rows of either input. -/
def union (all : Bool) (left right : PlanNode) : Planning PlanNode :=
  makeBinary (.union all) left.schema left right

/-- The rows of the left input that the right one lacks. -/
def except (all : Bool) (left right : PlanNode) : Planning PlanNode :=
  makeBinary (.except all) left.schema left right

/-- The rows of both inputs. -/
def intersect (all : Bool) (left right : PlanNode) : Planning PlanNode :=
  makeBinary (.intersect all) left.schema left right

end PlanNode

end QueryGraph
