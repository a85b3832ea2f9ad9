import QueryGraph.Enumeration

/-!
# Kinds of plan nodes

The kinds of operators that a plan may hold, the slots that each kind has for its
inputs, and the types of joins.

Main definitions:

- {lit}`NodeKind`, {lit}`NodeKind.arity`: the kinds and their slots.
- {lit}`JoinType`: how a join treats rows without a partner.
-/

namespace QueryGraph

/-- How a join treats rows without a partner. -/
inductive JoinType where
  | inner
  | leftOuter
  | rightOuter
  | full
  | cross
deriving DecidableEq, Repr

instance : Enumeration JoinType where
  members := [.inner, .leftOuter, .rightOuter, .full, .cross]
  tag
    | .inner => "Inner"
    | .leftOuter => "LeftOuter"
    | .rightOuter => "RightOuter"
    | .full => "Full"
    | .cross => "Cross"
  mem_members a := by cases a <;> decide
  tags_nodup := by decide

/-- The kind of a plan node. -/
inductive NodeKind where
  | root
  | projection
  | selection
  | scan
  | join
  | groupBy
  | having
  | sort
  | limit
  | union
  | except
  | intersect
  | tableSubQuery
  | createTable
  | insert
  | exprs
deriving DecidableEq, Repr

/-- How many inputs a kind of node has slots for. -/
inductive Arity where
  | leaf
  | unary
  | binary
  /-- One slot, for a nested plan. -/
  | subPlan
deriving DecidableEq, Repr

instance : Enumeration Arity where
  members := [.leaf, .unary, .binary, .subPlan]
  tag
    | .leaf => "Leaf"
    | .unary => "Unary"
    | .binary => "Binary"
    | .subPlan => "SubPlan"
  mem_members a := by cases a <;> decide
  tags_nodup := by decide

namespace NodeKind

instance : Enumeration NodeKind where
  members :=
    [.root, .projection, .selection, .scan, .join, .groupBy, .having, .sort, .limit, .union,
      .except, .intersect, .tableSubQuery, .createTable, .insert, .exprs]
  tag
    | .root => "Root"
    | .projection => "Projection"
    | .selection => "Selection"
    | .scan => "Scan"
    | .join => "Join"
    | .groupBy => "GroupBy"
    | .having => "Having"
    | .sort => "Sort"
    | .limit => "Limit"
    | .union => "Union"
    | .except => "Except"
    | .intersect => "Intersect"
    | .tableSubQuery => "TableSubQuery"
    | .createTable => "CreateTable"
    | .insert => "Insert"
    | .exprs => "Exprs"
  mem_members a := by cases a <;> decide
  tags_nodup := by decide

/-- The name of a kind in the text of a plan. -/
def name : NodeKind → String
  | .root => "ROOT"
  | .projection => "PROJECTION"
  | .selection => "SELECTION"
  | .scan => "SCAN"
  | .join => "JOIN"
  | .groupBy => "GROUP_BY"
  | .having => "HAVING"
  | .sort => "SORT"
  | .limit => "LIMIT"
  | .union => "UNION"
  | .except => "EXCEPT"
  | .intersect => "INTERSECT"
  | .tableSubQuery => "TABLE_SUBQUERY"
  | .createTable => "CREATE_TABLE"
  | .insert => "INSERT"
  | .exprs => "EXPRS"

/-- The slots of a kind. -/
def arity : NodeKind → Arity
  | .scan | .exprs => .leaf
  | .join | .union | .except | .intersect => .binary
  | .tableSubQuery => .subPlan
  | _ => .unary

end NodeKind

end QueryGraph
