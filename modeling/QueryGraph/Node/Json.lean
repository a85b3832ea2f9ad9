import QueryGraph.Expr.Json
import QueryGraph.Node.Basic

/-!
# JSON form of plan nodes

A node is a record of identifier, schema and operator.  The operator is a variant
named for its kind, and its payload a record of what it says and of its slots.

Main definitions:

- {lit}`PlanNode.writeJson`, {lit}`PlanNode.readJson?`: writing and reading a tree.
-/

namespace QueryGraph

instance : JsonFormat Target where
  toJson t := .ofRecord [("expr", toJson t.expr), ("alias", toJson t.aliasName)]
  ofJson? levels j := do
    match ← j.record? levels ["expr", "alias"] with
    | (levels, [expr, aliasName]) =>
      return ⟨← Json.required? (ofJson? levels) expr, ← Json.optional? (ofJson? levels) aliasName⟩
    | _ => none

instance : JsonFormat SortKey where
  toJson k := .ofRecord
    [("column", toJson k.column), ("ascending", toJson k.ascending),
      ("nulls_first", toJson k.nullsFirst)]
  ofJson? levels j := do
    match ← j.record? levels ["column", "ascending", "nulls_first"] with
    | (levels, [column, ascending, nullsFirst]) =>
      return ⟨← Json.required? (ofJson? levels) column,
        ← Json.required? (ofJson? levels) ascending,
        ← Json.required? (ofJson? levels) nullsFirst⟩
    | _ => none

/-! ## Writing -/

/-- What an operator says, as members. -/
def LeafOp.fields : LeafOp → List (String × Json)
  | .scan table aliasName => [("table", toJson table), ("alias", toJson aliasName)]
  | .exprs targets => [("targets", toJson targets)]

/-- What an operator says, as members. -/
def UnaryOp.fields : UnaryOp → List (String × Json)
  | .root => []
  | .projection targets => [("targets", toJson targets)]
  | .selection predicate | .having predicate => [("predicate", toJson predicate)]
  | .groupBy keys targets => [("grouping_keys", toJson keys), ("targets", toJson targets)]
  | .sort keys => [("sort_keys", toJson keys)]
  | .limit count => [("count", toJson count)]
  | .tableSubQuery aliasName => [("alias", toJson aliasName)]
  | .createTable table => [("table", toJson table)]
  | .insert table overwrite => [("table", toJson table), ("overwrite", toJson overwrite)]

/-- The name of an operator's slot. -/
def UnaryOp.slotName : UnaryOp → String
  | .tableSubQuery _ => "subquery"
  | _ => "child"

/-- What an operator says, as members. -/
def BinaryOp.fields : BinaryOp → List (String × Json)
  | .join joinType predicate =>
    [("join_type", toJson joinType), ("predicate", toJson predicate)]
  | .union all | .except all | .intersect all => [("all", toJson all)]

namespace PlanNode

/-- A node with its operator's members. -/
def recordOf (id : NodeId) (schema : Schema) (kind : NodeKind)
    (fields : List (String × Json)) : Json :=
  .ofRecord
    [("id", toJson id), ("output_schema", toJson schema),
      ("op", .ofVariant (Enumeration.tag kind) (.ofRecord fields))]

/-- Writes a tree. -/
def writeJson : PlanNode → Json
  | .leaf i s op => recordOf i s op.kind op.fields
  | .unary i s op child =>
    recordOf i s op.kind
      (op.fields ++
        [(op.slotName,
          match child with
          | none => .null
          | some c => c.writeJson)])
  | .binary i s op left right =>
    recordOf i s op.kind
      (op.fields ++
        [("left",
          match left with
          | none => .null
          | some c => c.writeJson),
        ("right",
          match right with
          | none => .null
          | some c => c.writeJson)])

/-! ## Reading -/

/-- The names of the members of an operator. -/
def memberNames : NodeKind → List String
  | .scan => ["table", "alias"]
  | .exprs => ["targets"]
  | .root => ["child"]
  | .projection => ["targets", "child"]
  | .selection | .having => ["predicate", "child"]
  | .groupBy => ["grouping_keys", "targets", "child"]
  | .sort => ["sort_keys", "child"]
  | .limit => ["count", "child"]
  | .tableSubQuery => ["alias", "subquery"]
  | .createTable => ["table", "child"]
  | .insert => ["table", "overwrite", "child"]
  | .join => ["join_type", "predicate", "left", "right"]
  | .union | .except | .intersect => ["all", "left", "right"]

open Json in
/-- Reads an operator's members, with the given reader for the trees in its
slots. -/
def readMembers? (readTree : Json → Option PlanNode) (levels : Nat) (id : NodeId)
    (schema : Schema) (kind : NodeKind) (members : List (Option Json)) : Option PlanNode :=
  let slot := optional? readTree
  match kind, members with
  | .scan, [table, aliasName] => do
    let table ← required? (ofJson? levels) table
    let aliasName ← optional? (ofJson? levels) aliasName
    return .leaf id schema (.scan table aliasName)
  | .exprs, [targets] => do
    let targets ← required? (ofJson? levels) targets
    return .leaf id schema (.exprs targets)
  | .root, [child] => do
    return .unary id schema .root (← slot child)
  | .projection, [targets, child] => do
    let targets ← required? (ofJson? levels) targets
    return .unary id schema (.projection targets) (← slot child)
  | .selection, [predicate, child] => do
    let predicate ← required? (ofJson? levels) predicate
    return .unary id schema (.selection predicate) (← slot child)
  | .groupBy, [keys, targets, child] => do
    let keys ← required? (ofJson? levels) keys
    let targets ← required? (ofJson? levels) targets
    return .unary id schema (.groupBy keys targets) (← slot child)
  | .having, [predicate, child] => do
    let predicate ← required? (ofJson? levels) predicate
    return .unary id schema (.having predicate) (← slot child)
  | .sort, [keys, child] => do
    let keys ← required? (ofJson? levels) keys
    return .unary id schema (.sort keys) (← slot child)
  | .limit, [count, child] => do
    let count ← required? (ofJson? levels) count
    return .unary id schema (.limit count) (← slot child)
  | .tableSubQuery, [aliasName, child] => do
    let aliasName ← required? (ofJson? levels) aliasName
    return .unary id schema (.tableSubQuery aliasName) (← slot child)
  | .createTable, [table, child] => do
    let table ← required? (ofJson? levels) table
    return .unary id schema (.createTable table) (← slot child)
  | .insert, [table, overwrite, child] => do
    let table ← required? (ofJson? levels) table
    let overwrite ← required? (ofJson? levels) overwrite
    return .unary id schema (.insert table overwrite) (← slot child)
  | .join, [joinType, predicate, left, right] => do
    let joinType ← required? (ofJson? levels) joinType
    let predicate ← optional? (ofJson? levels) predicate
    return .binary id schema (.join joinType predicate) (← slot left) (← slot right)
  | .union, [all, left, right] => do
    let all ← required? (ofJson? levels) all
    return .binary id schema (.union all) (← slot left) (← slot right)
  | .except, [all, left, right] => do
    let all ← required? (ofJson? levels) all
    return .binary id schema (.except all) (← slot left) (← slot right)
  | .intersect, [all, left, right] => do
    let all ← required? (ofJson? levels) all
    return .binary id schema (.intersect all) (← slot left) (← slot right)
  | _, _ => none

/-- Reads a node, with the given reader for the trees in its slots. -/
def readRecord? (readTree : Json → Option PlanNode) (levels : Nat) (j : Json) :
    Option PlanNode := do
  match ← j.record? levels ["id", "output_schema", "op"] with
  | (levels, [id, schema, op]) =>
    let id ← Json.required? (ofJson? levels) id
    let schema ← Json.required? (ofJson? levels) schema
    let op ← op
    let (levels, name, payload) ← op.variant? levels
    let kind ← Enumeration.ofTag? name
    let payload ← payload
    let (levels, members) ← payload.record? levels (memberNames kind)
    readMembers? readTree levels id schema kind members
  | _ => none

/-- Reads a tree.  The trees in the slots of a node stand three levels below it. -/
def readJson? : Nat → Json → Option PlanNode
  | levels + 3, j => readRecord? (readJson? levels) (levels + 3) j
  | _, _ => none

instance : JsonFormat PlanNode where
  toJson := writeJson
  ofJson? := readJson?

end PlanNode

end QueryGraph
