import QueryGraph.Expr.Octets
import QueryGraph.Node.Basic

/-!
# Binary form of plan nodes

Main definitions:

- {lit}`PlanNode.writeOctets`, {lit}`PlanNode.readOctetsWithin`: writing and reading
  a tree.
-/

namespace QueryGraph

instance : OctetFormat Target where
  octets t := octets t.expr ++ octets t.aliasName
  readOctets := do return ⟨← readOctets, ← readOctets⟩

instance : OctetFormat SortKey where
  octets k := octets k.column ++ octets k.ascending ++ octets k.nullsFirst
  readOctets := do return ⟨← readOctets, ← readOctets, ← readOctets⟩

/-- What an operator says. -/
def LeafOp.payloadOctets : LeafOp → List UInt8
  | .scan table aliasName => octets table ++ octets aliasName
  | .exprs targets => octets targets

/-- What an operator says. -/
def UnaryOp.payloadOctets : UnaryOp → List UInt8
  | .root => []
  | .projection targets => octets targets
  | .selection predicate | .having predicate => octets predicate
  | .groupBy keys targets => octets keys ++ octets targets
  | .sort keys => octets keys
  | .limit count => octets count
  | .tableSubQuery aliasName => octets aliasName
  | .createTable table => octets table
  | .insert table overwrite => octets table ++ octets overwrite

/-- What an operator says. -/
def BinaryOp.payloadOctets : BinaryOp → List UInt8
  | .join joinType predicate => octets joinType ++ octets predicate
  | .union all | .except all | .intersect all => octets all

namespace PlanNode

/-- The octets of a node before its slots. -/
def headOctets (id : NodeId) (schema : Schema) (kind : NodeKind) (payload : List UInt8) :
    List UInt8 :=
  octets id ++ octets schema ++ octets kind ++ payload

/-- Writes a tree. -/
def writeOctets : PlanNode → List UInt8
  | .leaf i s op => headOctets i s op.kind op.payloadOctets
  | .unary i s op child =>
    headOctets i s op.kind op.payloadOctets ++
      match child with
      | none => [0]
      | some c => 1 :: c.writeOctets
  | .binary i s op left right =>
    headOctets i s op.kind op.payloadOctets ++
      (match left with
        | none => [0]
        | some c => 1 :: c.writeOctets) ++
      (match right with
        | none => [0]
        | some c => 1 :: c.writeOctets)

/-- Reads a slot with the given reader for trees. -/
def readSlot (readTree : OctetReader PlanNode) : OctetReader (Option PlanNode) := do
  if (← readOctets : Bool) then return some (← readTree) else return none

/-- Reads what follows the kind of a node, with the given reader for the trees in
its slots. -/
def readPayload (readTree : OctetReader PlanNode) (id : NodeId) (schema : Schema) :
    NodeKind → OctetReader PlanNode
  | .scan => do
    let table ← readOctets
    return .leaf id schema (.scan table (← readOctets))
  | .exprs => do
    return .leaf id schema (.exprs (← readOctets))
  | .root => do
    return .unary id schema .root (← readSlot readTree)
  | .projection => do
    let targets ← readOctets
    return .unary id schema (.projection targets) (← readSlot readTree)
  | .selection => do
    let predicate ← readOctets
    return .unary id schema (.selection predicate) (← readSlot readTree)
  | .groupBy => do
    let keys ← readOctets
    let targets ← readOctets
    return .unary id schema (.groupBy keys targets) (← readSlot readTree)
  | .having => do
    let predicate ← readOctets
    return .unary id schema (.having predicate) (← readSlot readTree)
  | .sort => do
    let keys ← readOctets
    return .unary id schema (.sort keys) (← readSlot readTree)
  | .limit => do
    let count ← readOctets
    return .unary id schema (.limit count) (← readSlot readTree)
  | .tableSubQuery => do
    let aliasName ← readOctets
    return .unary id schema (.tableSubQuery aliasName) (← readSlot readTree)
  | .createTable => do
    let table ← readOctets
    return .unary id schema (.createTable table) (← readSlot readTree)
  | .insert => do
    let table ← readOctets
    let overwrite ← readOctets
    return .unary id schema (.insert table overwrite) (← readSlot readTree)
  | .join => do
    let joinType ← readOctets
    let predicate ← readOctets
    let left ← readSlot readTree
    return .binary id schema (.join joinType predicate) left (← readSlot readTree)
  | .union => do
    let all ← readOctets
    let left ← readSlot readTree
    return .binary id schema (.union all) left (← readSlot readTree)
  | .except => do
    let all ← readOctets
    let left ← readSlot readTree
    return .binary id schema (.except all) left (← readSlot readTree)
  | .intersect => do
    let all ← readOctets
    let left ← readSlot readTree
    return .binary id schema (.intersect all) left (← readSlot readTree)

/-- Reads a tree of bounded height. -/
def readOctetsWithin : Nat → OctetReader PlanNode
  | 0 => failure
  | bound + 1 => do
    let id ← readOctets
    let schema ← readOctets
    let kind ← readOctets
    readPayload (readOctetsWithin bound) id schema kind

/-- A tree takes more octets than it is high. -/
instance : OctetFormat PlanNode where
  octets := writeOctets
  readOctets input := readOctetsWithin (input.length + 1) input

end PlanNode

end QueryGraph
