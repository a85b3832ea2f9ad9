import QueryGraph.Graph.SortedMap
import QueryGraph.Node.Content

/-!
# Input scans

The scans of a plan, kept apart by identifier for whoever resolves what they
read.

Two collections have the same content if their nodes can be paired so that the
partners agree in content.  Pairing each node with the first that agrees decides
this: all nodes that agree with it agree with each other, so it does not matter
which of them is taken, nor in what order the others are left.

Main definitions:

- {lit}`swapRemove`: takes an item out of a list and fills its place with the last.
- {lit}`InputScans.addScan`: records a scan, and ignores any other node.
- {lit}`InputScans.sameContent`: pairs two collections by content.
-/

namespace QueryGraph

/-- Takes the item at an index out of a list.  The last item moves to its place. -/
def swapRemove {α : Type} (items : List α) (index : Nat) : List α :=
  match items.getLast? with
  | none => []
  | some last => (items.set index last).dropLast

/-- Scans by identifier. -/
structure InputScans where
  scans : IdMap PlanNode
deriving Repr

namespace InputScans

/-- No scans. -/
def empty : InputScans :=
  ⟨.empty⟩

/-- Records a scan without its inputs.  Other nodes are ignored. -/
def addScan (s : InputScans) (node : PlanNode) : InputScans :=
  if node.kind = .scan then ⟨s.scans.insert node.id node.detached⟩ else s

/-- The scans in ascending order of their keys. -/
def nodes (s : InputScans) : List PlanNode :=
  s.scans.values

/-- The scan under a key. -/
def scan? (s : InputScans) (id : NodeId) : Option PlanNode :=
  s.scans.get? id

/-- Whether there is a scan under a key. -/
def contains (s : InputScans) (id : NodeId) : Bool :=
  s.scans.contains id

/-- The tables that are read. -/
def tableNames (s : InputScans) : List String :=
  s.nodes.filterMap PlanNode.tableName?

/-- The number of scans. -/
def size (s : InputScans) : Nat :=
  s.scans.size

/-- Whether there is no scan. -/
def isEmpty (s : InputScans) : Bool :=
  s.scans.entries.isEmpty

/-- Pairs every node of one list with a node of the other that agrees in content,
each with the first that is left. -/
def pairsUp : List PlanNode → List PlanNode → Bool
  | [], _ => true
  | n :: ns, unmatched =>
    match unmatched.findIdx? (·.sameContent n) with
    | some index => pairsUp ns (swapRemove unmatched index)
    | none => false

/-- Whether two collections have the same content, whatever the identifiers. -/
def sameContent (s t : InputScans) : Bool :=
  s.size == t.size && pairsUp s.nodes t.nodes

/-- Equality up to equal constants. -/
def sameValue (s t : InputScans) : Bool :=
  agreesAll (fun a b => a.1 == b.1 && a.2.sameValue b.2) s.scans.entries t.scans.entries

end InputScans

end QueryGraph
