import QueryGraph.Plan.Basic

/-!
# Questions about a plan's graph

The children of a vertex are listed with left inputs first, then right ones, then
single ones, those of one type in the order in which their edges were added.

Main definitions:

- {lit}`Plan.childrenOf`, {lit}`Plan.parentsOf`: the neighbours of a vertex.
- {lit}`Plan.topLevelFragment`: the roots under the terminal.
- {lit}`Plan.removeEdge`: takes one edge out.
- {lit}`Plan.topologicalOrder`: children before parents.
-/

namespace QueryGraph

/-- What a question about a plan did not find. -/
inductive LookupError where
  | noVertex (id : NodeId)
  | noChild (parent : NodeId) (index : Nat)
  | noParent (child : NodeId) (index : Nat)
  | noEdge (child parent : NodeId)
  | noFragment (index : Nat)
deriving DecidableEq, Repr

/-- The wording of an error. -/
def LookupError.message (e : LookupError) : String :=
  "Graph lookup error: " ++
    match e with
    | .noVertex id => "no vertex with id " ++ toString id
    | .noChild parent index => "vertex " ++ toString parent ++ " has no child #" ++ toString index
    | .noParent child index => "vertex " ++ toString child ++ " has no parent #" ++ toString index
    | .noEdge child parent => "no edge from " ++ toString child ++ " to " ++ toString parent
    | .noFragment index => "no top-level fragment #" ++ toString index

namespace Plan

/-- The vertex with an identifier. -/
def vertex? (p : Plan) (id : NodeId) : Option PlanNode :=
  p.vertices.get? id

/-- The vertex with an identifier, or an error. -/
def vertex (p : Plan) (id : NodeId) : Except LookupError PlanNode :=
  match p.vertex? id with
  | some n => .ok n
  | none => .error (.noVertex id)

/-- The number of vertices. -/
def vertexCount (p : Plan) : Nat :=
  p.vertices.size

/-- The number of edges. -/
def edgeCount (p : Plan) : Nat :=
  p.edges.size

/-- The children of a vertex with the types of their edges, in the order of the
edge store. -/
def childEdges (p : Plan) (parent : NodeId) : List (NodeId × EdgeType) :=
  (p.edges.children parent).filterMap fun child =>
    (p.edges.label? child parent).map fun type => (child, type)

/-- The children of a vertex with the types of their edges: left, right, single. -/
def orderedChildren (p : Plan) (parent : NodeId) : List (NodeId × EdgeType) :=
  let children := p.childEdges parent
  children.filter (·.2 = .left) ++ children.filter (·.2 = .right)
    ++ children.filter (·.2 = .single)

/-- The children of a vertex. -/
def childrenOf (p : Plan) (parent : NodeId) : Except LookupError (List PlanNode) := do
  let _ ← p.vertex parent
  (p.orderedChildren parent).mapM fun c => p.vertex c.1

/-- The parents of a vertex. -/
def parentsOf (p : Plan) (child : NodeId) : Except LookupError (List PlanNode) := do
  let _ ← p.vertex child
  (p.edges.parents child).mapM p.vertex

/-- A child of a vertex by its index. -/
def child (p : Plan) (parent : NodeId) (index : Nat) : Except LookupError PlanNode :=
  match (p.orderedChildren parent)[index]? with
  | some c => p.vertex c.1
  | none => .error (.noChild parent index)

/-- A parent of a vertex by its index. -/
def parent (p : Plan) (child : NodeId) (index : Nat) : Except LookupError PlanNode :=
  match (p.edges.parents child)[index]? with
  | some v => p.vertex v
  | none => .error (.noParent child index)

/-- The first child of a vertex whose edge has a given type. -/
def childWithType? (p : Plan) (parent : NodeId) (type : EdgeType) : Option PlanNode :=
  ((p.orderedChildren parent).find? (·.2 = type)).bind fun c => p.vertex? c.1

/-- The number of children. -/
def childCount (p : Plan) (parent : NodeId) : Nat :=
  (p.edges.children parent).length

/-- The number of parents. -/
def parentCount (p : Plan) (child : NodeId) : Nat :=
  (p.edges.parents child).length

/-- The type of an edge. -/
def edgeType (p : Plan) (child parent : NodeId) : Except LookupError EdgeType :=
  match p.edges.label? child parent with
  | some type => .ok type
  | none => .error (.noEdge child parent)

/-- Removes an edge and gives back its type. -/
def removeEdge (p : Plan) (child parent : NodeId) : Except LookupError (EdgeType × Plan) :=
  match p.edges.remove child parent with
  | (some type, edges) => .ok (type, { p with edges })
  | (none, _) => .error (.noEdge child parent)

/-- The identifiers of the roots under the terminal. -/
def topLevelIds (p : Plan) : List NodeId :=
  p.edges.children p.terminal.id

/-- The root of a fragment under the terminal, by its index. -/
def topLevelFragment (p : Plan) (index : Nat) : Except LookupError PlanNode :=
  match p.topLevelIds[index]? with
  | some id => p.vertex id
  | none => .error (.noFragment index)

/-- The root of a fragment under the terminal, by its identifier. -/
def topLevelFragmentById? (p : Plan) (id : NodeId) : Option PlanNode :=
  if p.topLevelIds.contains id then p.vertex? id else none

/-- The schema of a fragment under the terminal. -/
def outSchema (p : Plan) (index : Nat) : Except LookupError Schema :=
  (p.topLevelFragment index).map PlanNode.schema

/-- The vertices that have an edge, or the terminal alone where there is no edge:
every child before its parents.  An error carries a vertex of a cycle. -/
def topologicalOrder (p : Plan) : Except NodeId (List NodeId) :=
  if p.edges.isEmpty then .ok [p.terminal.id] else p.edges.topologicalOrder

end Plan

end QueryGraph
