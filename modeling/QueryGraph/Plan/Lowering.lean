import QueryGraph.Plan.Basic

/-!
# Lowering fragments into the graph

A build takes the pending fragments by ascending root.  Each is walked parents
first; every node becomes a vertex, and every input an edge.  A root inside a
fragment and an identifier that is in use already stop the build.  A fragment
enters the graph only as a whole, so one that stops the build leaves no trace,
while those before it stay.

Main definitions:

- {lit}`PlanNode.lower`: the vertices and edges of a tree, or the reason why it
  cannot be lowered.
- {lit}`Plan.commit`: adds a lowered fragment to the graph.
- {lit}`Plan.build`: lowers all pending fragments.
-/

namespace QueryGraph

/-- Why a node cannot become a vertex. -/
inductive LoweringCause where
  /-- A root stands inside a fragment. -/
  | nestedRoot
  /-- Another vertex has the same identifier. -/
  | usedIdentifier
deriving DecidableEq, Repr

/-- A node that cannot become a vertex. -/
structure LoweringError where
  kind : NodeKind
  id : NodeId
  cause : LoweringCause
deriving DecidableEq, Repr

/-- The wording of a cause. -/
def LoweringCause.message : LoweringCause → String
  | .nestedRoot => "a root node cannot appear inside a fragment"
  | .usedIdentifier => "identifier is already used by another vertex"

/-- The wording of an error. -/
def LoweringError.message (e : LoweringError) : String :=
  "Lowering error: " ++ e.kind.name ++ " node " ++ toString e.id ++ ": " ++ e.cause.message

/-- The vertices and edges of the part of a fragment that has been walked. -/
structure Lowered where
  /-- The nodes, each alone, in the order of the walk. -/
  nodes : List PlanNode
  /-- The edges in the order of the walk. -/
  edges : List (Edge EdgeType)
deriving Repr

/-- A walk that was stopped: what it had come to, and why it ended. -/
structure LoweringFailure where
  walked : List PlanNode
  error : LoweringError
deriving Repr

namespace Lowered

/-- Nothing walked yet. -/
def empty : Lowered :=
  ⟨[], []⟩

/-- Whether a vertex with this identifier has been made. -/
def uses (l : Lowered) (id : NodeId) : Bool :=
  l.nodes.any (·.id = id)

/-- Makes a node a vertex, with its slots emptied.  The test says which identifiers the
graph uses. -/
def accept (inUse : NodeId → Bool) (n : PlanNode) (l : Lowered) :
    Except LoweringFailure Lowered :=
  if n.kind = .root then .error ⟨l.nodes, n.kind, n.id, .nestedRoot⟩
  else if inUse n.id || l.uses n.id then .error ⟨l.nodes, n.kind, n.id, .usedIdentifier⟩
  else .ok { l with nodes := l.nodes ++ [n.detachChildren.1] }

/-- Makes an edge. -/
def connect (child parent : NodeId) (type : EdgeType) (l : Lowered) : Lowered :=
  { l with edges := l.edges ++ [⟨child, parent, type⟩] }

end Lowered

/-- Walks a tree, parents first: a node becomes a vertex, then the walk goes on with what its
slots held. -/
def PlanNode.walk (inUse : NodeId → Bool) : PlanNode → Lowered → Except LoweringFailure Lowered
  | .leaf i s op, l => l.accept inUse (.leaf i s op)
  | .unary i s op child, l => do
    let l ← l.accept inUse (.unary i s op child)
    match child with
    | none => .ok l
    | some c => c.walk inUse (l.connect c.id i .single)
  | .binary i s op left right, l => do
    let l ← l.accept inUse (.binary i s op left right)
    let l ← match left with
      | none => .ok l
      | some c => c.walk inUse (l.connect c.id i .left)
    match right with
    | none => .ok l
    | some c => c.walk inUse (l.connect c.id i .right)

/-- The vertices and edges of a tree, or the reason why it cannot be lowered. -/
def PlanNode.lower (inUse : NodeId → Bool) (tree : PlanNode) :
    Except LoweringFailure Lowered :=
  tree.walk inUse .empty

/-- What a build comes to. -/
structure BuildOutcome where
  /-- The plan with all fragments that could be lowered. -/
  plan : Plan
  /-- The nodes that were walked, in order. -/
  walked : List PlanNode
  /-- Why the build was stopped, if it was. -/
  failure : Option LoweringError

namespace Plan

/-- Records the scans among some nodes. -/
def recordScans (inputs : Option InputScans) (nodes : List PlanNode) : Option InputScans :=
  match nodes.filter (·.kind = .scan) with
  | [] => inputs
  | scans => some (scans.foldl InputScans.addScan (inputs.getD .empty))

/-- Adds a lowered fragment to the graph and connects its root to the terminal. -/
def commit (p : Plan) (root : NodeId) (l : Lowered) : Plan :=
  let edges := l.edges ++ [⟨root, p.terminal.id, .single⟩]
  { p with
    vertices := p.vertices.insertAll (l.nodes.map fun n => (n.id, n))
    edges := edges.foldl EdgeStore.insert p.edges
    inputs := recordScans p.inputs l.nodes
    hasJoin := p.hasJoin || l.nodes.any (·.kind = .join)
    hasUnion := p.hasUnion || l.nodes.any (·.kind = .union)
    lowered := p.lowered.insert root () }

/-- Ends a build: the fragments under the terminal are put in ascending order,
also where a later build lowered smaller ones. -/
def finish (p : Plan) : Plan :=
  { p with edges := p.edges.sortChildren p.terminal.id, built := true }

/-- Lowers fragments one after the other until one cannot be lowered. -/
def lowerAll (p : Plan) : List NodeId → BuildOutcome
  | [] => ⟨p.finish, [], none⟩
  | root :: rest =>
    match (p.fragments.get? root).bind Fragment.toTree? with
    | none => p.lowerAll rest
    | some tree =>
      match tree.lower p.vertices.contains with
      | .error f => ⟨p, f.walked, some f.error⟩
      | .ok l =>
        let outcome := (p.commit root l).lowerAll rest
        { outcome with walked := l.nodes ++ outcome.walked }

/-- Lowers all pending fragments.  A plan that is built stays as it is. -/
def build (p : Plan) : BuildOutcome :=
  if p.built then ⟨p, [], none⟩ else p.lowerAll p.pending

end Plan

end QueryGraph
