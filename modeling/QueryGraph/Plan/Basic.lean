import QueryGraph.Graph.TopologicalOrder
import QueryGraph.Node.Fragment
import QueryGraph.Plan.Config
import QueryGraph.Plan.InputScans

/-!
# Execution plans

An execution plan takes trees of logical nodes, called fragments, and turns them
into one graph.  A vertex of the graph is a node alone; the structure is in the
edges, which lead from a child to its parent and say which input the child is.
Every fragment's root leads to the terminal vertex, the only sink.

Fragments are registered first and lowered into the graph by a build.  A fragment
that has been lowered stays as it is: registering its root again changes nothing.

Main definitions:

- {lit}`Plan`: the graph, and the fragments that it is or will be made of.
- {lit}`Plan.register`: adds a fragment.
- {lit}`Plan.clear`: forgets all fragments and the whole graph.
-/

namespace QueryGraph

/-- Which input of its parent a child is. -/
inductive EdgeType where
  /-- The only input, or a fragment under the terminal. -/
  | single
  | left
  | right
deriving DecidableEq, Repr

instance : Enumeration EdgeType where
  members := [.single, .left, .right]
  tag
    | .single => "Single"
    | .left => "Left"
    | .right => "Right"
  mem_members a := by cases a <;> decide
  tags_nodup := by decide

/-- An execution plan. -/
structure Plan where
  config : PlannerConfig
  /-- The sink of the graph: a root without inputs. -/
  terminal : PlanNode
  /-- The vertices, each a node alone under its identifier. -/
  vertices : IdMap PlanNode
  edges : EdgeStore EdgeType
  /-- The scans among the vertices, once there are any. -/
  inputs : Option InputScans
  hasJoin : Bool
  hasUnion : Bool
  /-- The registered fragments by the identifier of their root. -/
  fragments : IdMap Fragment
  /-- The fragments that are part of the graph. -/
  lowered : IdSet
  /-- Whether all registered fragments are part of the graph. -/
  built : Bool
deriving Repr

namespace Plan

/-- The plan around a terminal, without fragments. -/
def ofTerminal (config : PlannerConfig) (terminal : PlanNode) : Plan where
  config
  terminal
  vertices := SortedMap.empty.insert terminal.id terminal
  edges := .empty
  inputs := none
  hasJoin := false
  hasUnion := false
  fragments := .empty
  lowered := .empty
  built := false

/-- A new plan, whose terminal has a fresh identifier. -/
def create (config : PlannerConfig) : Planning Plan := do
  return ofTerminal config (.unary (← freshId) .empty .root none)

/-- Forgets all fragments and the whole graph but its terminal. -/
def clear (p : Plan) : Plan :=
  ofTerminal p.config p.terminal

/-- A statement without the root that closes it. -/
def unwrapRoot : PlanNode → PlanNode
  | .unary _ _ .root (some c) => c
  | n => n

/-- Whether a fragment with this root is part of the graph. -/
def isLowered (p : Plan) (root : NodeId) : Bool :=
  p.lowered.contains root

/-- Registers a fragment, in place of one with the same root that is not part of
the graph yet, and gives the identifier of its root.  If the graph has a fragment
with this root already, the new one is ignored. -/
def register (p : Plan) (tree : PlanNode) : NodeId × Plan :=
  let top := unwrapRoot tree
  if p.isLowered top.id then (top.id, p)
  else
    (top.id,
      { p with fragments := p.fragments.insert top.id (Fragment.capture top), built := false })

/-- Registers a fragment as the only one. -/
def setOnly (p : Plan) (tree : PlanNode) : NodeId × Plan :=
  p.clear.register tree

/-- The registered fragments that are not part of the graph yet, by ascending
root. -/
def pending (p : Plan) : List NodeId :=
  p.fragments.keys.filter fun root => !p.isLowered root

/-- Adds an edge. -/
def addEdge (p : Plan) (e : Edge EdgeType) : Plan :=
  { p with edges := p.edges.insert e }

end Plan

end QueryGraph
