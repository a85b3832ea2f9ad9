import QueryGraph.Plan.Query

/-!
# Comparing plans

Two plans are walked side by side from each pair of fragments.  By identity,
vertices match if they have the same identifier; by content, if they have the
same schema and operator and hang on edges of the same type.  Shared vertices are
walked once for each path to them.  A path of an acyclic graph is no longer than
there are vertices.

Main definitions:

- {lit}`Plan.sameStructure`: compares two plans.
-/

namespace QueryGraph

/-- How the vertices of two plans are matched. -/
inductive CompareMode where
  | identity
  | content
deriving DecidableEq, Repr

namespace CompareMode

/-- Whether two vertices match. -/
def sameNode : CompareMode → PlanNode → PlanNode → Bool
  | .identity, a, b => a.id == b.id
  | .content, a, b => a.sameContent b

/-- Whether two edges match. -/
def sameEdge : CompareMode → EdgeType → EdgeType → Bool
  | .identity, _, _ => true
  | .content, a, b => a == b

/-- Whether two collections of scans match. -/
def sameInputs : CompareMode → InputScans → InputScans → Bool
  | .identity, a, b => a.sameValue b
  | .content, a, b => a.sameContent b

end CompareMode

namespace Plan

/-- Whether two vertices match with all that is below them, on paths of bounded
length. -/
def sameBelow (mode : CompareMode) (a b : Plan) : Nat → NodeId → NodeId → Bool
  | 0, _, _ => false
  | bound + 1, x, y =>
    agreesOption mode.sameNode (a.vertex? x) (b.vertex? y) && (a.vertex? x).isSome &&
      agreesAll
        (fun c d => mode.sameEdge c.2 d.2 && sameBelow mode a b bound c.1 d.1)
        (a.orderedChildren x) (b.orderedChildren y)

/-- Whether two plans have the same structure. -/
def sameStructure (mode : CompareMode) (a b : Plan) : Bool :=
  a.hasJoin == b.hasJoin && a.hasUnion == b.hasUnion
    && mode.sameNode a.terminal b.terminal
    && agreesOption mode.sameInputs a.inputs b.inputs
    && agreesAll (sameBelow mode a b (a.vertexCount + 1)) a.topLevelIds b.topLevelIds

end Plan

end QueryGraph
