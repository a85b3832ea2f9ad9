import QueryGraph.Plan.Query

/-!
# Text of a plan

A plan is written from its terminal down, one line for each vertex on each path,
indented by the length of the path and closed by the type of the edge that was
taken.  A path of an acyclic graph visits no vertex twice, so it is no longer
than there are vertices.

Main definitions:

- {lit}`Plan.linesFrom`: the lines below a vertex.
- {lit}`Plan.render`: the text.
-/

namespace QueryGraph

namespace Plan

/-- The line about a vertex at a depth. -/
def line (p : Plan) (id : NodeId) (type : Option EdgeType) (depth : Nat) : String :=
  let indent := String.ofList (List.replicate (2 * depth) ' ')
  let text := match p.vertex? id with
    | some n => n.render
    | none => "<missing " ++ toString id ++ ">"
  let mark := match type with
    | some t => " [" ++ Enumeration.tag t ++ "]"
    | none => ""
  indent ++ text ++ mark

/-- The lines of a vertex and of all paths down from it, of bounded length. -/
def linesFrom (p : Plan) : Nat → NodeId → Option EdgeType → Nat → List String
  | 0, _, _, _ => []
  | bound + 1, id, type, depth =>
    p.line id type depth ::
      (p.orderedChildren id).flatMap fun (child, edgeType) =>
        p.linesFrom bound child (some edgeType) (depth + 1)

/-- The text of a plan. -/
def render (p : Plan) : String :=
  String.join ((p.linesFrom (p.vertexCount + 1) p.terminal.id none 0).map (· ++ "\n"))

end Plan

end QueryGraph
