import QueryGraph.Graph.EdgeStore

/-!
# Topological order

The vertices that have an edge, in an order where every child comes before each
of its parents.  Vertices are taken one by one, always the first that has no
child among those left.  Where no vertex is free, all that are left have a child
among them, and walking from child to child ends on a cycle.

Main definitions:

- {lit}`EdgeStore.topologicalOrder`: the order, or a vertex of a cycle.
-/

namespace QueryGraph

namespace EdgeStore

variable {ε : Type}

/-- The vertices that have an edge. -/
def endpoints (s : EdgeStore ε) : List NodeId :=
  (s.labels.keys.flatMap fun e => [e.child, e.parent]).eraseDups

/-- A child of a vertex among those left. -/
def childAmong? (s : EdgeStore ε) (left : List NodeId) (v : NodeId) : Option NodeId :=
  (s.labels.keys.find? fun e => e.parent = v && left.contains e.child).map Ends.child

/-- Whether no child of a vertex is among those left. -/
def isFree (s : EdgeStore ε) (left : List NodeId) (v : NodeId) : Bool :=
  (s.childAmong? left v).isNone

/-- Walks so many steps from a vertex to a child among those left. -/
def descend (s : EdgeStore ε) (left : List NodeId) : Nat → NodeId → NodeId
  | 0, v => v
  | n + 1, v => s.descend left n ((s.childAmong? left v).getD v)

/-- Orders the vertices that are left.  An error carries a vertex of a cycle. -/
def orderOf (s : EdgeStore ε) (left : List NodeId) : Except NodeId (List NodeId) :=
  match h : left.find? (s.isFree left) with
  | some v => (s.orderOf (left.erase v)).map (v :: ·)
  | none =>
    match left with
    | [] => .ok []
    | v :: rest => .error (s.descend (v :: rest) (rest.length + 1) v)
termination_by left.length
decreasing_by
  have hmem := List.mem_of_find?_eq_some h
  have hpos := List.length_pos_of_mem hmem
  rw [List.length_erase_of_mem hmem]
  omega

/-- The vertices that have an edge, every child before its parents.  An error
carries a vertex of a cycle. -/
def topologicalOrder (s : EdgeStore ε) : Except NodeId (List NodeId) :=
  s.orderOf s.endpoints

end EdgeStore

end QueryGraph
