import QueryGraph.Plan.Query

/-!
# Plans on the wire

The exchange form of a plan.  Edges are listed by child: each child has its
parents in the order in which the edges were added.  Children come in ascending
order and are replayed in it, so a rebuilt plan lists the parents of a vertex as
the plan did that was written.

A wire is accepted only if it describes a complete acyclic graph.  The checks are
made in a fixed order, and the first that fails is reported.

Main definitions:

- {lit}`Wire`: the exchange form.
- {lit}`Plan.toWire`: writes a plan.
- {lit}`Wire.check`: the checks before any edge is replayed.
- {lit}`Wire.toPlan`: rebuilds the plan and the supply of its identifiers.
-/

namespace QueryGraph

/-- A parent in the list of a child. -/
structure ParentRef where
  parent : NodeId
  edgeType : EdgeType
deriving DecidableEq, Repr

/-- The exchange form of a plan. -/
structure Wire where
  /-- The identifier that the supply hands out next. -/
  supplyState : NodeId
  hasJoin : Bool
  hasUnion : Bool
  inputs : Option InputScans
  terminal : PlanNode
  vertices : IdMap PlanNode
  /-- The parents of each child. -/
  adjacency : IdMap (List ParentRef)
deriving Repr

/-- Why a wire is not accepted. -/
inductive DecodeError where
  /-- The text is not that of a wire. -/
  | malformedText
  /-- The bytes are not those of a wire. -/
  | malformedBytes
  | terminalShape (terminal : NodeId)
  | keyMismatch (key id : NodeId)
  | linkedVertex (id : NodeId)
  | terminalConflict (id : NodeId)
  | unissuedVertex (id state : NodeId)
  | unissuedTerminal (terminal state : NodeId)
  | terminalAsChild (terminal : NodeId)
  | unknownChild (child : NodeId)
  | unknownParent (child parent : NodeId)
  | unknownScan (id : NodeId)
  | duplicateEdge (child parent : NodeId)
  | cycle (through : NodeId)
deriving DecidableEq, Repr

/-- The wording of an error. -/
def DecodeError.message (e : DecodeError) : String :=
  "Deserialization error: " ++
    match e with
    | .malformedText => "text is not a plan"
    | .malformedBytes => "bytes are not a plan"
    | .terminalShape id => "terminal " ++ toString id ++ " must be a root node without children"
    | .keyMismatch key id =>
      "vertex key " ++ toString key ++ " does not match node id " ++ toString id
    | .linkedVertex id => "vertex " ++ toString id ++ " still links its children"
    | .terminalConflict id => "vertex " ++ toString id ++ " conflicts with the terminal node"
    | .unissuedVertex id state =>
      "vertex " ++ toString id ++ " was not issued by an allocator at state " ++ toString state
    | .unissuedTerminal id state =>
      "terminal " ++ toString id ++ " was not issued by an allocator at state " ++ toString state
    | .terminalAsChild id => "terminal " ++ toString id ++ " cannot be a child"
    | .unknownChild id => "edge from unknown vertex " ++ toString id
    | .unknownParent child parent =>
      "edge from " ++ toString child ++ " to unknown vertex " ++ toString parent
    | .unknownScan id => "input scan " ++ toString id ++ " is not a vertex of the plan"
    | .duplicateEdge child parent =>
      "duplicate edge from " ++ toString child ++ " to " ++ toString parent
    | .cycle id => "adjacency contains a cycle through " ++ toString id

namespace Wire

/-- The parents of each child in an edge store. -/
def adjacencyOf (s : EdgeStore EdgeType) : IdMap (List ParentRef) :=
  s.edges.foldl (fun m e => m.push e.child ⟨e.parent, e.label⟩) .empty

/-- Equality up to equal constants. -/
def sameValue (v w : Wire) : Bool :=
  v.supplyState == w.supplyState && v.hasJoin == w.hasJoin && v.hasUnion == w.hasUnion
    && agreesOption InputScans.sameValue v.inputs w.inputs
    && v.terminal.sameValue w.terminal
    && agreesAll (fun a b => a.1 == b.1 && a.2.sameValue b.2) v.vertices.entries
        w.vertices.entries
    && v.adjacency.entries == w.adjacency.entries

/-! ## Checks -/

/-- Ends a list of checks at the first that fails. -/
def firstError : List (Option DecodeError) → Except DecodeError Unit
  | [] => .ok ()
  | some e :: _ => .error e
  | none :: rest => firstError rest

/-- An error that is reported if a test holds. -/
def errorIf (bad : Bool) (e : DecodeError) : Option DecodeError :=
  if bad then some e else none

/-- The terminal has to be a root without inputs. -/
def checkTerminal (w : Wire) : Option DecodeError :=
  errorIf (w.terminal.kind ≠ .root || w.terminal.hasChildren) (.terminalShape w.terminal.id)

/-- A vertex has to be a node alone under its own identifier, which the supply has
handed out, and may not differ from the terminal under the terminal's. -/
def checkVertex (w : Wire) (key : NodeId) (node : PlanNode) : Option DecodeError :=
  errorIf (key ≠ node.id) (.keyMismatch key node.id)
    <|> errorIf node.hasChildren (.linkedVertex key)
    <|> errorIf (key = w.terminal.id && !node.sameValue w.terminal) (.terminalConflict key)
    <|> errorIf (w.supplyState ≤ key) (.unissuedVertex key w.supplyState)

/-- The supply has to have handed out the terminal's identifier. -/
def checkIssued (w : Wire) : Option DecodeError :=
  errorIf (w.supplyState ≤ w.terminal.id) (.unissuedTerminal w.terminal.id w.supplyState)

/-- Whether an identifier is that of a vertex or of the terminal. -/
def knows (w : Wire) (id : NodeId) : Bool :=
  id = w.terminal.id || w.vertices.contains id

/-- The ends of edges have to be known, and the terminal has no parent. -/
def checkParents (w : Wire) (child : NodeId) (parents : List ParentRef) : Option DecodeError :=
  errorIf (child = w.terminal.id) (.terminalAsChild child)
    <|> errorIf (!w.knows child) (.unknownChild child)
    <|> (parents.find? fun p => !w.knows p.parent).map fun p => .unknownParent child p.parent

/-- The nodes of the input scans have to be vertices. -/
def checkInputs (w : Wire) : Option DecodeError :=
  w.inputs.bind fun inputs =>
    (inputs.nodes.find? fun n => !w.vertices.contains n.id).map fun n => .unknownScan n.id

/-- All checks that need no edge to be replayed. -/
def check (w : Wire) : Except DecodeError Unit :=
  firstError <|
    [w.checkTerminal]
      ++ w.vertices.entries.map (fun e => w.checkVertex e.1 e.2)
      ++ [w.checkIssued]
      ++ w.adjacency.entries.map (fun e => w.checkParents e.1 e.2)
      ++ [w.checkInputs]

/-! ## Rebuilding -/

/-- The edges by ascending child. -/
def edges (w : Wire) : List (Edge EdgeType) :=
  w.adjacency.entries.flatMap fun (child, parents) =>
    parents.map fun p => ⟨child, p.parent, p.edgeType⟩

/-- Adds edges, none of which may be there already. -/
def replay (s : EdgeStore EdgeType) : List (Edge EdgeType) →
    Except DecodeError (EdgeStore EdgeType)
  | [] => .ok s
  | e :: rest =>
    if s.hasEdge e.child e.parent then .error (.duplicateEdge e.child e.parent)
    else replay (s.insert e) rest

/-- The plan and the supply of a checked wire with its edges replayed. -/
def assemble (w : Wire) (config : PlannerConfig) (edges : EdgeStore EdgeType) : Plan :=
  let blank := Plan.ofTerminal config w.terminal
  { blank with
    vertices := blank.vertices.insertAll w.vertices.entries
    edges
    inputs := w.inputs
    hasJoin := w.hasJoin
    hasUnion := w.hasUnion
    built := true }

/-- Rebuilds the plan and the supply of its identifiers. -/
def toPlan (w : Wire) (config : PlannerConfig) : Except DecodeError (Plan × IdSupply) := do
  w.check
  let edges ← replay .empty w.edges
  let plan := w.assemble config edges
  match plan.topologicalOrder with
  | .error v => .error (.cycle v)
  | .ok _ => .ok (plan, ⟨w.supplyState⟩)

end Wire

/-- The exchange form of a plan whose identifiers come from a supply. -/
def Plan.toWire (p : Plan) (supply : IdSupply) : Wire where
  supplyState := supply.next
  hasJoin := p.hasJoin
  hasUnion := p.hasUnion
  inputs := p.inputs
  terminal := p.terminal
  vertices := p.vertices
  adjacency := Wire.adjacencyOf p.edges

end QueryGraph
