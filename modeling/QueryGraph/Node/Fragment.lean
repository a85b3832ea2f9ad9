import QueryGraph.Node.Basic

/-!
# Captured fragments

A plan keeps the trees it was given as flat lists: the nodes, each alone and
parents first, and for each node which of its slots were in use.  Reading the
list from the front rebuilds the tree: a node takes one tree from what stands
behind it for each slot that was in use.

Main definitions:

- {lit}`Fragment.capture`: flattens a tree.
- {lit}`Fragment.link`: rebuilds the tree at the front of a list of entries.
- {lit}`Fragment.toTree?`: rebuilds what was captured.

Main results:

- {lit}`Fragment.link_entriesOf_append`: the entries of a tree are linked to that tree,
  whatever stands behind them.
-/

namespace QueryGraph

/-- A captured node. -/
structure FragmentEntry where
  /-- The node alone. -/
  node : PlanNode
  /-- Which of its slots were in use. -/
  linked : List Bool
deriving Repr

/-- A tree as a flat list of its nodes. -/
structure Fragment where
  rootId : NodeId
  /-- The nodes, parents first. -/
  entries : List FragmentEntry
deriving Repr

namespace FragmentEntry

/-- The entry of a node. -/
def ofNode (n : PlanNode) : FragmentEntry :=
  ⟨n.detached, n.slots.map Option.isSome⟩

/-- Whether a slot was in use. -/
def links (e : FragmentEntry) (slot : Nat) : Bool :=
  e.linked.getD slot false

end FragmentEntry

namespace Fragment

/-- The entries of a tree. -/
def entriesOf : PlanNode → List FragmentEntry
  | n@(.leaf ..) => [.ofNode n]
  | n@(.unary _ _ _ child) =>
    .ofNode n ::
      match child with
      | none => []
      | some c => entriesOf c
  | n@(.binary _ _ _ left right) =>
    .ofNode n ::
      ((match left with
        | none => []
        | some c => entriesOf c) ++
      (match right with
        | none => []
        | some c => entriesOf c))

/-- Flattens a tree. -/
def capture (tree : PlanNode) : Fragment :=
  ⟨tree.id, entriesOf tree⟩

/-- The captured nodes, each alone. -/
def nodes (f : Fragment) : List PlanNode :=
  f.entries.map FragmentEntry.node

/-- The number of captured nodes. -/
def size (f : Fragment) : Nat :=
  f.entries.length

/-- The node at the top, alone. -/
def rootNode? (f : Fragment) : Option PlanNode :=
  f.nodes.head?

/-- The last captured node, alone. -/
def leafNode? (f : Fragment) : Option PlanNode :=
  f.nodes.getLast?

/-- What linking the entries at the front of a list comes to. -/
structure Linking (entries : List FragmentEntry) where
  /-- The tree, if there is an entry. -/
  tree : Option PlanNode
  /-- The entries behind those of the tree. -/
  rest : List FragmentEntry
  length_le : rest.length ≤ entries.length

/-- Links the entries at the front of a list: a node takes from the entries behind it one tree
for each slot that was in use, and the next slot goes on where that tree ends. -/
def link : (entries : List FragmentEntry) → Linking entries
  | [] => ⟨none, [], Nat.le_refl _⟩
  | e :: es =>
    match e.node with
    | .leaf i s op => ⟨some (.leaf i s op), es, Nat.le_succ _⟩
    | .unary i s op c =>
      let child : Linking es := if e.links 0 then link es else ⟨c, es, Nat.le_refl _⟩
      ⟨some (.unary i s op child.tree), child.rest, Nat.le_succ_of_le child.length_le⟩
    | .binary i s op l r =>
      let left : Linking es := if e.links 0 then link es else ⟨l, es, Nat.le_refl _⟩
      let right : Linking left.rest :=
        if e.links 1 then link left.rest else ⟨r, left.rest, Nat.le_refl _⟩
      ⟨some (.binary i s op left.tree right.tree), right.rest,
        Nat.le_succ_of_le (Nat.le_trans right.length_le left.length_le)⟩
termination_by entries => entries.length
decreasing_by
  · exact Nat.lt_succ_self _
  · exact Nat.lt_succ_self _
  · exact Nat.lt_succ_of_le left.length_le

/-- Rebuilds the tree. -/
def toTree? (f : Fragment) : Option PlanNode :=
  (link f.entries).tree

/-! ## Linking the entries of a tree -/

/-- What a slot takes from the entries at the front: a tree if it was in use. -/
def linkSlot (linked : Bool) (entries : List FragmentEntry) : Linking entries :=
  if linked then link entries else ⟨none, entries, Nat.le_refl _⟩

/-- The entries of what is in a slot. -/
def entriesOfSlot : Option PlanNode → List FragmentEntry
  | none => []
  | some c => entriesOf c

/-- The trees in the slots of a node are captured behind it. -/
theorem entriesOf_unary (i : NodeId) (s : Schema) (op : UnaryOp) (child : Option PlanNode) :
    entriesOf (.unary i s op child) =
      .ofNode (.unary i s op child) :: entriesOfSlot child := by
  cases child <;> rfl

/-- The left tree is captured before the right one. -/
theorem entriesOf_binary (i : NodeId) (s : Schema) (op : BinaryOp)
    (left right : Option PlanNode) :
    entriesOf (.binary i s op left right) =
      .ofNode (.binary i s op left right) :: (entriesOfSlot left ++ entriesOfSlot right) := by
  cases left <;> cases right <;> rfl

/-- Linking gives a tree and leaves the entries behind it. -/
def LinksTo {entries : List FragmentEntry} (l : Linking entries) (tree : Option PlanNode)
    (rest : List FragmentEntry) : Prop :=
  l.tree = tree ∧ l.rest = rest

/-- A node with one slot fills it from the entries behind. -/
theorem linksTo_unary {i : NodeId} {s : Schema} {op : UnaryOp} {child : Option PlanNode}
    {es rest : List FragmentEntry} (h : LinksTo (linkSlot child.isSome es) child rest) :
    LinksTo (link (.ofNode (.unary i s op child) :: es)) (some (.unary i s op child)) rest := by
  have hlink : LinksTo (link (.ofNode (.unary i s op child) :: es))
      (some (.unary i s op (linkSlot child.isSome es).tree)) (linkSlot child.isSome es).rest := by
    rw [link]
    exact ⟨rfl, rfl⟩
  rwa [h.1, h.2] at hlink

/-- A node with two slots fills the left one first. -/
theorem linksTo_binary {i : NodeId} {s : Schema} {op : BinaryOp} {left right : Option PlanNode}
    {es middle rest : List FragmentEntry} (hleft : LinksTo (linkSlot left.isSome es) left middle)
    (hright : LinksTo (linkSlot right.isSome middle) right rest) :
    LinksTo (link (.ofNode (.binary i s op left right) :: es))
      (some (.binary i s op left right)) rest := by
  have hlink : LinksTo (link (.ofNode (.binary i s op left right) :: es))
      (some (.binary i s op (linkSlot left.isSome es).tree
        (linkSlot right.isSome (linkSlot left.isSome es).rest).tree))
      (linkSlot right.isSome (linkSlot left.isSome es).rest).rest := by
    rw [link]
    exact ⟨rfl, rfl⟩
  rwa [hleft.1, hleft.2, hright.1, hright.2] at hlink

/-- A slot takes back what was captured from it. -/
theorem linkSlot_append {slot : Option PlanNode} (rest : List FragmentEntry)
    (h : ∀ c, slot = some c → LinksTo (link (entriesOf c ++ rest)) (some c) rest) :
    LinksTo (linkSlot slot.isSome (entriesOfSlot slot ++ rest)) slot rest := by
  cases slot with
  | none => exact ⟨rfl, rfl⟩
  | some c => exact h c rfl

/-- Linking the entries of a tree gives the tree, and leaves what stands behind them. -/
theorem link_entriesOf_append (tree : PlanNode) (rest : List FragmentEntry) :
    LinksTo (link (entriesOf tree ++ rest)) (some tree) rest := by
  induction tree generalizing rest with
  | leaf i s op =>
    rw [entriesOf, List.singleton_append, link]
    exact ⟨rfl, rfl⟩
  | unary i s op child ih =>
    rw [entriesOf_unary, List.cons_append]
    exact linksTo_unary (linkSlot_append rest fun c hc => ih c hc rest)
  | binary i s op left right ihl ihr =>
    rw [entriesOf_binary, List.cons_append, List.append_assoc]
    exact linksTo_binary (linkSlot_append _ fun c hc => ihl c hc _)
      (linkSlot_append rest fun c hc => ihr c hc rest)

end Fragment

end QueryGraph
