import QueryGraph.Proofs.Node.Inputs

/-!
# Captured trees

A captured tree is a flat list of its nodes, each alone, with a flag for every slot that
says whether it was in use.  The flags are all that is left of the structure, and they are
enough: the list of a tree tells where it ends, whatever follows it, so the inputs of a
node are found behind it one after the other, and linking them gives the tree back.

Main results:

- {lit}`Fragment.entriesOf_eq_map`: the entries of a tree are its nodes, parents first.
- {lit}`Fragment.entriesOf_append_inj`: they tell the tree, and where it ends.
- {lit}`Fragment.toTree?_capture`, {lit}`Fragment.capture_injective`: a tree is given back.
- {lit}`Fragment.capture_exact`: what is captured and what is given back.
-/

namespace QueryGraph

namespace Fragment

variable {t u : PlanNode} {rest rest' : List FragmentEntry}

/-- What was captured is given back. -/
theorem toTree?_capture (t : PlanNode) : (capture t).toTree? = some t := by
  have hlink := link_entriesOf_append t []
  rw [List.append_nil] at hlink
  exact hlink.1

/-- Different trees are captured differently. -/
theorem capture_injective : Function.Injective capture := by
  intro t u h
  have htrees := congrArg toTree? h
  rwa [toTree?_capture, toTree?_capture, Option.some.injEq] at htrees

/-! ## The entries of a tree -/

/-- The entries of the inputs follow that of a node, one input after the other. -/
theorem entriesOf_eq (n : PlanNode) :
    entriesOf n = .ofNode n :: n.inputs.flatMap fun i => entriesOf i.2 := by
  cases n with
  | leaf => rfl
  | unary i s op child => cases child <;> simp [entriesOf, PlanNode.inputs]
  | binary i s op left right =>
    cases left <;> cases right <;> simp [entriesOf, PlanNode.inputs]

/-- There is one entry for each node of a tree, parents first. -/
theorem entriesOf_eq_map (n : PlanNode) : entriesOf n = n.subtrees.map .ofNode := by
  induction n using PlanNode.induct_inputs with
  | node n ih =>
    rw [entriesOf_eq, PlanNode.subtrees_eq, List.map_cons, List.map_flatMap]
    congr 1
    exact List.flatMap_congr ih

/-- A join without a left input, over a limit without an input. -/
example : (capture (.binary 1 ⟨[]⟩ (.join .inner none) none
    (some (.unary 1 ⟨[]⟩ (.limit 3) none)))).entries.map FragmentEntry.linked =
      [[false, true], [false]] :=
  rfl

/-- Entries that start with those of a tree start with those of no other tree: linking them
gives it back. -/
theorem entriesOf_append_inj (h : entriesOf t ++ rest = entriesOf u ++ rest') :
    t = u ∧ rest = rest' := by
  have ht := link_entriesOf_append t rest
  have hu := link_entriesOf_append u rest'
  rw [← h] at hu
  obtain rfl : t = u := Option.some.inj (ht.1.symm.trans hu.1)
  exact ⟨rfl, List.append_cancel_left h⟩

/-! ## The nodes of a captured tree -/

/-- The captured nodes are all nodes of the tree, each alone, parents first. -/
theorem nodes_capture (t : PlanNode) : (capture t).nodes = t.subtrees.map PlanNode.detached := by
  unfold nodes capture
  rw [entriesOf_eq_map, List.map_map]
  rfl

/-- As many nodes are captured as the tree has. -/
theorem size_capture (t : PlanNode) : (capture t).size = t.subtrees.length := by
  unfold size capture
  rw [entriesOf_eq_map, List.length_map]

/-- The first captured node is the top of the tree. -/
theorem rootNode?_capture (t : PlanNode) : (capture t).rootNode? = some t.detached := by
  unfold rootNode?
  rw [nodes_capture, PlanNode.subtrees_eq]
  rfl

/-- No captured node has inputs. -/
theorem hasChildren_of_mem_nodes {n : PlanNode} (hn : n ∈ (capture t).nodes) :
    n.hasChildren = false := by
  rw [nodes_capture] at hn
  obtain ⟨m, -, rfl⟩ := List.mem_map.1 hn
  exact m.hasChildren_detached

/-- Capturing a tree and linking what was captured gives the tree back.  The captured nodes
are all nodes of the tree alone, parents first: there are as many, none has an input, and
the one at the top is the top of the tree. -/
theorem capture_exact (t : PlanNode) :
    (capture t).toTree? = some t ∧
      (capture t).nodes = t.subtrees.map PlanNode.detached ∧
      (capture t).size = t.subtrees.length ∧
      (∀ n ∈ (capture t).nodes, n.hasChildren = false) ∧
      (capture t).rootNode? = some t.detached :=
  ⟨toTree?_capture t, nodes_capture t, size_capture t, fun _ => hasChildren_of_mem_nodes,
    rootNode?_capture t⟩

end Fragment

end QueryGraph
