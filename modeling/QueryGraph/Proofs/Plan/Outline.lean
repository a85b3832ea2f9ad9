import QueryGraph.Plan.Text
import QueryGraph.Proofs.Plan.TreeComparison

/-!
# The text of a built plan

The text of a plan is written from the graph: from the terminal down, over the ordered
children of each vertex, without a record of where it has been.  What comes out for a plan
that was built of trees can be said without a graph.  An outline of a tree has a line for
each of its nodes, parents first, indented by the depth and marked with the input that the
node is; the text is the line of the terminal and below it the outlines of the trees, by
ascending root.  So each vertex has its line once, and the walk comes to an end by itself.

Main definitions:

- {lit}`OutlineLine`: a line about a node.
- {lit}`PlanNode.outline`: the lines about a tree.
- {lit}`Plan.outlineOf`: the lines about the trees of a plan.

Main results:

- {lit}`Plan.Embodies.linesFrom_eq`: below a vertex the walk writes the outline of its tree.
- {lit}`Plan.Embodies.perm_entries`: every vertex has one line.
- {lit}`Plan.render_buildOnce`: the text of a plan that was built once.
-/

namespace QueryGraph

/-- A line about a node: how deep it stands, and which input of the node above it is, if
there is one above. -/
structure OutlineLine where
  depth : Nat
  node : PlanNode
  type : Option EdgeType
deriving Repr

/-- The text of a line: two blanks for each level, the node, and the type in brackets. -/
def OutlineLine.text (line : OutlineLine) : String :=
  let mark := match line.type with
    | some type => " [" ++ Enumeration.tag type ++ "]"
    | none => ""
  String.ofList (List.replicate (2 * line.depth) ' ') ++ line.node.render ++ mark

namespace PlanNode

/-- The lines about a tree: its node, then its inputs in order, one level deeper. -/
def outline : PlanNode → EdgeType → Nat → List OutlineLine
  | n@(.leaf ..), type, depth => [⟨depth, n, some type⟩]
  | n@(.unary _ _ _ child), type, depth =>
    ⟨depth, n, some type⟩ ::
      match child with
      | none => []
      | some c => c.outline .single (depth + 1)
  | n@(.binary _ _ _ left right), type, depth =>
    ⟨depth, n, some type⟩ ::
      ((match left with
        | none => []
        | some c => c.outline .left (depth + 1)) ++
      (match right with
        | none => []
        | some c => c.outline .right (depth + 1)))

/-- The lines of a tree are that of its top and those of its inputs, one step further in. -/
theorem outline_eq (n : PlanNode) (type : EdgeType) (depth : Nat) :
    n.outline type depth =
      ⟨depth, n, some type⟩ :: n.inputs.flatMap fun i => i.2.outline i.1 (depth + 1) := by
  cases n with
  | leaf => rfl
  | unary i s op child => cases child <;> simp [outline, inputs]
  | binary i s op left right => cases left <;> cases right <;> simp [outline, inputs]

/-- There is one line for each node, parents first. -/
theorem map_node_outline (n : PlanNode) (type : EdgeType) (depth : Nat) :
    (n.outline type depth).map OutlineLine.node = n.subtrees := by
  induction n using induct_inputs generalizing type depth with
  | node n ih =>
    rw [outline_eq, subtrees_eq, List.map_cons, List.map_flatMap]
    congr 1
    exact List.flatMap_congr fun i hi => ih i hi i.1 (depth + 1)

end PlanNode

namespace Plan

/-- The lines about a terminal and the trees below it. -/
def outlineOf (terminal : PlanNode) (ts : List PlanNode) : List OutlineLine :=
  ⟨0, terminal, none⟩ :: ts.flatMap fun t => t.outline .single 1

variable {p : Plan} {ts : List PlanNode} {n m : PlanNode} {type : EdgeType} {bound depth : Nat}

/-- There is a line for the terminal and for each node of the trees, parents first. -/
theorem map_node_outlineOf (terminal : PlanNode) (ts : List PlanNode) :
    (outlineOf terminal ts).map OutlineLine.node = terminal :: ts.flatMap PlanNode.subtrees := by
  unfold outlineOf
  rw [List.map_cons, List.map_flatMap]
  simp only [PlanNode.map_node_outline]

/-- The line about a vertex is that about any node that it stands for. -/
theorem line_eq_text (hvertex : p.vertex? n.id = some m) (hrender : m.render = n.render)
    (type : Option EdgeType) (depth : Nat) :
    p.line n.id type depth = OutlineLine.text ⟨depth, n, type⟩ := by
  unfold line OutlineLine.text
  cases type <;> simp only [hvertex, hrender]

namespace Embodies

/-! ## The walk -/

/-- Below a vertex the walk writes the outline of its tree, if the bound allows for the
height. -/
theorem linesFrom_eq (h : p.Embodies ts) (hn : n ∈ ts.flatMap PlanNode.subtrees)
    (hbound : n.subtrees.length ≤ bound) :
    p.linesFrom bound n.id (some type) depth = (n.outline type depth).map OutlineLine.text := by
  induction n using PlanNode.induct_inputs generalizing type depth bound with
  | node n ih =>
    cases bound with
    | zero =>
      have hpos := List.length_pos_of_mem n.self_mem_subtrees
      omega
    | succ bound =>
      rw [linesFrom, line_eq_text (h.vertex?_eq hn) n.render_detached, h.orderedChildren_eq hn,
        PlanNode.outline_eq, List.map_cons, List.map_flatMap, List.flatMap_map]
      congr 1
      apply List.flatMap_congr
      intro i hi
      have hlt := PlanNode.length_subtrees_input_lt hi
      exact ih i hi (input_mem hn hi) (by omega)

/-- The ordered children of the terminal are the tops, all of them single inputs. -/
theorem orderedChildren_terminal (h : p.Embodies ts)
    (htop : p.topLevelIds = ts.map PlanNode.id) :
    p.orderedChildren p.terminal.id = ts.map fun t => (t.id, .single) := by
  have hlabel : ∀ t ∈ ts, p.edges.label? t.id p.terminal.id = some .single := by
    intro t ht
    have hlink : ⟨t.id, p.terminal.id, .single⟩ ∈ p.newEdges t :=
      mem_newEdges_iff.2 (Or.inr rfl)
    exact h.label?_of_mem (List.mem_flatMap.2 ⟨t, ht, hlink⟩)
  unfold orderedChildren
  rw [childEdges_eq_map htop hlabel]
  simp [List.filter_map, Function.comp_def]

/-- From the terminal the walk writes the outlines of all trees.  A greater bound than the
number of vertices changes nothing. -/
theorem linesFrom_terminal (h : p.Embodies ts) (htop : p.topLevelIds = ts.map PlanNode.id)
    (hbound : p.vertexCount < bound) :
    p.linesFrom bound p.terminal.id none 0 =
      (outlineOf p.terminal ts).map OutlineLine.text := by
  cases bound with
  | zero => omega
  | succ bound =>
    have hterminal : p.vertex? p.terminal.id = some p.terminal :=
      (h.vertex_iff _ _).2 (Or.inl ⟨rfl, rfl⟩)
    rw [linesFrom, line_eq_text hterminal rfl, h.orderedChildren_terminal htop, outlineOf,
      List.map_cons, List.map_flatMap, List.flatMap_map]
    congr 1
    apply List.flatMap_congr
    intro t ht
    have hle := h.length_subtrees_le ht
    exact h.linesFrom_eq (List.mem_flatMap.2 ⟨t, ht, t.self_mem_subtrees⟩) (by omega)

/-! ## Lines and vertices -/

/-- Every vertex has one line, and every line is about a vertex. -/
theorem perm_entries (h : p.Embodies ts) (hterminal : p.terminal.detached = p.terminal) :
    ((outlineOf p.terminal ts).map fun line => (line.node.id, line.node.detached)).Perm
      p.vertices.entries := by
  have hlines : ((outlineOf p.terminal ts).map fun line => (line.node.id, line.node.detached)) =
      (p.terminal :: ts.flatMap PlanNode.subtrees).map fun n => (n.id, n.detached) := by
    rw [← map_node_outlineOf, List.map_map]
    rfl
  have hids : ((p.terminal :: ts.flatMap PlanNode.subtrees).map fun n => (n.id, n.detached)).map
      Prod.fst = p.terminal.id :: ts.flatMap PlanNode.ids := by
    rw [List.map_map, List.map_cons, List.map_flatMap]
    congr 1
    exact List.flatMap_congr fun t _ => (PlanNode.ids_eq_map_subtrees t).symm
  rw [hlines]
  refine (List.perm_ext_iff_of_nodup (List.Nodup.of_map Prod.fst ?_)
    (List.Nodup.of_map Prod.fst p.vertices.nodup_keys)).2 fun ⟨i, n⟩ => ?_
  · rw [hids]
    exact List.nodup_cons.2 ⟨h.compatible.terminal_notMem, h.compatible.nodup_ids⟩
  · rw [SortedMap.mem_entries_iff, h.get?_vertices_iff, List.map_cons, List.mem_cons, hterminal,
      List.mem_map, Prod.mk.injEq]
    refine or_congr Iff.rfl ⟨?_, ?_⟩
    · rintro ⟨m, hm, heq⟩
      obtain ⟨t, ht, hm⟩ := List.mem_flatMap.1 hm
      exact ⟨t, ht, m, hm, Prod.mk.inj heq⟩
    · rintro ⟨t, ht, m, hm, hid, hdetached⟩
      exact ⟨m, List.mem_flatMap.2 ⟨t, ht, hm⟩, Prod.ext hid hdetached⟩

end Embodies

/-! ## Plans that were built once -/

/-- The lines about a new terminal and, by ascending root, the trees that were registered with
it, without the roots that close them. -/
def outlineOnce (supply : IdSupply) (trees : List PlanNode) : List OutlineLine :=
  outlineOf (newTerminal supply) (byRoot (trees.map unwrapRoot))

/-- The text of a plan that was built once, without a failure, is the line of its terminal and,
by ascending root, the outlines of its trees.  The walk that writes it comes to an end by
itself, and every vertex has one line. -/
theorem render_buildOnce {config : PlannerConfig} {supply : IdSupply} {trees : List PlanNode}
    (h : (buildOnce config supply trees).failure = none) :
    (buildOnce config supply trees).plan.render =
        String.join ((outlineOnce supply trees).map fun line => line.text ++ "\n") ∧
      (∀ bound, (buildOnce config supply trees).plan.vertexCount < bound →
        (buildOnce config supply trees).plan.linesFrom bound supply.next none 0 =
          (outlineOnce supply trees).map OutlineLine.text) ∧
      ((outlineOnce supply trees).map fun line => (line.node.id, line.node.detached)).Perm
        (buildOnce config supply trees).plan.vertices.entries := by
  obtain ⟨hembodies, htop, hterminal⟩ := embodies_buildOnce h
  have hid : (buildOnce config supply trees).plan.terminal.id = supply.next := by
    rw [hterminal]
    rfl
  have hlines : ∀ bound, (buildOnce config supply trees).plan.vertexCount < bound →
      (buildOnce config supply trees).plan.linesFrom bound supply.next none 0 =
        (outlineOnce supply trees).map OutlineLine.text := by
    intro bound hbound
    rw [← hid, hembodies.linesFrom_terminal htop hbound, hterminal]
    rfl
  refine ⟨?_, hlines, ?_⟩
  · unfold render
    rw [hid, hlines _ (Nat.lt_succ_self _), List.map_map]
    rfl
  · have hperm := hembodies.perm_entries (by rw [hterminal]; rfl)
    rw [hterminal] at hperm
    exact hperm

/-- The text of a plan with two fragments, by ascending root. -/
theorem render_buildOnce_renumbered :
    (buildOnce .standard ⟨0⟩ renumbered).failure = none ∧
      (buildOnce .standard ⟨0⟩ renumbered).plan.render =
        "ROOT(0) out: \x7b\x7d\n  JOIN(12) type: Inner [Single]\n    SCAN(11) table: a [Left]\n" ++
          "    SCAN(10) table: b [Right]\n  TABLE_SUBQUERY(20) alias: q [Single]\n" ++
          "    EXPRS(21) out: \x7b\x7d [Single]\n" := by
  have hnone : (buildOnce .standard ⟨0⟩ renumbered).failure = none := by decide +kernel
  exact ⟨hnone, (render_buildOnce hnone).1.trans rfl⟩

end Plan

end QueryGraph
