import QueryGraph.Proofs.Plan.Registered

/-!
# Nothing is lost, nothing is added

The graph that is built from compatible trees holds exactly what the trees say: a
vertex for each node, what each slot held as the child of that type, one edge from
each top to the terminal, and the scans by identifier.

Main definitions:

- {lit}`PlanNode.slot?`: what the slot for a type of edge held.

Main results:

- {lit}`Plan.Embodies.childWithType?_eq`: the children of a vertex are what the slots
  of its node held.
- {lit}`Plan.Embodies.mem_edges_iff`: the edges are those that the slots and the tops
  need.
- {lit}`Plan.buildOnce_lossless`: what is built from compatible trees.
-/

namespace QueryGraph

namespace PlanNode

/-- What the slot for a type of edge held: the only slot of an operator or of a nested
plan, or the left or the right one. -/
def slot? (n : PlanNode) : EdgeType → Option PlanNode
  | .single => n.child?.or n.subQuery?
  | .left => n.left?
  | .right => n.right?

variable {n c : PlanNode} {type : EdgeType}

/-- The inputs of a node are what its slots hold, each with the type of its slot. -/
theorem mem_inputs_iff : (type, c) ∈ n.inputs ↔ n.slot? type = some c := by
  cases n with
  | leaf i s op => cases type <;> simp [inputs, slot?, child?, subQuery?, left?, right?]
  | unary i s op child =>
    cases type with
    | single => cases op <;> simp [inputs, slot?, child?, subQuery?, eq_comm]
    | left => simp [inputs, slot?, left?]
    | right => simp [inputs, slot?, right?]
  | binary i s op left right =>
    cases type <;> simp [inputs, slot?, child?, subQuery?, left?, right?, eq_comm]

/-- A scan has no slots. -/
theorem detached_of_kind_scan (h : n.kind = .scan) : n.detached = n := by
  cases n with
  | leaf => rfl
  | unary i s op child => cases op <;> simp [kind, UnaryOp.kind] at h
  | binary i s op left right => cases op <;> simp [kind, BinaryOp.kind] at h

end PlanNode

namespace Plan

open EdgeStore

variable {p : Plan} {ts : List PlanNode} {n : PlanNode} {type : EdgeType}

/-- Trees that are taken apart give their nodes alone. -/
theorem mem_flatMap_preorder_iff {m : PlanNode} :
    m ∈ ts.flatMap PlanNode.preorder ↔ ∃ t ∈ ts, ∃ n ∈ t.subtrees, n.detached = m := by
  simp only [List.mem_flatMap, PlanNode.mem_preorder_iff]

/-- Taking trees apart keeps the kinds of their nodes. -/
theorem exists_mem_preorder_iff {kind : NodeKind} :
    (∃ n ∈ ts.flatMap PlanNode.preorder, n.kind = kind) ↔
      ∃ t ∈ ts, ∃ n ∈ t.subtrees, n.kind = kind := by
  simp only [mem_flatMap_preorder_iff]
  constructor
  · rintro ⟨m, ⟨t, ht, n, hn, rfl⟩, hkind⟩
    rw [PlanNode.kind_detached] at hkind
    exact ⟨t, ht, n, hn, hkind⟩
  · rintro ⟨t, ht, n, hn, hkind⟩
    exact ⟨n.detached, ⟨t, ht, n, hn, rfl⟩, by rw [PlanNode.kind_detached, hkind]⟩

/-- The children of a vertex with their types, where both are known. -/
theorem childEdges_eq_map {α : Type} {v : NodeId} {list : List α} {child : α → NodeId}
    {type : α → EdgeType} (hchildren : p.edges.children v = list.map child)
    (hlabel : ∀ a ∈ list, p.edges.label? (child a) v = some (type a)) :
    p.childEdges v = list.map fun a => (child a, type a) := by
  unfold childEdges
  rw [hchildren, List.filterMap_map, ← List.filterMap_eq_map]
  apply List.filterMap_congr
  intro a ha
  simp [hlabel a ha]

namespace Embodies

/-- The link of an input is an edge of the graph, with the type of its slot. -/
theorem label?_of_mem (h : p.Embodies ts) {e : Edge EdgeType} (he : e ∈ ts.flatMap p.newEdges) :
    p.edges.label? e.child e.parent = some e.label :=
  label?_of_parentEdges_eq (h.parents_of_mem e he)

/-- The children of a vertex are the inputs of its node, with their types. -/
theorem childEdges_eq (h : p.Embodies ts) (hn : n ∈ ts.flatMap PlanNode.subtrees) :
    p.childEdges n.id = n.inputs.map fun i => (i.2.id, i.1) := by
  obtain ⟨t, ht, hnt⟩ := List.mem_flatMap.1 hn
  refine childEdges_eq_map (h.children_of_mem n hn) fun i hi => ?_
  have hlink : ⟨i.2.id, n.id, i.1⟩ ∈ p.newEdges t :=
    mem_newEdges_iff.2 (Or.inl (PlanNode.mem_links_iff.2 ⟨n, hnt, i, hi, rfl⟩))
  exact h.label?_of_mem (List.mem_flatMap.2 ⟨t, ht, hlink⟩)

/-- Every node of the trees is a vertex, without its inputs. -/
theorem vertex?_eq (h : p.Embodies ts) (hn : n ∈ ts.flatMap PlanNode.subtrees) :
    p.vertex? n.id = some n.detached := by
  rcases List.mem_flatMap.1 hn with ⟨t, ht, hn⟩
  refine (h.vertex_iff _ _).2 (Or.inr ⟨?_, PlanNode.id_detached n⟩)
  exact mem_flatMap_preorder_iff.2 ⟨t, ht, n, hn, rfl⟩

/-- The child of a type is what the slot for it held, alone. -/
theorem childWithType?_eq (h : p.Embodies ts) (hn : n ∈ ts.flatMap PlanNode.subtrees)
    (type : EdgeType) : p.childWithType? n.id type = (n.slot? type).map PlanNode.detached := by
  have hmem : ∀ c, (c, type) ∈ p.orderedChildren n.id ↔ ∃ m, n.slot? type = some m ∧ m.id = c := by
    intro c
    rw [mem_orderedChildren_iff, h.childEdges_eq hn, List.mem_map]
    constructor
    · rintro ⟨⟨type', m⟩, hm, heq⟩
      rw [Prod.mk.injEq] at heq
      rcases heq with ⟨rfl, rfl⟩
      exact ⟨m, PlanNode.mem_inputs_iff.1 hm, rfl⟩
    · rintro ⟨m, hm, rfl⟩
      exact ⟨(type, m), PlanNode.mem_inputs_iff.2 hm, rfl⟩
  unfold childWithType?
  cases hfind : (p.orderedChildren n.id).find? (·.2 = type) with
  | none =>
    cases hslot : n.slot? type with
    | none => rfl
    | some m =>
      have hnot := List.find?_eq_none.1 hfind _ ((hmem m.id).2 ⟨m, hslot, rfl⟩)
      simp at hnot
  | some e =>
    rcases e with ⟨c, type'⟩
    obtain rfl : type' = type := by simpa using List.find?_some hfind
    rcases (hmem c).1 (List.mem_of_find?_eq_some hfind) with ⟨m, hslot, rfl⟩
    have hm : m ∈ ts.flatMap PlanNode.subtrees := by
      rcases List.mem_flatMap.1 hn with ⟨t, ht, hn⟩
      exact List.mem_flatMap.2
        ⟨t, ht, PlanNode.input_mem_subtrees hn (PlanNode.mem_inputs_iff.2 hslot)⟩
    rw [hslot, Option.map_some, ← h.vertex?_eq hm]
    rfl

/-- The vertices are the terminal and every node of a tree, alone. -/
theorem get?_vertices_iff (h : p.Embodies ts) {i : NodeId} {m : PlanNode} :
    p.vertices.get? i = some m ↔
      (i = p.terminal.id ∧ m = p.terminal) ∨
        ∃ t ∈ ts, ∃ n ∈ t.subtrees, n.id = i ∧ n.detached = m := by
  rw [h.vertex_iff, mem_flatMap_preorder_iff]
  refine or_congr Iff.rfl ⟨?_, ?_⟩
  · rintro ⟨⟨t, ht, n, hn, rfl⟩, rfl⟩
    exact ⟨t, ht, n, hn, (PlanNode.id_detached n).symm, rfl⟩
  · rintro ⟨t, ht, n, hn, rfl, rfl⟩
    exact ⟨⟨t, ht, n, hn, rfl⟩, PlanNode.id_detached n⟩

/-- The edges are those that the trees and their tops need. -/
theorem mem_edges_iff_mem_newEdges (h : p.Embodies ts) {e : Edge EdgeType} :
    e ∈ p.edges.edges ↔ e ∈ ts.flatMap p.newEdges := by
  rw [EdgeStore.mem_edges_iff]
  constructor
  · intro hmem
    by_cases hi : e.child ∈ ts.flatMap PlanNode.ids
    · rcases exists_mem_newEdges (p := p) hi with ⟨d, hd, hchild⟩
      rw [← hchild, h.parents_of_mem d hd, List.mem_singleton, Prod.mk.injEq] at hmem
      have heq : e = d := by
        cases e
        cases d
        simp only [Edge.mk.injEq]
        exact ⟨hchild.symm, hmem⟩
      exact heq ▸ hd
    · rw [h.no_parents _ hi] at hmem
      exact absurd hmem List.not_mem_nil
  · intro he
    rw [h.parents_of_mem e he]
    exact List.mem_singleton.2 rfl

/-- The edges are those from what a slot held to its node, and those from the tops to
the terminal. -/
theorem mem_edges_iff (h : p.Embodies ts) {e : Edge EdgeType} :
    e ∈ p.edges.edges ↔
      (∃ t ∈ ts, ∃ n ∈ t.subtrees, ∃ type c, n.slot? type = some c ∧ e = ⟨c.id, n.id, type⟩) ∨
        ∃ t ∈ ts, e = ⟨t.id, p.terminal.id, .single⟩ := by
  rw [h.mem_edges_iff_mem_newEdges, List.mem_flatMap]
  simp only [mem_newEdges_iff, PlanNode.mem_links_iff]
  constructor
  · rintro ⟨t, ht, ⟨n, hn, ⟨type, c⟩, hi, rfl⟩ | rfl⟩
    · exact Or.inl ⟨t, ht, n, hn, type, c, PlanNode.mem_inputs_iff.1 hi, rfl⟩
    · exact Or.inr ⟨t, ht, rfl⟩
  · intro hcase
    rcases hcase with ⟨t, ht, n, hn, type, c, hslot, rfl⟩ | ⟨t, ht, rfl⟩
    · exact ⟨t, ht, Or.inl ⟨n, hn, (type, c), PlanNode.mem_inputs_iff.2 hslot, rfl⟩⟩
    · exact ⟨t, ht, Or.inr rfl⟩

/-- Every vertex but the terminal has one parent. -/
theorem parentCount_eq_one (h : p.Embodies ts) {i : NodeId}
    (hi : p.vertices.contains i = true) (hterminal : i ≠ p.terminal.id) : p.parentCount i = 1 := by
  have hmem := (h.contains_iff.1 hi).resolve_left hterminal
  rcases exists_mem_newEdges (p := p) hmem with ⟨e, he, rfl⟩
  unfold parentCount
  rw [← map_fst_parentEdges h.coherent, h.parents_of_mem e he]
  rfl

/-- No scan is recorded if and only if there is none. -/
theorem inputs_eq_none_iff_forall (h : p.Embodies ts) :
    p.inputs = none ↔ ∀ t ∈ ts, ∀ n ∈ t.subtrees, n.kind ≠ .scan := by
  have hscan : (∃ n ∈ ts.flatMap PlanNode.preorder, n.kind = .scan) ↔
      ∃ t ∈ ts, ∃ n ∈ t.subtrees, n.kind = .scan :=
    exists_mem_preorder_iff
  rw [h.inputs_eq_none_iff]
  constructor
  · intro hnone t ht n hn hkind
    rcases hscan.2 ⟨t, ht, n, hn, hkind⟩ with ⟨m, hm, hkind⟩
    exact hnone m hm hkind
  · intro hnone m hm hkind
    rcases hscan.1 ⟨m, hm, hkind⟩ with ⟨t, ht, n, hn, hkind⟩
    exact hnone t ht n hn hkind

/-- The recorded scans are those of the trees by identifier. -/
theorem scan?_eq_some_iff (h : p.Embodies ts) {scans : InputScans} (hscans : p.inputs = some scans)
    {i : NodeId} :
    scans.scan? i = some n ↔ (∃ t ∈ ts, n ∈ t.subtrees) ∧ n.kind = .scan ∧ n.id = i := by
  have hscan := h.scan_iff i n
  rw [hscans] at hscan
  refine hscan.trans (and_congr_left fun hkind => ?_)
  rw [mem_flatMap_preorder_iff]
  constructor
  · rintro ⟨t, ht, m, hm, rfl⟩
    rw [PlanNode.kind_detached] at hkind
    rw [PlanNode.detached_of_kind_scan hkind.1]
    exact ⟨t, ht, hm⟩
  · rintro ⟨t, ht, hn⟩
    exact ⟨t, ht, n, hn, PlanNode.detached_of_kind_scan hkind.1⟩

end Embodies

/-- Building compatible trees once succeeds.  The vertices are the terminal and every
node of a tree alone; the child of each type is what the slot for it held, alone; the
edges are those from what a slot held to its node and those from the tops to the
terminal, and every vertex but the terminal has one parent; joins, unions and scans are
recorded if and only if some tree has them. -/
theorem buildOnce_lossless (config : PlannerConfig) (supply : IdSupply) {trees : List PlanNode}
    (htrees : Compatible supply.next (trees.map unwrapRoot)) :
    (buildOnce config supply trees).failure = none ∧
    (∀ i m, (buildOnce config supply trees).plan.vertices.get? i = some m ↔
      (i = supply.next ∧ m = newTerminal supply) ∨
        ∃ t ∈ trees.map unwrapRoot, ∃ n ∈ t.subtrees, n.id = i ∧ n.detached = m) ∧
    (∀ t ∈ trees.map unwrapRoot, ∀ n ∈ t.subtrees, ∀ type,
      (buildOnce config supply trees).plan.childWithType? n.id type =
        (n.slot? type).map PlanNode.detached) ∧
    (∀ e, e ∈ (buildOnce config supply trees).plan.edges.edges ↔
      (∃ t ∈ trees.map unwrapRoot, ∃ n ∈ t.subtrees, ∃ type c,
        n.slot? type = some c ∧ e = ⟨c.id, n.id, type⟩) ∨
      ∃ t ∈ trees.map unwrapRoot, e = ⟨t.id, supply.next, .single⟩) ∧
    (∀ i, (buildOnce config supply trees).plan.vertices.contains i = true → i ≠ supply.next →
      (buildOnce config supply trees).plan.parentCount i = 1) ∧
    ((buildOnce config supply trees).plan.hasJoin = true ↔
      ∃ t ∈ trees.map unwrapRoot, ∃ n ∈ t.subtrees, n.kind = .join) ∧
    ((buildOnce config supply trees).plan.hasUnion = true ↔
      ∃ t ∈ trees.map unwrapRoot, ∃ n ∈ t.subtrees, n.kind = .union) ∧
    ((buildOnce config supply trees).plan.inputs = none ↔
      ∀ t ∈ trees.map unwrapRoot, ∀ n ∈ t.subtrees, n.kind ≠ .scan) ∧
    ∀ scans, (buildOnce config supply trees).plan.inputs = some scans → ∀ i n,
      scans.scan? i = some n ↔
        (∃ t ∈ trees.map unwrapRoot, n ∈ t.subtrees) ∧ n.kind = .scan ∧ n.id = i := by
  have hcompatible : Compatible (newTerminal supply).id (trees.map unwrapRoot) := htrees
  have hembodies : (buildOnce config supply trees).plan.Embodies (trees.map unwrapRoot) := by
    rw [buildOnce_eq]
    exact hcompatible.embodies_build_ofTrees
  have hterminal : (buildOnce config supply trees).plan.terminal = newTerminal supply := by
    rw [buildOnce_eq, hcompatible.build_ofTrees.1]
    exact terminal_commitTrees _ _
  have hid : (buildOnce config supply trees).plan.terminal.id = supply.next := by
    rw [hterminal]
    rfl
  refine ⟨?_, fun i m => ?_, fun t ht n hn type => ?_, fun e => ?_, fun i hi hne => ?_, ?_, ?_,
    hembodies.inputs_eq_none_iff_forall, fun scans hscans i n => hembodies.scan?_eq_some_iff hscans⟩
  · rw [buildOnce_eq]
    exact hcompatible.build_ofTrees.2
  · rw [hembodies.get?_vertices_iff, hid, hterminal]
  · exact hembodies.childWithType?_eq (List.mem_flatMap.2 ⟨t, ht, hn⟩) type
  · rw [hembodies.mem_edges_iff, hid]
  · exact hembodies.parentCount_eq_one hi (hid ▸ hne)
  · rw [hembodies.hasJoin_iff, exists_mem_preorder_iff]
  · rw [hembodies.hasUnion_iff, exists_mem_preorder_iff]

/-- A join of two scans. -/
def scanJoin : PlanNode :=
  .binary 2 ⟨[]⟩ (.join .inner none) (some (.leaf 0 ⟨[]⟩ (.scan "a" none)))
    (some (.leaf 1 ⟨[]⟩ (.scan "b" none)))

/-- A join under a root, and a nested plan. -/
def joinAndSubQuery : List PlanNode :=
  [.unary 9 ⟨[]⟩ .root (some scanJoin),
    .unary 3 ⟨[]⟩ (.tableSubQuery "q") (some (.leaf 4 ⟨[]⟩ (.exprs [])))]

/-- The right input of the join is found on the right edge of its vertex. -/
theorem buildOnce_lossless_joinAndSubQuery :
    Compatible 7 (joinAndSubQuery.map unwrapRoot) ∧
      (buildOnce .standard ⟨7⟩ joinAndSubQuery).failure = none ∧
      (buildOnce .standard ⟨7⟩ joinAndSubQuery).plan.childWithType? 2 .right =
        some (.leaf 1 ⟨[]⟩ (.scan "b" none)) := by
  have hcompatible : Compatible 7 (joinAndSubQuery.map unwrapRoot) :=
    ⟨by decide, by decide, by decide⟩
  have hlossless := buildOnce_lossless .standard ⟨7⟩ hcompatible
  refine ⟨hcompatible, hlossless.1, ?_⟩
  exact hlossless.2.2.1 scanJoin List.mem_cons_self scanJoin scanJoin.self_mem_subtrees .right

end Plan

end QueryGraph
