import QueryGraph.Proofs.Graph.ChildrenFirst
import QueryGraph.Proofs.Plan.Builds
import QueryGraph.Proofs.Plan.Children

/-!
# What holds of every plan

A plan can have been built, changed, decoded and built again.  Whatever its past,
both indexes of its edges agree, the graph has no cycle, the terminal is a sink,
and the children of a vertex ascend among those on edges of one type.

Main definitions:

- {lit}`Plan.WellFormed`: what holds of every plan.

Main results:

- {lit}`Plan.WellFormed.commitTree`: adding a tree keeps it.
- {lit}`Plan.WellFormed.build`: so does a build, wherever it ends.
- {lit}`Plan.WellFormed.register`, {lit}`Plan.WellFormed.removeEdge`: so do the
  other changes.
-/

namespace QueryGraph

namespace Plan

open EdgeStore

/-- What holds of every plan. -/
structure WellFormed (p : Plan) : Prop where
  terminal_kind : p.terminal.kind = .root
  terminal_alone : p.terminal.hasChildren = false
  terminal_vertex : p.vertices.get? p.terminal.id = some p.terminal
  vertex_id : ∀ i n, p.vertices.get? i = some n → n.id = i
  vertex_alone : ∀ i n, p.vertices.get? i = some n → n.hasChildren = false
  coherent : p.edges.Coherent
  ends_vertices : ∀ c q, p.edges.Leads c q →
    p.vertices.contains c = true ∧ p.vertices.contains q = true
  terminal_sink : ∀ q, ¬p.edges.Leads p.terminal.id q
  acyclic : p.edges.Acyclic
  ordered : ∀ v, v ≠ p.terminal.id → p.edges.Ordered v
  topLevel_ascending : p.built = true → p.topLevelIds.Pairwise (· < ·)
  scans_vertices : ∀ i n, scanAt? p.inputs i = some n → p.vertices.contains n.id = true
  captured : p.Captured

variable {p q : Plan} {t : PlanNode} {ts : List PlanNode} {error : Option LoweringError}

/-! ## Paths through an added tree -/

/-- The number of nodes below and at the node of a tree with a given identifier. -/
def heightIn (t : PlanNode) (i : NodeId) : Nat :=
  ((t.subtrees.find? (·.id = i)).map (·.subtrees.length)).getD 0

/-- The height of a node is the number of nodes from it down. -/
theorem heightIn_id (hnodup : t.ids.Nodup) {n : PlanNode} (hn : n ∈ t.subtrees) :
    heightIn t n.id = n.subtrees.length := by
  unfold heightIn
  cases hfind : t.subtrees.find? (·.id = n.id) with
  | none =>
    have hnot := List.find?_eq_none.1 hfind n hn
    simp at hnot
  | some m =>
    have hm : m ∈ t.subtrees := List.mem_of_find?_eq_some hfind
    have hid : m.id = n.id := by simpa using List.find?_some hfind
    rw [PlanNode.eq_of_id_eq hnodup hm hn hid]
    rfl

/-- Links lead up to greater heights, so the links of a tree have no cycle. -/
theorem heightIn_lt_of_mem_links (hnodup : t.ids.Nodup) {e : Edge EdgeType} (he : e ∈ t.links) :
    heightIn t e.child < heightIn t e.parent := by
  rcases PlanNode.mem_links_iff.1 he with ⟨n, hn, i, hi, rfl⟩
  change heightIn t i.2.id < heightIn t n.id
  rw [heightIn_id hnodup hn, heightIn_id hnodup (PlanNode.input_mem_subtrees hn hi)]
  exact PlanNode.length_subtrees_input_lt hi

/-- Adding a tree makes no cycle: a path through the tree goes up to its top, then to
the terminal, and never comes back. -/
theorem FreshTree.acyclic_commitTree (h : p.FreshTree t) (hacyclic : p.edges.Acyclic) :
    (p.commitTree t).edges.Acyclic := by
  rcases hacyclic.exists_rank with ⟨rank, hrank, -⟩
  refine acyclic_of_rank
    (fun i => if i ∈ t.ids then heightIn t i else heightIn t t.id + 1 + rank i) ?_
  intro c q hleads
  rcases leads_commitTree_iff.1 hleads with hold | ⟨e, he, rfl, rfl⟩
  · have hc : c ∉ t.ids := fun hmem => h.not_leads_of_mem hmem q hold
    have hq : q ∉ t.ids := fun hmem => h.not_leads_to_mem hmem c hold
    rw [if_neg hc, if_neg hq]
    have hlt := hrank c q hold
    omega
  · rcases mem_newEdges_iff.1 he with he | rfl
    · rw [if_pos (PlanNode.child_mem_ids he), if_pos (PlanNode.parent_mem_ids he)]
      exact heightIn_lt_of_mem_links h.nodup_ids he
    · rw [if_pos (PlanNode.id_mem_ids t.self_mem_subtrees), if_neg h.terminal_notMem]
      change heightIn t t.id < heightIn t t.id + 1 + rank p.terminal.id
      omega

/-! ## Removing an edge -/

/-- Nothing but an edge goes away when one is removed. -/
theorem eq_of_removeEdge {child parent : NodeId} {type : EdgeType}
    (h : p.removeEdge child parent = .ok (type, q)) :
    q = { p with edges := (p.edges.remove child parent).2 } := by
  unfold removeEdge at h
  split at h
  · next heq =>
    cases h
    rw [heq]
  · contradiction

/-- Only an edge that is there can be removed. -/
theorem leads_of_removeEdge {child parent : NodeId} {type : EdgeType}
    (h : p.removeEdge child parent = .ok (type, q)) : p.edges.Leads child parent := by
  by_contra hnot
  unfold removeEdge at h
  rw [remove_of_not_leads hnot] at h
  contradiction

/-! ## The order of children -/

/-- The children of a new vertex are on edges of different types. -/
theorem FreshTree.ordered_commitTree_of_mem (h : p.FreshTree t) {i : NodeId} (hi : i ∈ t.ids) :
    (p.commitTree t).edges.Ordered i := by
  rcases PlanNode.mem_ids_iff.1 hi with ⟨n, hn, rfl⟩
  have hlabel : ∀ j ∈ n.inputs, (p.commitTree t).edges.label? j.2.id n.id = some j.1 := by
    intro j hj
    have hlink : ⟨j.2.id, n.id, j.1⟩ ∈ p.newEdges t :=
      mem_newEdges_iff.2 (Or.inl (PlanNode.mem_links_iff.2 ⟨n, hn, j, hj, rfl⟩))
    exact label?_of_parentEdges_eq (h.parentEdges_commitTree_of_mem hlink)
  unfold Ordered
  rw [h.children_commitTree_of_mem hn, List.pairwise_map]
  apply (List.pairwise_map.1 n.nodup_types).imp_of_mem
  intro j k hj hk hne heq
  rw [hlabel j hj, hlabel k hk, Option.some.injEq] at heq
  exact absurd heq hne

/-- The children of an old vertex stay as they are. -/
theorem FreshTree.ordered_commitTree_of_notMem (h : p.FreshTree t) {i : NodeId} (hi : i ∉ t.ids)
    (hterminal : i ≠ p.terminal.id) (hordered : p.edges.Ordered i) :
    (p.commitTree t).edges.Ordered i := by
  apply hordered.congr (h.children_commitTree_of_notMem hi hterminal)
  intro c hc
  refine label?_congr h.coherent_commitTree h.coherent
    (h.parentEdges_commitTree_of_notMem fun hmem => ?_)
  exact h.not_leads_of_mem hmem i ((h.coherent.mem_children_iff c i).1 hc)

namespace WellFormed

/-- The terminal is a vertex. -/
theorem terminal_contained (h : p.WellFormed) : p.vertices.contains p.terminal.id = true :=
  SortedMap.contains_iff.2 ⟨p.terminal, h.terminal_vertex⟩

/-- The roots of the fragments under the terminal are vertices. -/
theorem contains_of_mem_topLevelIds (h : p.WellFormed) {c : NodeId} (hc : c ∈ p.topLevelIds) :
    p.vertices.contains c = true :=
  (h.ends_vertices c p.terminal.id ((h.coherent.mem_children_iff c _).1 hc)).1

/-! ## New plans -/

theorem ofTerminal (config : PlannerConfig) {n : PlanNode} (hkind : n.kind = .root)
    (halone : n.hasChildren = false) : (ofTerminal config n).WellFormed where
  terminal_kind := hkind
  terminal_alone := halone
  terminal_vertex := SortedMap.get?_insert_self _ _ _
  vertex_id i m hget := by
    change (SortedMap.empty.insert n.id n).get? i = some m at hget
    rw [SortedMap.get?_insert] at hget
    split at hget
    · next hid =>
      cases hget
      exact hid
    · simp at hget
  vertex_alone i m hget := by
    change (SortedMap.empty.insert n.id n).get? i = some m at hget
    rw [SortedMap.get?_insert] at hget
    split at hget
    · cases hget
      exact halone
    · simp at hget
  coherent := coherent_empty
  ends_vertices c q hleads := absurd hleads not_leads_empty
  terminal_sink q := not_leads_empty
  acyclic := acyclic_of_rank (fun _ => 0) fun c q hleads => absurd hleads not_leads_empty
  ordered v _ := List.Pairwise.nil
  topLevel_ascending hbuilt := absurd hbuilt Bool.false_ne_true
  scans_vertices i m hscan := by simp [scanAt?, Plan.ofTerminal] at hscan
  captured root f hf := by simp [Plan.ofTerminal] at hf

theorem create (config : PlannerConfig) (supply : IdSupply) :
    (create config supply).1.WellFormed :=
  ofTerminal config rfl rfl

theorem clear (h : p.WellFormed) : p.clear.WellFormed :=
  ofTerminal p.config h.terminal_kind h.terminal_alone

/-! ## Registering and removing -/

/-- A pending tree is not part of the graph, so registering one keeps a plan well-formed. -/
theorem register (h : p.WellFormed) (tree : PlanNode) : (p.register tree).2.WellFormed := by
  cases hlowered : p.isLowered (unwrapRoot tree).id with
  | true =>
    rw [register_of_isLowered hlowered]
    exact h
  | false =>
    rw [register_of_not_isLowered hlowered]
    exact
      { h with
        topLevel_ascending := fun hbuilt => absurd hbuilt Bool.false_ne_true
        captured := h.captured.insert rfl }

theorem setOnly (h : p.WellFormed) (tree : PlanNode) : (p.setOnly tree).2.WellFormed :=
  h.clear.register tree

/-- Removing an edge keeps a plan well-formed: there are fewer paths, and the vertices stay. -/
theorem removeEdge (h : p.WellFormed) {child parent : NodeId} {type : EdgeType}
    (hremove : p.removeEdge child parent = .ok (type, q)) : q.WellFormed := by
  have hq : q = { p with edges := (p.edges.remove child parent).2 } := eq_of_removeEdge hremove
  subst hq
  have hkept : ∀ c q, (p.edges.remove child parent).2.Leads c q → p.edges.Leads c q :=
    fun c q hleads => (leads_remove_iff.1 hleads).1
  refine
    { h with
      coherent := h.coherent.remove child parent
      ends_vertices := fun c q hleads => h.ends_vertices c q (hkept c q hleads)
      terminal_sink := fun q hleads => h.terminal_sink q (hkept _ q hleads)
      acyclic := h.acyclic.mono hkept
      ordered := fun v hv => (h.ordered v hv).remove h.coherent child parent
      topLevel_ascending := fun hbuilt => ?_ }
  change ((p.edges.remove child parent).2.children p.terminal.id).Pairwise (· < ·)
  rw [children_remove h.coherent]
  split
  · exact (h.topLevel_ascending hbuilt).filter _
  · exact h.topLevel_ascending hbuilt

/-! ## Adding a tree -/

/-- The identifiers of a tree that can be lowered are new to the graph. -/
theorem freshTree (h : p.WellFormed) (hlow : t.Lowerable p.vertices.contains) :
    p.FreshTree t where
  coherent := h.coherent
  nodup_ids := hlow.nodup_ids
  terminal_notMem hmem := by
    have hfree := hlow.free_ids _ hmem
    rw [h.terminal_contained] at hfree
    contradiction
  no_parents i hi := by
    rw [List.eq_nil_iff_forall_not_mem]
    rintro ⟨q, type⟩ hmem
    have hvertex := (h.ends_vertices i q ((leads_iff h.coherent).2 ⟨type, hmem⟩)).1
    rw [hlow.free_ids i hi] at hvertex
    contradiction
  no_children i hi := by
    rw [List.eq_nil_iff_forall_not_mem]
    intro c hmem
    have hvertex := (h.ends_vertices c i ((h.coherent.mem_children_iff c i).1 hmem)).2
    rw [hlow.free_ids i hi] at hvertex
    contradiction

/-- A tree that can be lowered becomes part of a well-formed plan. -/
theorem commitTree (h : p.WellFormed) (hbuilt : p.built = false)
    (hlow : t.Lowerable p.vertices.contains) : (p.commitTree t).WellFormed := by
  have hfresh := h.freshTree hlow
  have hcontains : ∀ i, (p.commitTree t).vertices.contains i = true ↔
      p.vertices.contains i = true ∨ i ∈ t.ids := fun i =>
    contains_vertices_commitTree hlow.nodup_ids
  have hvertex : ∀ i n, (p.commitTree t).vertices.get? i = some n ↔
      (n ∈ t.preorder ∧ n.id = i) ∨ (i ∉ t.ids ∧ p.vertices.get? i = some n) := fun i n =>
    get?_vertices_commitTree_iff hlow.nodup_ids
  exact
    { terminal_kind := h.terminal_kind
      terminal_alone := h.terminal_alone
      terminal_vertex :=
        (hvertex _ _).2 (Or.inr ⟨hfresh.terminal_notMem, h.terminal_vertex⟩)
      vertex_id := by
        intro i n hget
        rcases (hvertex i n).1 hget with ⟨-, hid⟩ | ⟨-, hold⟩
        · exact hid
        · exact h.vertex_id i n hold
      vertex_alone := by
        intro i n hget
        rcases (hvertex i n).1 hget with ⟨hn, -⟩ | ⟨-, hold⟩
        · rcases PlanNode.mem_preorder_iff.1 hn with ⟨m, -, rfl⟩
          exact PlanNode.hasChildren_detached m
        · exact h.vertex_alone i n hold
      coherent := hfresh.coherent_commitTree
      ends_vertices := by
        intro c q hleads
        rw [hcontains, hcontains]
        rcases leads_commitTree_iff.1 hleads with hold | ⟨e, he, rfl, rfl⟩
        · exact ⟨Or.inl (h.ends_vertices c q hold).1, Or.inl (h.ends_vertices c q hold).2⟩
        · refine ⟨Or.inr (child_mem_ids_of_mem_newEdges he), ?_⟩
          rcases mem_newEdges_iff.1 he with he | rfl
          · exact Or.inr (PlanNode.parent_mem_ids he)
          · exact Or.inl h.terminal_contained
      terminal_sink := by
        intro q hleads
        rcases leads_commitTree_iff.1 hleads with hold | ⟨e, he, hchild, -⟩
        · exact h.terminal_sink q hold
        · apply hfresh.terminal_notMem
          change e.child = p.terminal.id at hchild
          exact hchild ▸ child_mem_ids_of_mem_newEdges he
      acyclic := hfresh.acyclic_commitTree h.acyclic
      ordered := by
        intro v hv
        by_cases hmem : v ∈ t.ids
        · exact hfresh.ordered_commitTree_of_mem hmem
        · exact hfresh.ordered_commitTree_of_notMem hmem hv (h.ordered v hv)
      topLevel_ascending := by
        intro hb
        rw [built_commitTree, hbuilt] at hb
        contradiction
      scans_vertices := by
        intro i n hscan
        rw [hcontains]
        rw [inputs_commitTree, scanAt?_recordScans_iff hlow.nodup_ids] at hscan
        rcases hscan with ⟨m, hm, -, -, rfl⟩ | ⟨-, hold⟩
        · rw [PlanNode.id_detached]
          exact Or.inr (List.mem_map_of_mem hm)
        · exact Or.inl (h.scans_vertices i n hold)
      captured := h.captured }

/-! ## Building -/

/-- The end of a build puts the fragments in the order that a built plan has to have. -/
theorem finish (h : p.WellFormed) : p.finish.WellFormed :=
  { h with
    coherent := h.coherent.sortChildren p.terminal.id
    ends_vertices := fun c q hleads =>
      h.ends_vertices c q ((leads_sortChildren p.edges p.terminal.id).1 hleads)
    terminal_sink := fun q hleads =>
      h.terminal_sink q ((leads_sortChildren p.edges p.terminal.id).1 hleads)
    acyclic := h.acyclic.mono fun c q hleads =>
      (leads_sortChildren p.edges p.terminal.id).1 hleads
    ordered := by
      intro v hv
      refine (h.ordered v hv).congr ?_ fun c _ => label?_sortChildren p.edges p.terminal.id
      change (p.edges.sortChildren p.terminal.id).children v = p.edges.children v
      exact (children_sortChildren _ _ _).trans (if_neg (Ne.symm hv))
    topLevel_ascending := fun _ => pairwise_children_sortChildren h.coherent p.terminal.id }

/-- Wherever a build has come to and however it goes on, it keeps what holds of every
plan. -/
theorem lowersTo (h : p.WellFormed) (hbuilt : p.built = false) (hto : LowersTo p ts q error) :
    q.WellFormed := by
  induction hto with
  | done p => exact h.finish
  | step hlow _ ih => exact ih (h.commitTree hbuilt hlow) hbuilt
  | stop _ => exact h

/-- A build keeps a plan well-formed, also one that fails: the trees that it adds can be
lowered. -/
theorem build (h : p.WellFormed) : p.build.plan.WellFormed := by
  cases hbuilt : p.built with
  | true =>
    rw [build_of_built hbuilt]
    exact h
  | false => exact h.lowersTo hbuilt (h.captured.lowersTo_build hbuilt)

end WellFormed

end Plan

end QueryGraph
