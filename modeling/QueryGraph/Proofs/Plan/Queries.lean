import QueryGraph.Proofs.Plan.Schedule

/-!
# The answers about a plan agree

Vertices and edges are stored apart, and the edges are listed from both ends, so two
questions about a plan may read different parts of it.  In every plan that can come about
they get the same answer.  The list of the children of a vertex is taken as the reference:
what a child is, how many there are, which one has an index and which one has an edge of
some type is told by the list, and so it is with the parents.

Main definitions:

- {lit}`Plan.vertexAt`, {lit}`Plan.verticesAt`: looking up one of some identifiers, or all of them.
- {lit}`Plan.NodesOf`: the vertices with some identifiers.
- {lit}`Plan.ListsChildren`, {lit}`Plan.ListsParents`: what a list says of the children or
  the parents of a vertex.
- {lit}`Plan.AnswersAgree`: all questions about neighbours agree.

Main results:

- {lit}`Plan.WellFormed.childrenOf_eq_ok_iff`, {lit}`Plan.WellFormed.parentsOf_eq_ok_iff`: every
  vertex has both lists, and nothing else has them.
- {lit}`Plan.NodesOf.listsChildren`, {lit}`Plan.NodesOf.listsParents`: what the lists say.
- {lit}`Plan.answersAgree_of_reachable`: the answers about every plan that can come about
  agree.
-/

namespace QueryGraph

namespace Plan

open EdgeStore

variable {p : Plan} {c v i : NodeId} {n : PlanNode} {ids : List NodeId} {ns : List PlanNode}
  {type : EdgeType} {e : LookupError} {k : Nat}

/-- The type of an edge is its label in the store. -/
theorem edgeType_eq_ok_iff : p.edgeType c v = .ok type ↔ p.edges.label? c v = some type := by
  unfold edgeType
  cases p.edges.label? c v <;> simp

/-- There is a type exactly for the pairs that an edge connects. -/
theorem exists_edgeType_iff : (∃ type, p.edgeType c v = .ok type) ↔ p.edges.Leads c v := by
  simp only [edgeType_eq_ok_iff]
  rw [← Option.ne_none_iff_exists', ne_eq, label?_eq_none_iff, not_not]

/-- A vertex is what the plan holds under its identifier. -/
theorem vertex_eq_ok_iff : p.vertex i = .ok n ↔ p.vertices.get? i = some n := by
  unfold vertex vertex?
  cases p.vertices.get? i <;> simp

/-- A vertex is found exactly under the identifiers in use. -/
theorem exists_vertex_iff : (∃ n, p.vertex i = .ok n) ↔ p.vertices.contains i = true := by
  simp only [vertex_eq_ok_iff]
  exact SortedMap.contains_iff.symm

/-! ## Vertices by their place -/

/-- The vertex at a place of a list of identifiers. -/
def vertexAt (p : Plan) (ids : List NodeId) (k : Nat) (e : LookupError) :
    Except LookupError PlanNode :=
  match ids[k]? with
  | some i => p.vertex i
  | none => .error e

/-- The identifiers of the children of a vertex, as they are listed. -/
def childIds (p : Plan) (v : NodeId) : List NodeId :=
  (p.orderedChildren v).map Prod.fst

/-- A child by index is the vertex at that place of the list of children. -/
theorem child_eq_vertexAt (p : Plan) (v : NodeId) (k : Nat) :
    p.child v k = p.vertexAt (p.childIds v) k (.noChild v k) := by
  unfold child vertexAt childIds
  rw [List.getElem?_map]
  cases (p.orderedChildren v)[k]? <;> rfl

/-- A parent by index is the vertex at that place of the list of parents. -/
theorem parent_eq_vertexAt (p : Plan) (c : NodeId) (k : Nat) :
    p.parent c k = p.vertexAt (p.edges.parents c) k (.noParent c k) :=
  rfl

/-- The vertices with some identifiers, where these are asked for at a vertex. -/
def verticesAt (p : Plan) (v : NodeId) (ids : List NodeId) :
    Except LookupError (List PlanNode) := do
  let _ ← p.vertex v
  ids.mapM p.vertex

/-- The children are the vertices with the listed identifiers. -/
theorem childrenOf_eq_verticesAt (p : Plan) (v : NodeId) :
    p.childrenOf v = p.verticesAt v (p.childIds v) := by
  unfold childrenOf verticesAt childIds
  rw [List.mapM_map]
  rfl

/-- The parents are the vertices with the identifiers of the parents list. -/
theorem parentsOf_eq_verticesAt (p : Plan) (c : NodeId) :
    p.parentsOf c = p.verticesAt c (p.edges.parents c) :=
  rfl

/-- The vertices with some identifiers, in the same order. -/
structure NodesOf (p : Plan) (ids : List NodeId) (ns : List PlanNode) : Prop where
  map_id : ns.map PlanNode.id = ids
  stored : ∀ n ∈ ns, p.vertices.get? n.id = some n

namespace NodesOf

/-- Identifiers that are in use all have their vertices. -/
theorem exists_mapM (h : p.WellFormed) (hids : ∀ i ∈ ids, p.vertices.contains i = true) :
    ∃ ns, ids.mapM p.vertex = .ok ns ∧ p.NodesOf ids ns := by
  induction ids with
  | nil => exact ⟨[], rfl, rfl, by simp⟩
  | cons i ids ih =>
    obtain ⟨n, hn⟩ := exists_vertex_iff.2 (hids i List.mem_cons_self)
    obtain ⟨ns, hns, hnodes⟩ := ih fun j hj => hids j (List.mem_cons_of_mem i hj)
    have hget := vertex_eq_ok_iff.1 hn
    have hid : n.id = i := h.vertex_id i n hget
    refine ⟨n :: ns, ?_, ?_, ?_⟩
    · rw [List.mapM_cons, hn, hns]
      rfl
    · rw [List.map_cons, hid, hnodes.map_id]
    · exact List.forall_mem_cons.2 ⟨hid ▸ hget, hnodes.stored⟩

/-- The vertex at a place of the identifiers is the node at that place. -/
theorem vertexAt_eq_ok_iff (h : p.NodesOf ids ns) :
    p.vertexAt ids k e = .ok n ↔ ns[k]? = some n := by
  unfold vertexAt
  rw [← h.map_id, List.getElem?_map]
  cases hk : ns[k]? with
  | none => simp
  | some m =>
    have hm := vertex_eq_ok_iff.2 (h.stored m (List.mem_of_getElem? hk))
    simp [hm]

/-- Identifiers have no more than one list of nodes. -/
theorem unique {ms : List PlanNode} (h : p.NodesOf ids ns) (hms : p.NodesOf ids ms) :
    ns = ms := by
  refine List.ext_getElem? fun k => Option.ext fun n => ?_
  rw [← h.vertexAt_eq_ok_iff (e := .noVertex 0), hms.vertexAt_eq_ok_iff]

/-- There is a vertex at every place within the list, and at no other. -/
theorem exists_vertexAt_iff (h : p.NodesOf ids ns) :
    (∃ n, p.vertexAt ids k e = .ok n) ↔ k < ids.length := by
  simp only [h.vertexAt_eq_ok_iff]
  rw [← h.map_id, List.length_map, ← Option.isSome_iff_exists]
  simp

/-- The first of the vertices whose identifier passes a test. -/
theorem find?_bind_vertex? (h : p.NodesOf ids ns) (test : NodeId → Bool) :
    (ids.find? test).bind p.vertex? = ns.find? fun n => test n.id := by
  rw [← h.map_id, List.find?_map]
  cases hfind : ns.find? (test ∘ PlanNode.id) with
  | none => exact hfind.symm
  | some n => exact (h.stored n (List.mem_of_find?_eq_some hfind)).trans hfind.symm

end NodesOf

/-! ## Children -/

/-- Listing children by type loses none and repeats none. -/
theorem perm_childIds (hp : p.edges.Coherent) (v : NodeId) :
    (p.childIds v).Perm (p.edges.children v) := by
  rw [← map_fst_childEdges hp v]
  exact (perm_byType (p.childEdges v)).map Prod.fst

/-- The listed children are those an edge leads from. -/
theorem mem_childIds_iff (hp : p.edges.Coherent) : c ∈ p.childIds v ↔ p.edges.Leads c v :=
  (perm_childIds hp v).mem_iff.trans (hp.mem_children_iff c v)

/-- As many children are listed as are counted. -/
theorem length_childIds (hp : p.edges.Coherent) (v : NodeId) :
    (p.childIds v).length = p.childCount v :=
  (perm_childIds hp v).length_eq

/-- A child is listed with the type of its edge. -/
theorem edgeType_of_mem_orderedChildren {d : NodeId × EdgeType} (hd : d ∈ p.orderedChildren v) :
    p.edgeType d.1 v = .ok d.2 :=
  edgeType_eq_ok_iff.2 (mem_childEdges_iff.1 (mem_orderedChildren_iff.1 hd)).2

/-- A child is listed with the type of its edge. -/
theorem onEdge_of_mem_orderedChildren {d : NodeId × EdgeType} (hd : d ∈ p.orderedChildren v)
    (type : EdgeType) : decide (p.edgeType d.1 v = .ok type) = decide (d.2 = type) := by
  refine decide_eq_decide.2 ?_
  rw [edgeType_of_mem_orderedChildren hd, Except.ok.injEq]

/-- Children on left edges come before those on right ones, and these before those on single
ones. -/
theorem pairwise_childIds (p : Plan) (v : NodeId) :
    (p.childIds v).Pairwise fun c d => ∀ s t, p.edgeType c v = .ok s → p.edgeType d v = .ok t →
      s.rank ≤ t.rank := by
  unfold childIds
  rw [List.pairwise_map]
  refine (pairwise_rank_byType (p.childEdges v)).imp_of_mem fun hc hd hle s t hs ht => ?_
  rw [edgeType_of_mem_orderedChildren hc, Except.ok.injEq] at hs
  rw [edgeType_of_mem_orderedChildren hd, Except.ok.injEq] at ht
  exact hs ▸ ht ▸ hle

/-- The children on edges of one type are in the order of the edge store. -/
theorem filter_childIds (hp : p.edges.Coherent) (v : NodeId) (type : EdgeType) :
    (p.childIds v).filter (p.edgeType · v = .ok type) =
      (p.edges.children v).filter (p.edgeType · v = .ok type) := by
  have hids : ∀ es : List (NodeId × EdgeType), (∀ d ∈ es, d ∈ p.orderedChildren v) →
      (es.map Prod.fst).filter (p.edgeType · v = .ok type) =
        (es.filter (·.2 = type)).map Prod.fst := by
    intro es hes
    rw [List.filter_map]
    exact congrArg _ (List.filter_congr fun d hd => onEdge_of_mem_orderedChildren (hes d hd) type)
  rw [← map_fst_childEdges hp v]
  unfold childIds
  rw [hids _ fun _ hd => hd, hids _ fun _ hd => mem_orderedChildren_iff.2 hd]
  exact congrArg _ (filter_byType (p.childEdges v) type)

/-- The child on an edge of a type is the first one listed with it. -/
theorem childWithType?_eq (p : Plan) (v : NodeId) (type : EdgeType) :
    p.childWithType? v type =
      ((p.childIds v).find? (p.edgeType · v = .ok type)).bind p.vertex? := by
  have hfind : (p.orderedChildren v).find? (·.2 = type) =
      (p.orderedChildren v).find? fun d => p.edgeType d.1 v = .ok type := by
    rw [← List.head?_filter, ← List.head?_filter]
    exact congrArg _ (List.filter_congr fun d hd => (onEdge_of_mem_orderedChildren hd type).symm)
  unfold childWithType? childIds
  rw [hfind, List.find?_map, Option.bind_map]
  rfl

/-- What a list says of the children of a vertex. -/
structure ListsChildren (p : Plan) (v : NodeId) (ns : List PlanNode) : Prop where
  stored : ∀ n ∈ ns, p.vertices.get? n.id = some n
  nodup_ids : (ns.map PlanNode.id).Nodup
  length_eq : ns.length = p.childCount v
  /-- Left inputs come before right ones, and both before single ones. -/
  types_ascend : ns.Pairwise fun m n => ∀ s t, p.edgeType m.id v = .ok s →
    p.edgeType n.id v = .ok t → s.rank ≤ t.rank
  /-- Those on edges of one type are in the order of the edge store. -/
  of_type : ∀ type, (ns.map PlanNode.id).filter (p.edgeType · v = .ok type) =
    (p.edges.children v).filter (p.edgeType · v = .ok type)
  child_iff : ∀ k n, p.child v k = .ok n ↔ ns[k]? = some n
  childWithType?_eq : ∀ type,
    p.childWithType? v type = ns.find? fun n => p.edgeType n.id v = .ok type

/-- The nodes of the listed identifiers are a list of the children. -/
theorem NodesOf.listsChildren (h : p.NodesOf (p.childIds v) ns) (hp : p.edges.Coherent) :
    p.ListsChildren v ns where
  stored := h.stored
  nodup_ids := by
    rw [h.map_id, (perm_childIds hp v).nodup_iff]
    exact hp.nodup_children v
  length_eq := by rw [← length_childIds hp, ← h.map_id, List.length_map]
  types_ascend := by
    have hids := pairwise_childIds p v
    rwa [← h.map_id, List.pairwise_map] at hids
  of_type type := by
    rw [h.map_id]
    exact filter_childIds hp v type
  child_iff k n := by
    rw [child_eq_vertexAt]
    exact h.vertexAt_eq_ok_iff
  childWithType?_eq type := by
    rw [Plan.childWithType?_eq]
    exact h.find?_bind_vertex? _

/-! ## Parents -/

/-- What a list says of the parents of a vertex. -/
structure ListsParents (p : Plan) (c : NodeId) (ns : List PlanNode) : Prop where
  stored : ∀ n ∈ ns, p.vertices.get? n.id = some n
  nodup_ids : (ns.map PlanNode.id).Nodup
  length_eq : ns.length = p.parentCount c
  ids_eq : ns.map PlanNode.id = p.edges.parents c
  parent_iff : ∀ k n, p.parent c k = .ok n ↔ ns[k]? = some n

/-- The nodes of the identifiers of the parents list are a list of the parents. -/
theorem NodesOf.listsParents (h : p.NodesOf (p.edges.parents c) ns) (hp : p.edges.Coherent) :
    p.ListsParents c ns where
  stored := h.stored
  nodup_ids := by
    rw [h.map_id]
    exact hp.nodup_parents c
  length_eq := by
    unfold parentCount
    rw [← h.map_id, List.length_map]
  ids_eq := h.map_id
  parent_iff k n := h.vertexAt_eq_ok_iff

/-! ## All answers -/

namespace WellFormed

variable (h : p.WellFormed)

include h

/-- Vertices are found exactly where they are asked for at a vertex. -/
theorem verticesAt_eq_ok_iff (hids : ∀ i ∈ ids, p.vertices.contains i = true) :
    p.verticesAt v ids = .ok ns ↔ p.vertices.contains v = true ∧ p.NodesOf ids ns := by
  unfold verticesAt
  cases hv : p.vertex v with
  | error e =>
    have hnone : p.vertices.contains v ≠ true := by
      intro hcontains
      obtain ⟨n, hn⟩ := exists_vertex_iff.2 hcontains
      rw [hv] at hn
      contradiction
    exact ⟨fun hok => by contradiction, fun hok => absurd hok.1 hnone⟩
  | ok n =>
    obtain ⟨ms, hms, hnodes⟩ := NodesOf.exists_mapM h hids
    change ids.mapM p.vertex = .ok ns ↔ _
    rw [hms, Except.ok.injEq, and_iff_right (exists_vertex_iff.1 ⟨n, hv⟩)]
    constructor
    · rintro rfl
      exact hnodes
    · exact hnodes.unique

/-- They are found at every vertex. -/
theorem exists_verticesAt_iff (hids : ∀ i ∈ ids, p.vertices.contains i = true) :
    (∃ ns, p.verticesAt v ids = .ok ns) ↔ p.vertices.contains v = true := by
  obtain ⟨ns, -, hnodes⟩ := NodesOf.exists_mapM h hids
  simp only [h.verticesAt_eq_ok_iff hids, exists_and_left]
  exact and_iff_left ⟨ns, hnodes⟩

/-- Those found have the identifiers that were asked for. -/
theorem exists_mem_verticesAt_iff (hids : ∀ i ∈ ids, p.vertices.contains i = true) :
    (∃ ns, p.verticesAt v ids = .ok ns ∧ i ∈ ns.map PlanNode.id) ↔
      p.vertices.contains v = true ∧ i ∈ ids := by
  constructor
  · rintro ⟨ns, hok, hi⟩
    obtain ⟨hv, hnodes⟩ := (h.verticesAt_eq_ok_iff hids).1 hok
    exact ⟨hv, hnodes.map_id ▸ hi⟩
  · rintro ⟨hv, hi⟩
    obtain ⟨ns, hok⟩ := (h.exists_verticesAt_iff hids).2 hv
    exact ⟨ns, hok, ((h.verticesAt_eq_ok_iff hids).1 hok).2.map_id ▸ hi⟩

/-- All children of an identifier are vertices, even where it is none itself and has no
children. -/
theorem contains_of_mem_childIds : ∀ c ∈ p.childIds v, p.vertices.contains c = true :=
  fun c hc => (h.ends_vertices c v ((mem_childIds_iff h.coherent).1 hc)).1

/-- Every parent is a vertex. -/
theorem contains_of_mem_parents : ∀ v ∈ p.edges.parents c, p.vertices.contains v = true :=
  fun v hv => (h.ends_vertices c v ((h.coherent.mem_parents_iff c v).1 hv)).2

/-- All listed children have nodes. -/
theorem exists_nodesOf_childIds (v : NodeId) : ∃ ns, p.NodesOf (p.childIds v) ns := by
  obtain ⟨ns, -, hnodes⟩ := NodesOf.exists_mapM h (h.contains_of_mem_childIds (v := v))
  exact ⟨ns, hnodes⟩

/-- The children of a vertex are listed, and of nothing else. -/
theorem childrenOf_eq_ok_iff :
    p.childrenOf v = .ok ns ↔ p.vertices.contains v = true ∧ p.NodesOf (p.childIds v) ns := by
  rw [childrenOf_eq_verticesAt]
  exact h.verticesAt_eq_ok_iff h.contains_of_mem_childIds

/-- The parents of a vertex are listed, and of nothing else. -/
theorem parentsOf_eq_ok_iff :
    p.parentsOf c = .ok ns ↔
      p.vertices.contains c = true ∧ p.NodesOf (p.edges.parents c) ns := by
  rw [parentsOf_eq_verticesAt]
  exact h.verticesAt_eq_ok_iff h.contains_of_mem_parents

/-- A vertex is listed among the children of another one if and only if there is an edge. -/
theorem listed_child_iff :
    (∃ ns, p.childrenOf v = .ok ns ∧ c ∈ ns.map PlanNode.id) ↔ p.edges.Leads c v := by
  simp only [childrenOf_eq_verticesAt]
  rw [h.exists_mem_verticesAt_iff h.contains_of_mem_childIds, mem_childIds_iff h.coherent]
  exact and_iff_right_of_imp fun hleads => (h.ends_vertices c v hleads).2

/-- So it is among the parents. -/
theorem listed_parent_iff :
    (∃ ns, p.parentsOf c = .ok ns ∧ v ∈ ns.map PlanNode.id) ↔ p.edges.Leads c v := by
  simp only [parentsOf_eq_verticesAt]
  rw [h.exists_mem_verticesAt_iff h.contains_of_mem_parents, h.coherent.mem_parents_iff]
  exact and_iff_right_of_imp fun hleads => (h.ends_vertices c v hleads).1

/-- There is a child with a type if and only if there is an edge of this type. -/
theorem exists_childWithType?_iff :
    (∃ n, p.childWithType? v type = some n) ↔ ∃ c, p.edgeType c v = .ok type := by
  obtain ⟨ns, hnodes⟩ := h.exists_nodesOf_childIds v
  rw [childWithType?_eq, hnodes.find?_bind_vertex?, ← Option.isSome_iff_exists,
    List.find?_isSome]
  simp only [decide_eq_true_eq]
  constructor
  · rintro ⟨n, -, htype⟩
    exact ⟨n.id, htype⟩
  · rintro ⟨c, htype⟩
    have hmem : c ∈ p.childIds v :=
      (mem_childIds_iff h.coherent).2 (exists_edgeType_iff.1 ⟨type, htype⟩)
    rw [← hnodes.map_id] at hmem
    obtain ⟨n, hn, rfl⟩ := List.mem_map.1 hmem
    exact ⟨n, hn, htype⟩

end WellFormed

/-- All answers about the neighbours of vertices agree. -/
structure AnswersAgree (p : Plan) : Prop where
  exists_childrenOf_iff : ∀ v, (∃ ns, p.childrenOf v = .ok ns) ↔ p.vertices.contains v = true
  exists_parentsOf_iff : ∀ c, (∃ ns, p.parentsOf c = .ok ns) ↔ p.vertices.contains c = true
  listsChildren : ∀ v ns, p.childrenOf v = .ok ns → p.ListsChildren v ns
  listsParents : ∀ c ns, p.parentsOf c = .ok ns → p.ListsParents c ns
  listed_child_iff : ∀ c v, (∃ ns, p.childrenOf v = .ok ns ∧ c ∈ ns.map PlanNode.id) ↔
    ∃ type, p.edgeType c v = .ok type
  listed_parent_iff : ∀ c v, (∃ ns, p.parentsOf c = .ok ns ∧ v ∈ ns.map PlanNode.id) ↔
    ∃ type, p.edgeType c v = .ok type
  exists_child_iff : ∀ v k, (∃ n, p.child v k = .ok n) ↔ k < p.childCount v
  exists_parent_iff : ∀ c k, (∃ n, p.parent c k = .ok n) ↔ k < p.parentCount c
  exists_childWithType?_iff : ∀ v type, (∃ n, p.childWithType? v type = some n) ↔
    ∃ c, p.edgeType c v = .ok type

/-- In a well-formed plan all answers about neighbours agree. -/
theorem WellFormed.answersAgree (h : p.WellFormed) : p.AnswersAgree where
  exists_childrenOf_iff v := by
    simp only [childrenOf_eq_verticesAt]
    exact h.exists_verticesAt_iff h.contains_of_mem_childIds
  exists_parentsOf_iff c := by
    simp only [parentsOf_eq_verticesAt]
    exact h.exists_verticesAt_iff h.contains_of_mem_parents
  listsChildren v ns hok := (h.childrenOf_eq_ok_iff.1 hok).2.listsChildren h.coherent
  listsParents c ns hok := (h.parentsOf_eq_ok_iff.1 hok).2.listsParents h.coherent
  listed_child_iff c v := h.listed_child_iff.trans exists_edgeType_iff.symm
  listed_parent_iff c v := h.listed_parent_iff.trans exists_edgeType_iff.symm
  exists_child_iff v k := by
    obtain ⟨ns, hnodes⟩ := h.exists_nodesOf_childIds v
    rw [child_eq_vertexAt, hnodes.exists_vertexAt_iff, length_childIds h.coherent]
  exists_parent_iff c k := by
    obtain ⟨ns, -, hnodes⟩ := NodesOf.exists_mapM h (h.contains_of_mem_parents (c := c))
    rw [parent_eq_vertexAt, hnodes.exists_vertexAt_iff]
    rfl
  exists_childWithType?_iff v type := h.exists_childWithType?_iff

/-- In every plan that can come about, the vertices are what has lists of children and of
parents; both lists hold the same edges, each once; the children are listed by type and then
in the order of the edge store; and the counts, the look-ups by index and by type are read
off these lists. -/
theorem answersAgree_of_reachable (h : p.Reachable) : p.AnswersAgree :=
  h.wellFormed.answersAgree

/-- The plan whose union lost its left scan: what is left is found in every way. -/
theorem answersAgree_of_reachable_cutPlan :
    cutPlan.Reachable ∧ cutPlan.AnswersAgree ∧
      ∃ ns, cutPlan.childrenOf 2 = .ok ns ∧ cutPlan.ListsChildren 2 ns ∧
        ns.map PlanNode.id = [1] := by
  have hreachable : cutPlan.Reachable := reachable_cutPlan
  have hagree : cutPlan.AnswersAgree := answersAgree_of_reachable hreachable
  obtain ⟨ns, hok⟩ := (hagree.exists_childrenOf_iff 2).2 (by decide +kernel)
  have hids : ns.map PlanNode.id = cutPlan.childIds 2 :=
    (hreachable.wellFormed.childrenOf_eq_ok_iff.1 hok).2.map_id
  exact ⟨hreachable, hagree, ns, hok, hagree.listsChildren 2 ns hok, hids.trans (by decide +kernel)⟩

end Plan

end QueryGraph
