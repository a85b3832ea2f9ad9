import QueryGraph.Proofs.Graph.EdgeIndex
import QueryGraph.Proofs.Plan.FirstClash

/-!
# Adding a whole tree to the graph

A tree whose identifiers are new to a plan enters its graph without touching what
is there: each node gets the vertex, the parent and the children that the tree
gives it, the top gets the terminal as its parent, and the terminal gets one more
child at the end.

Main definitions:

- {lit}`Plan.commitTree`, {lit}`Plan.commitTrees`: the plan with trees added.
- {lit}`Plan.FreshTree`: no identifier of a tree is part of the graph's edges.

Main results:

- {lit}`Plan.parentEdges_commitTree_of_mem`,
  {lit}`Plan.children_commitTree_of_mem`: the edges at the nodes of the tree.
- {lit}`Plan.parentEdges_commitTree_of_notMem`,
  {lit}`Plan.children_commitTree_of_notMem`: all other edges stay.
-/

namespace QueryGraph

/-- Where no two items have the same mark, one item alone has its mark. -/
theorem filter_eq_singleton {α β : Type} [DecidableEq β] {list : List α} {f : α → β} {a : α}
    (hnodup : (list.map f).Nodup) (ha : a ∈ list) : list.filter (fun b => f b = f a) = [a] := by
  induction list with
  | nil => simp at ha
  | cons b list ih =>
    rw [List.map_cons, List.nodup_cons] at hnodup
    rcases List.mem_cons.1 ha with rfl | ha
    · rw [List.filter_cons_of_pos (by simp), List.filter_eq_nil_iff.2]
      intro c hc hmark
      exact hnodup.1 (of_decide_eq_true hmark ▸ List.mem_map_of_mem hc)
    · have hne : f b ≠ f a := fun heq => hnodup.1 (heq ▸ List.mem_map_of_mem ha)
      rw [List.filter_cons_of_neg (by simpa using hne), ih hnodup.2 ha]

/-- The nodes of a tree that is taken apart have no inputs. -/
theorem PlanNode.detached_of_mem_preorder {n t : PlanNode} (hn : n ∈ t.preorder) :
    n.detached = n := by
  rcases mem_preorder_iff.1 hn with ⟨m, -, rfl⟩
  exact detached_detached m

namespace Plan

/-- The plan with all nodes and links of a tree in its graph. -/
def commitTree (p : Plan) (t : PlanNode) : Plan :=
  p.commit t.id ⟨t.preorder, t.links⟩

/-- The plan with many trees in its graph, added one after the other. -/
def commitTrees (p : Plan) (ts : List PlanNode) : Plan :=
  ts.foldl commitTree p

variable {p : Plan} {t : PlanNode} {i : NodeId}

@[simp] theorem commitTrees_nil (p : Plan) : p.commitTrees [] = p :=
  rfl

@[simp] theorem commitTrees_cons (p : Plan) (t : PlanNode) (ts : List PlanNode) :
    p.commitTrees (t :: ts) = (p.commitTree t).commitTrees ts :=
  rfl

/-- A tree that is added does not change the terminal. -/
@[simp] theorem terminal_commitTree (p : Plan) (t : PlanNode) :
    (p.commitTree t).terminal = p.terminal :=
  rfl

@[simp] theorem config_commitTree (p : Plan) (t : PlanNode) :
    (p.commitTree t).config = p.config :=
  rfl

/-- Its captured form is kept as it was. -/
@[simp] theorem fragments_commitTree (p : Plan) (t : PlanNode) :
    (p.commitTree t).fragments = p.fragments :=
  rfl

/-- A build is not over with one of its trees. -/
@[simp] theorem built_commitTree (p : Plan) (t : PlanNode) :
    (p.commitTree t).built = p.built :=
  rfl

/-- The root of the tree is lowered from then on. -/
theorem isLowered_commitTree (p : Plan) (t : PlanNode) (i : NodeId) :
    (p.commitTree t).isLowered i = true ↔ p.isLowered i = true ∨ i = t.id := by
  unfold isLowered
  change (p.lowered.insert t.id ()).contains i = true ↔ _
  rw [SortedMap.contains, SortedMap.get?_insert]
  split
  · next h => simp [h]
  · next h => simp [SortedMap.contains, Ne.symm h]

@[simp] theorem fragments_commitTrees (p : Plan) (ts : List PlanNode) :
    (p.commitTrees ts).fragments = p.fragments := by
  induction ts generalizing p with
  | nil => rfl
  | cons t ts ih => exact ih (p.commitTree t)

@[simp] theorem built_commitTrees (p : Plan) (ts : List PlanNode) :
    (p.commitTrees ts).built = p.built := by
  induction ts generalizing p with
  | nil => rfl
  | cons t ts ih => exact ih (p.commitTree t)

@[simp] theorem terminal_commitTrees (p : Plan) (ts : List PlanNode) :
    (p.commitTrees ts).terminal = p.terminal := by
  induction ts generalizing p with
  | nil => rfl
  | cons t ts ih => exact ih (p.commitTree t)

@[simp] theorem config_commitTrees (p : Plan) (ts : List PlanNode) :
    (p.commitTrees ts).config = p.config := by
  induction ts generalizing p with
  | nil => rfl
  | cons t ts ih => exact ih (p.commitTree t)

/-! ## Vertices -/

/-- The nodes of a tree become vertices under their own identifiers. -/
theorem keys_of_preorder (t : PlanNode) :
    (t.preorder.map fun n => (n.id, n)).map Prod.fst = t.ids := by
  rw [List.map_map]
  rfl

/-- Every node of the tree is found under its identifier. -/
theorem get?_vertices_commitTree_of_mem (hnodup : t.ids.Nodup) {n : PlanNode}
    (hn : n ∈ t.preorder) : (p.commitTree t).vertices.get? n.id = some n := by
  refine SortedMap.get?_insertAll_of_mem ?_ (List.mem_map.2 ⟨n, hn, rfl⟩)
  rw [keys_of_preorder]
  exact hnodup

/-- Under any other identifier there is what was there before. -/
theorem get?_vertices_commitTree_of_notMem (hi : i ∉ t.ids) :
    (p.commitTree t).vertices.get? i = p.vertices.get? i := by
  refine SortedMap.get?_insertAll_of_notMem ?_
  rw [keys_of_preorder]
  exact hi

/-- A vertex is a node of the tree, or an old one of which the tree does not use the
identifier. -/
theorem get?_vertices_commitTree_iff (hnodup : t.ids.Nodup) {n : PlanNode} :
    (p.commitTree t).vertices.get? i = some n ↔
      (n ∈ t.preorder ∧ n.id = i) ∨ (i ∉ t.ids ∧ p.vertices.get? i = some n) := by
  by_cases hi : i ∈ t.ids
  · rcases List.mem_map.1 hi with ⟨m, hm, rfl⟩
    rw [get?_vertices_commitTree_of_mem hnodup hm, Option.some.injEq]
    constructor
    · rintro rfl
      exact Or.inl ⟨hm, rfl⟩
    · intro hcase
      rcases hcase with ⟨hn, hid⟩ | ⟨hnot, -⟩
      · exact (List.inj_on_of_nodup_map hnodup hn hm hid).symm
      · exact absurd hi hnot
  · rw [get?_vertices_commitTree_of_notMem hi]
    constructor
    · intro h
      exact Or.inr ⟨hi, h⟩
    · intro hcase
      rcases hcase with ⟨hn, rfl⟩ | ⟨-, h⟩
      · exact absurd (List.mem_map_of_mem hn) hi
      · exact h

/-- A tree that can be lowered has the identifier of no vertex. -/
theorem notMem_ids_of_lowerable (hlow : t.Lowerable p.vertices.contains) {n : PlanNode}
    (hget : p.vertices.get? i = some n) : i ∉ t.ids := by
  intro hi
  have hfree : p.vertices.contains i = false := hlow.free_ids i hi
  rw [SortedMap.contains_iff.2 ⟨n, hget⟩] at hfree
  contradiction

/-- The nodes of a tree come to the vertices that are there. -/
theorem get?_vertices_commitTree_of_lowerable (hlow : t.Lowerable p.vertices.contains)
    {n : PlanNode} :
    (p.commitTree t).vertices.get? i = some n ↔
      (n ∈ t.preorder ∧ n.id = i) ∨ p.vertices.get? i = some n := by
  rw [get?_vertices_commitTree_iff hlow.nodup_ids]
  exact or_congr_right (and_iff_right_of_imp (notMem_ids_of_lowerable hlow))

/-- The identifiers in use are the old ones and those of the tree. -/
theorem contains_vertices_commitTree (hnodup : t.ids.Nodup) :
    (p.commitTree t).vertices.contains i = true ↔ p.vertices.contains i = true ∨ i ∈ t.ids := by
  by_cases hi : i ∈ t.ids
  · rcases List.mem_map.1 hi with ⟨n, hn, rfl⟩
    simp [SortedMap.contains, get?_vertices_commitTree_of_mem hnodup hn, hi]
  · simp [SortedMap.contains, get?_vertices_commitTree_of_notMem hi, hi]

/-! ## Edges -/

/-- No identifier of a tree is used twice, belongs to the terminal, or is an end of
an edge of the plan, whose maps of edges agree. -/
structure FreshTree (p : Plan) (t : PlanNode) : Prop where
  coherent : p.edges.Coherent
  nodup_ids : t.ids.Nodup
  terminal_notMem : p.terminal.id ∉ t.ids
  no_parents : ∀ i ∈ t.ids, p.edges.parentEdges i = []
  no_children : ∀ i ∈ t.ids, p.edges.children i = []

/-- The edges that a tree adds to the graph. -/
def newEdges (p : Plan) (t : PlanNode) : List (Edge EdgeType) :=
  t.links ++ [⟨t.id, p.terminal.id, .single⟩]

/-- The graph gets the edges of the tree one by one, the one to the terminal last. -/
theorem edges_commitTree (p : Plan) (t : PlanNode) :
    (p.commitTree t).edges = p.edges.insertAll (p.newEdges t) :=
  rfl

/-- Every node of the tree has one new edge up, the root to the terminal and the others to
their parents. -/
theorem perm_children_newEdges (p : Plan) (t : PlanNode) :
    ((p.newEdges t).map Edge.child).Perm t.ids := by
  unfold newEdges
  rw [PlanNode.ids_eq_cons_links, List.map_append, List.map_singleton]
  exact List.perm_append_singleton _ _

/-- No new edge leads up from outside the tree. -/
theorem child_mem_ids_of_mem_newEdges {e : Edge EdgeType} (he : e ∈ p.newEdges t) :
    e.child ∈ t.ids :=
  (perm_children_newEdges p t).mem_iff.1 (List.mem_map_of_mem he)

/-- The new edges are the links of the tree and the edge from its root to the terminal. -/
theorem mem_newEdges_iff {e : Edge EdgeType} :
    e ∈ p.newEdges t ↔ e ∈ t.links ∨ e = ⟨t.id, p.terminal.id, .single⟩ := by
  unfold newEdges
  rw [List.mem_append, List.mem_singleton]

/-- Once a tree is added, its edges are there beside the old ones. -/
theorem leads_commitTree_iff {c q : NodeId} :
    (p.commitTree t).edges.Leads c q ↔
      p.edges.Leads c q ∨ ∃ e ∈ p.newEdges t, e.child = c ∧ e.parent = q := by
  rw [edges_commitTree]
  exact EdgeStore.leads_insertAll_iff

namespace FreshTree

variable (h : p.FreshTree t)

include h

/-- No edge leads up from a node of the tree yet. -/
theorem not_leads_of_mem {c : NodeId} (hc : c ∈ t.ids) (q : NodeId) : ¬p.edges.Leads c q := by
  rw [EdgeStore.leads_iff h.coherent, h.no_parents c hc]
  simp

/-- No edge leads to a node of the tree yet. -/
theorem not_leads_to_mem {q : NodeId} (hq : q ∈ t.ids) (c : NodeId) : ¬p.edges.Leads c q := by
  rw [← h.coherent.mem_children_iff, h.no_children q hq]
  exact List.not_mem_nil

/-- The maps of edges agree once the tree is added. -/
theorem coherent_commitTree : (p.commitTree t).edges.Coherent :=
  h.coherent.insertAll _

/-- New edges start at vertices without an edge up, so they replace none. -/
theorem fresh_newEdges : p.edges.Fresh (p.newEdges t) :=
  EdgeStore.Fresh.of_nodup_children h.coherent
    ((perm_children_newEdges p t).nodup_iff.2 h.nodup_ids)
    fun _ he => h.no_parents _ (child_mem_ids_of_mem_newEdges he)

/-- Each node of the tree has one parent: what the tree gives it, or the terminal
at the top. -/
theorem parentEdges_commitTree_of_mem {e : Edge EdgeType} (he : e ∈ p.newEdges t) :
    (p.commitTree t).edges.parentEdges e.child = [(e.parent, e.label)] := by
  have hnodup : ((p.newEdges t).map Edge.child).Nodup :=
    (perm_children_newEdges p t).nodup_iff.2 h.nodup_ids
  rw [edges_commitTree, EdgeStore.parentEdges_insertAll h.coherent h.fresh_newEdges,
    h.no_parents _ (child_mem_ids_of_mem_newEdges he), filter_eq_singleton hnodup he]
  rfl

/-- Vertices outside the tree keep their edges up. -/
theorem parentEdges_commitTree_of_notMem (hi : i ∉ t.ids) :
    (p.commitTree t).edges.parentEdges i = p.edges.parentEdges i := by
  have hnone : (p.newEdges t).filter (·.child = i) = [] := by
    rw [List.filter_eq_nil_iff]
    intro e he heq
    exact hi (of_decide_eq_true heq ▸ child_mem_ids_of_mem_newEdges he)
  rw [edges_commitTree, EdgeStore.parentEdges_insertAll h.coherent h.fresh_newEdges, hnone]
  simp

/-- The children of a node of the tree are its inputs in order. -/
theorem children_commitTree_of_mem {n : PlanNode} (hn : n ∈ t.subtrees) :
    (p.commitTree t).edges.children n.id = n.inputs.map (·.2.id) := by
  have hne : p.terminal.id ≠ n.id := fun heq =>
    h.terminal_notMem (heq ▸ PlanNode.id_mem_ids hn)
  rw [edges_commitTree, EdgeStore.children_insertAll h.fresh_newEdges,
    h.no_children _ (PlanNode.id_mem_ids hn)]
  unfold newEdges
  rw [List.filter_append, PlanNode.filter_links_parent h.nodup_ids hn,
    List.filter_cons_of_neg (by simpa using hne)]
  simp

/-- The terminal has the top of the tree as its last child. -/
theorem children_commitTree_terminal :
    (p.commitTree t).edges.children p.terminal.id =
      p.edges.children p.terminal.id ++ [t.id] := by
  rw [edges_commitTree, EdgeStore.children_insertAll h.fresh_newEdges]
  unfold newEdges
  rw [List.filter_append, PlanNode.filter_links_eq_nil h.terminal_notMem,
    List.filter_cons_of_pos (by simp)]
  simp

/-- Vertices outside the tree, other than the terminal, keep their children. -/
theorem children_commitTree_of_notMem (hi : i ∉ t.ids) (hterminal : i ≠ p.terminal.id) :
    (p.commitTree t).edges.children i = p.edges.children i := by
  rw [edges_commitTree, EdgeStore.children_insertAll h.fresh_newEdges]
  unfold newEdges
  rw [List.filter_append, PlanNode.filter_links_eq_nil hi,
    List.filter_cons_of_neg (by simpa using hterminal.symm)]
  simp

end FreshTree

/-! ## Scans -/

/-- The scan under an identifier, if any scans were recorded. -/
def scanAt? (inputs : Option InputScans) (i : NodeId) : Option PlanNode :=
  inputs.bind (·.scan? i)

/-- No scans are recorded at all while there has been none. -/
theorem recordScans_eq_none_iff {inputs : Option InputScans} {nodes : List PlanNode} :
    recordScans inputs nodes = none ↔ inputs = none ∧ ∀ n ∈ nodes, n.kind ≠ .scan := by
  unfold recordScans
  split
  · next hnone =>
    rw [List.filter_eq_nil_iff] at hnone
    simp only [decide_eq_true_eq] at hnone
    exact ⟨fun h => ⟨h, hnone⟩, And.left⟩
  · next hsome =>
    simp only [reduceCtorEq, false_iff]
    rintro ⟨-, hnone⟩
    refine hsome (List.filter_eq_nil_iff.2 fun n hn => ?_)
    simpa using hnone n hn

/-- Scans are recorded by their identifiers, each alone. -/
theorem scans_foldl_addScan (s : InputScans) (nodes : List PlanNode)
    (h : ∀ n ∈ nodes, n.kind = .scan) :
    (nodes.foldl InputScans.addScan s).scans =
      s.scans.insertAll (nodes.map fun n => (n.id, n.detached)) := by
  induction nodes generalizing s with
  | nil => rfl
  | cons n nodes ih =>
    rw [List.foldl_cons, ih _ fun m hm => h m (List.mem_cons_of_mem n hm), InputScans.addScan,
      if_pos (h n List.mem_cons_self)]
    rfl

/-- Recording scans sets an entry for each of them. -/
theorem scanAt?_recordScans (inputs : Option InputScans) (nodes : List PlanNode) (i : NodeId) :
    scanAt? (recordScans inputs nodes) i =
      ((inputs.getD .empty).scans.insertAll
        ((nodes.filter (·.kind = .scan)).map fun n => (n.id, n.detached))).get? i := by
  have hscan : ∀ n ∈ nodes.filter (·.kind = .scan), n.kind = .scan := fun n hn =>
    of_decide_eq_true (List.mem_filter.1 hn).2
  unfold recordScans
  split
  · next hnone =>
    rw [hnone]
    cases inputs with
    | none => rfl
    | some s => rfl
  · change ((nodes.filter (·.kind = .scan)).foldl InputScans.addScan
      (inputs.getD .empty)).scans.get? i = _
    rw [scans_foldl_addScan _ _ hscan]

/-- Before the first scan is recorded, none is found. -/
theorem get?_scans_getD (inputs : Option InputScans) (i : NodeId) :
    (inputs.getD .empty).scans.get? i = scanAt? inputs i := by
  cases inputs <;> rfl

/-- A scan among the nodes is recorded under its identifier. -/
theorem scanAt?_recordScans_of_mem {inputs : Option InputScans} {nodes : List PlanNode}
    (hnodup : (nodes.map PlanNode.id).Nodup) {n : PlanNode} (hn : n ∈ nodes)
    (hscan : n.kind = .scan) : scanAt? (recordScans inputs nodes) n.id = some n.detached := by
  rw [scanAt?_recordScans]
  refine SortedMap.get?_insertAll_of_mem ?_
    (List.mem_map.2 ⟨n, List.mem_filter.2 ⟨hn, decide_eq_true hscan⟩, rfl⟩)
  rw [List.map_map]
  exact hnodup.sublist (List.filter_sublist.map _)

/-- Under identifiers that no scan among the nodes has, the record stays as it is. -/
theorem scanAt?_recordScans_of_notMem {inputs : Option InputScans} {nodes : List PlanNode}
    (h : ∀ n ∈ nodes, n.kind = .scan → n.id ≠ i) :
    scanAt? (recordScans inputs nodes) i = scanAt? inputs i := by
  rw [scanAt?_recordScans, SortedMap.get?_insertAll_of_notMem, get?_scans_getD]
  rw [List.map_map, List.mem_map]
  rintro ⟨n, hn, heq⟩
  rw [List.mem_filter] at hn
  exact h n hn.1 (of_decide_eq_true hn.2) heq

/-- What is recorded is a scan among the nodes, or an old one that none of them replaces. -/
theorem scanAt?_recordScans_iff {inputs : Option InputScans} {nodes : List PlanNode}
    (hnodup : (nodes.map PlanNode.id).Nodup) {n : PlanNode} :
    scanAt? (recordScans inputs nodes) i = some n ↔
      (∃ m ∈ nodes, m.kind = .scan ∧ m.id = i ∧ m.detached = n) ∨
        ((∀ m ∈ nodes, m.kind = .scan → m.id ≠ i) ∧ scanAt? inputs i = some n) := by
  by_cases hnew : ∃ m ∈ nodes, m.kind = .scan ∧ m.id = i
  · rcases hnew with ⟨m, hm, hscan, rfl⟩
    rw [scanAt?_recordScans_of_mem hnodup hm hscan, Option.some.injEq]
    constructor
    · intro heq
      exact Or.inl ⟨m, hm, hscan, rfl, heq⟩
    · intro hcase
      rcases hcase with ⟨k, hk, -, hid, rfl⟩ | ⟨hnone, -⟩
      · rw [List.inj_on_of_nodup_map hnodup hk hm hid]
      · exact absurd rfl (hnone m hm hscan)
  · have hnone : ∀ m ∈ nodes, m.kind = .scan → m.id ≠ i := fun m hm hscan hid =>
      hnew ⟨m, hm, hscan, hid⟩
    rw [scanAt?_recordScans_of_notMem hnone]
    constructor
    · intro hold
      exact Or.inr ⟨hnone, hold⟩
    · intro hcase
      rcases hcase with ⟨m, hm, hscan, hid, -⟩ | ⟨-, hold⟩
      · exact absurd hid (hnone m hm hscan)
      · exact hold

/-- The scans of the tree are recorded. -/
theorem inputs_commitTree (p : Plan) (t : PlanNode) :
    (p.commitTree t).inputs = recordScans p.inputs t.preorder :=
  rfl

/-- A tree sets the entries of its scans. -/
theorem scanAt?_commitTree_iff (hnodup : t.ids.Nodup) {n : PlanNode} :
    scanAt? (p.commitTree t).inputs i = some n ↔
      (n ∈ t.preorder ∧ n.kind = .scan ∧ n.id = i) ∨
        ((∀ m ∈ t.preorder, m.kind = .scan → m.id ≠ i) ∧ scanAt? p.inputs i = some n) := by
  rw [inputs_commitTree, scanAt?_recordScans_iff hnodup]
  apply or_congr_left
  constructor
  · intro hnew
    obtain ⟨m, hm, hscan, hid, rfl⟩ := hnew
    rw [PlanNode.detached_of_mem_preorder hm]
    exact ⟨hm, hscan, hid⟩
  · intro hnew
    obtain ⟨hn, hscan, hid⟩ := hnew
    exact ⟨n, hn, hscan, hid, PlanNode.detached_of_mem_preorder hn⟩

/-! ## Flags -/

/-- The join flag is set by the first join and stays. -/
theorem hasJoin_commitTree_iff :
    (p.commitTree t).hasJoin = true ↔ p.hasJoin = true ∨ ∃ n ∈ t.preorder, n.kind = .join := by
  change (p.hasJoin || t.preorder.any (·.kind = .join)) = true ↔ _
  simp

/-- The union flag is set by the first union and stays. -/
theorem hasUnion_commitTree_iff :
    (p.commitTree t).hasUnion = true ↔ p.hasUnion = true ∨ ∃ n ∈ t.preorder, n.kind = .union := by
  change (p.hasUnion || t.preorder.any (·.kind = .union)) = true ↔ _
  simp

end Plan

end QueryGraph
