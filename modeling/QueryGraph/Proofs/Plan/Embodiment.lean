import QueryGraph.Plan.Query
import QueryGraph.Proofs.Plan.Builds

/-!
# Graphs of trees

Where the identifiers of some trees differ, adding the trees to a new plan gives a
graph in which every node has the vertex, the parent and the children that its tree
gives it.  This says all there is about the graph but the order of the terminal's
children, so neither the order of the trees nor the number of builds matters.

Main definitions:

- {lit}`Plan.Compatible`: trees that can be part of one graph.
- {lit}`Plan.Embodies`: the graph of a plan is that of some trees.

Main results:

- {lit}`Plan.Embodies.commitTrees`: adding trees adds them to the trees of the graph.
- {lit}`Plan.Embodies.eq_of_ascending`: the trees determine the graph.
- {lit}`Plan.Embodies.admitsAll`: compatible trees can be lowered one after the other.
-/

namespace QueryGraph

/-- The identifiers of some trees are those of their nodes. -/
theorem mem_flatMap_ids_iff {ts : List PlanNode} {i : NodeId} :
    i ∈ ts.flatMap PlanNode.ids ↔ ∃ n ∈ ts.flatMap PlanNode.preorder, n.id = i := by
  simp only [PlanNode.ids, List.mem_flatMap, List.mem_map]
  constructor
  · rintro ⟨t, ht, n, hn, hid⟩
    exact ⟨n, ⟨t, ht, hn⟩, hid⟩
  · rintro ⟨n, ⟨t, ht, hn⟩, hid⟩
    exact ⟨t, ht, n, hn, hid⟩

namespace Plan

open EdgeStore

/-- Trees that can be part of one graph: there is no root inside, and their
identifiers differ from each other and from the terminal's. -/
structure Compatible (terminal : NodeId) (ts : List PlanNode) : Prop where
  kind_ne_root : ∀ n ∈ ts.flatMap PlanNode.preorder, n.kind ≠ .root
  nodup_ids : (ts.flatMap PlanNode.ids).Nodup
  terminal_notMem : terminal ∉ ts.flatMap PlanNode.ids

/-- The graph of a plan is that of some trees under the terminal. -/
structure Embodies (p : Plan) (ts : List PlanNode) : Prop where
  compatible : Compatible p.terminal.id ts
  vertex_iff : ∀ i n, p.vertices.get? i = some n ↔
    (i = p.terminal.id ∧ n = p.terminal) ∨ (n ∈ ts.flatMap PlanNode.preorder ∧ n.id = i)
  coherent : p.edges.Coherent
  parents_of_mem : ∀ e ∈ ts.flatMap p.newEdges,
    p.edges.parentEdges e.child = [(e.parent, e.label)]
  no_parents : ∀ i, i ∉ ts.flatMap PlanNode.ids → p.edges.parentEdges i = []
  children_of_mem : ∀ n ∈ ts.flatMap PlanNode.subtrees,
    p.edges.children n.id = n.inputs.map (·.2.id)
  topLevel_perm : p.topLevelIds.Perm (ts.map PlanNode.id)
  no_children : ∀ i, i ∉ ts.flatMap PlanNode.ids → i ≠ p.terminal.id → p.edges.children i = []
  scan_iff : ∀ i n, scanAt? p.inputs i = some n ↔
    n ∈ ts.flatMap PlanNode.preorder ∧ n.kind = .scan ∧ n.id = i
  inputs_eq_none_iff : p.inputs = none ↔ ∀ n ∈ ts.flatMap PlanNode.preorder, n.kind ≠ .scan
  hasJoin_iff : p.hasJoin = true ↔ ∃ n ∈ ts.flatMap PlanNode.preorder, n.kind = .join
  hasUnion_iff : p.hasUnion = true ↔ ∃ n ∈ ts.flatMap PlanNode.preorder, n.kind = .union
  lowered_iff : ∀ i, p.isLowered i = true ↔ i ∈ ts.map PlanNode.id

variable {p q : Plan} {t : PlanNode} {ts us : List PlanNode} {i : NodeId}

/-! ## Compatible trees -/

/-- Trees are compatible in any order. -/
theorem Compatible.perm {terminal : NodeId} (h : Compatible terminal ts) (hperm : ts.Perm us) :
    Compatible terminal us where
  kind_ne_root n hn := h.kind_ne_root n ((hperm.flatMap_right _).mem_iff.2 hn)
  nodup_ids := (hperm.flatMap_right _).nodup_iff.1 h.nodup_ids
  terminal_notMem hmem := h.terminal_notMem ((hperm.flatMap_right _).mem_iff.2 hmem)

/-- Compatible trees whose identifiers are new can be lowered one after the other. -/
theorem Compatible.admitsAll {terminal : NodeId} (h : Compatible terminal ts)
    (hfree : ∀ i ∈ ts.flatMap PlanNode.ids, p.vertices.contains i = false) : p.AdmitsAll ts := by
  induction ts generalizing p with
  | nil => trivial
  | cons t ts ih =>
    rcases h with ⟨hkind, hnodup, hterminal⟩
    rw [List.flatMap_cons, List.nodup_append'] at hnodup
    rcases hnodup with ⟨htree, hrest, hdisjoint⟩
    rw [List.flatMap_cons, List.forall_mem_append] at hkind hfree
    rw [List.flatMap_cons, List.mem_append, not_or] at hterminal
    refine ⟨⟨hkind.1, htree, hfree.1⟩, ih ⟨hkind.2, hrest, hterminal.2⟩ fun i hi => ?_⟩
    rw [← Bool.not_eq_true, contains_vertices_commitTree htree, not_or, Bool.not_eq_true]
    exact ⟨hfree.2 i hi, fun hmem => hdisjoint hmem hi⟩

/-! ## From tree to tree -/

namespace Embodies

/-- The identifiers in use are those of the terminal and of the nodes. -/
theorem contains_iff (h : p.Embodies ts) :
    p.vertices.contains i = true ↔ i = p.terminal.id ∨ i ∈ ts.flatMap PlanNode.ids := by
  rw [SortedMap.contains_iff, mem_flatMap_ids_iff]
  simp only [h.vertex_iff, exists_or]
  simp

/-- The graph of a new plan is that of no tree. -/
theorem ofTerminal (config : PlannerConfig) (n : PlanNode) : (ofTerminal config n).Embodies [] where
  compatible := ⟨by simp, List.nodup_nil, List.not_mem_nil⟩
  vertex_iff i m := by
    change (SortedMap.empty.insert n.id n).get? i = some m ↔ (i = n.id ∧ m = n) ∨ _
    rw [SortedMap.get?_insert]
    split
    · next hi => simp [hi, eq_comm]
    · next hi => simp [Ne.symm hi]
  coherent := coherent_empty
  parents_of_mem := by simp
  no_parents _ _ := rfl
  children_of_mem := by simp
  topLevel_perm := List.Perm.refl []
  no_children _ _ _ := rfl
  scan_iff i m := by simp [scanAt?, Plan.ofTerminal]
  inputs_eq_none_iff := by simp [Plan.ofTerminal]
  hasJoin_iff := by simp [Plan.ofTerminal]
  hasUnion_iff := by simp [Plan.ofTerminal]
  lowered_iff i := by simp [isLowered, SortedMap.contains, Plan.ofTerminal]

/-- The identifiers of a tree that can be lowered are new to the graph. -/
theorem freshTree (h : p.Embodies ts) (hlow : t.Lowerable p.vertices.contains) :
    p.FreshTree t := by
  have hnew : ∀ i ∈ t.ids, i ≠ p.terminal.id ∧ i ∉ ts.flatMap PlanNode.ids := by
    intro i hi
    have hfree := hlow.free_ids i hi
    rw [← Bool.not_eq_true, h.contains_iff, not_or] at hfree
    exact hfree
  refine ⟨h.coherent, hlow.nodup_ids, fun hmem => ?_, fun i hi => ?_, fun i hi => ?_⟩
  · exact (hnew _ hmem).1 rfl
  · exact h.no_parents i (hnew i hi).2
  · exact h.no_children i (hnew i hi).2 (hnew i hi).1

/-- A tree that can be lowered joins those of the graph. -/
theorem commitTree (h : p.Embodies ts) (hlow : t.Lowerable p.vertices.contains) :
    (p.commitTree t).Embodies (t :: ts) := by
  have hfresh := h.freshTree hlow
  have hdisjoint : ∀ i ∈ t.ids, i ∉ ts.flatMap PlanNode.ids := by
    intro i hi hmem
    have hfree := hlow.free_ids i hi
    rw [h.contains_iff.2 (Or.inr hmem)] at hfree
    contradiction
  have hchild : ∀ e ∈ ts.flatMap p.newEdges, e.child ∈ ts.flatMap PlanNode.ids := by
    intro e he
    rcases List.mem_flatMap.1 he with ⟨u, hu, he⟩
    exact List.mem_flatMap.2 ⟨u, hu, child_mem_ids_of_mem_newEdges he⟩
  have hsubtree : ∀ n ∈ ts.flatMap PlanNode.subtrees, n.id ∈ ts.flatMap PlanNode.ids := by
    intro n hn
    rcases List.mem_flatMap.1 hn with ⟨u, hu, hn⟩
    exact List.mem_flatMap.2 ⟨u, hu, PlanNode.id_mem_ids hn⟩
  exact
    { compatible := by
        refine ⟨?_, ?_, ?_⟩
        · rw [List.flatMap_cons, List.forall_mem_append]
          exact ⟨hlow.kind_ne_root, h.compatible.kind_ne_root⟩
        · rw [List.flatMap_cons, List.nodup_append']
          exact ⟨hlow.nodup_ids, h.compatible.nodup_ids, fun i hi hmem => hdisjoint i hi hmem⟩
        · rw [List.flatMap_cons, List.mem_append, not_or]
          exact ⟨hfresh.terminal_notMem, h.compatible.terminal_notMem⟩
      vertex_iff := by
        intro i n
        rw [get?_vertices_commitTree_of_lowerable hlow, h.vertex_iff, List.flatMap_cons,
          List.mem_append, terminal_commitTree, or_and_right]
        exact or_left_comm
      coherent := hfresh.coherent_commitTree
      parents_of_mem := by
        intro e he
        rw [List.flatMap_cons, List.mem_append] at he
        rcases he with he | he
        · exact hfresh.parentEdges_commitTree_of_mem he
        · rw [hfresh.parentEdges_commitTree_of_notMem fun hmem => hdisjoint _ hmem (hchild e he)]
          exact h.parents_of_mem e he
      no_parents := by
        intro i hi
        rw [List.flatMap_cons, List.mem_append, not_or] at hi
        rw [hfresh.parentEdges_commitTree_of_notMem hi.1]
        exact h.no_parents i hi.2
      children_of_mem := by
        intro n hn
        rw [List.flatMap_cons, List.mem_append] at hn
        rcases hn with hn | hn
        · exact hfresh.children_commitTree_of_mem hn
        · have hmem := hsubtree n hn
          have hterminal : n.id ≠ p.terminal.id := fun heq =>
            h.compatible.terminal_notMem (heq ▸ hmem)
          rw [hfresh.children_commitTree_of_notMem (fun hid => hdisjoint _ hid hmem) hterminal]
          exact h.children_of_mem n hn
      topLevel_perm := by
        change ((p.commitTree t).edges.children p.terminal.id).Perm (t.id :: ts.map PlanNode.id)
        rw [hfresh.children_commitTree_terminal]
        exact (List.perm_append_singleton _ _).trans (h.topLevel_perm.cons t.id)
      no_children := by
        intro i hi hterminal
        rw [List.flatMap_cons, List.mem_append, not_or] at hi
        rw [hfresh.children_commitTree_of_notMem hi.1 hterminal]
        exact h.no_children i hi.2 hterminal
      scan_iff := by
        intro i n
        rw [scanAt?_commitTree_iff hlow.nodup_ids, h.scan_iff, List.flatMap_cons, List.mem_append,
          or_and_right]
        refine or_congr_right (and_iff_right_of_imp fun hn m hm _ heq => ?_)
        apply hdisjoint i (List.mem_map.2 ⟨m, hm, heq⟩)
        exact mem_flatMap_ids_iff.2 ⟨n, hn.1, hn.2.2⟩
      inputs_eq_none_iff := by
        rw [inputs_commitTree, recordScans_eq_none_iff, h.inputs_eq_none_iff, List.flatMap_cons,
          List.forall_mem_append, and_comm]
      hasJoin_iff := by
        rw [hasJoin_commitTree_iff, h.hasJoin_iff, List.flatMap_cons]
        simp only [List.mem_append, or_and_right, exists_or]
        exact or_comm
      hasUnion_iff := by
        rw [hasUnion_commitTree_iff, h.hasUnion_iff, List.flatMap_cons]
        simp only [List.mem_append, or_and_right, exists_or]
        exact or_comm
      lowered_iff := by
        intro i
        rw [isLowered_commitTree, h.lowered_iff, List.map_cons, List.mem_cons, or_comm] }

/-- The order of the trees does not matter. -/
theorem perm (h : p.Embodies ts) (hperm : ts.Perm us) : p.Embodies us := by
  have hnodes : ∀ n, n ∈ ts.flatMap PlanNode.preorder ↔ n ∈ us.flatMap PlanNode.preorder :=
    fun n => (hperm.flatMap_right _).mem_iff
  have hids : ∀ i, i ∈ ts.flatMap PlanNode.ids ↔ i ∈ us.flatMap PlanNode.ids :=
    fun i => (hperm.flatMap_right _).mem_iff
  exact
    { compatible := h.compatible.perm hperm
      vertex_iff := by
        intro i n
        rw [h.vertex_iff, hnodes]
      coherent := h.coherent
      parents_of_mem := fun e he => h.parents_of_mem e ((hperm.flatMap_right _).mem_iff.2 he)
      no_parents := fun i hi => h.no_parents i fun hmem => hi ((hids i).1 hmem)
      children_of_mem := fun n hn => h.children_of_mem n ((hperm.flatMap_right _).mem_iff.2 hn)
      topLevel_perm := h.topLevel_perm.trans (hperm.map _)
      no_children := fun i hi => h.no_children i fun hmem => hi ((hids i).1 hmem)
      scan_iff := by
        intro i n
        rw [h.scan_iff, hnodes]
      inputs_eq_none_iff := by
        rw [h.inputs_eq_none_iff]
        simp only [hnodes]
      hasJoin_iff := by
        rw [h.hasJoin_iff]
        simp only [hnodes]
      hasUnion_iff := by
        rw [h.hasUnion_iff]
        simp only [hnodes]
      lowered_iff := by
        intro i
        rw [h.lowered_iff, (hperm.map PlanNode.id).mem_iff] }

/-- Adding trees adds them to the trees of the graph. -/
theorem commitTrees (h : p.Embodies ts) (hall : p.AdmitsAll us) :
    (p.commitTrees us).Embodies (us ++ ts) := by
  induction us generalizing p ts with
  | nil => exact h
  | cons u us ih =>
    have hrest := ih (h.commitTree hall.1) hall.2
    exact hrest.perm List.perm_middle

/-- The end of a build only sorts the children of the terminal. -/
theorem finish (h : p.Embodies ts) : p.finish.Embodies ts :=
  { h with
    coherent := h.coherent.sortChildren p.terminal.id
    parents_of_mem := fun e he =>
      (parentEdges_sortChildren _ _ _).trans (h.parents_of_mem e he)
    no_parents := fun i hi => (parentEdges_sortChildren _ _ _).trans (h.no_parents i hi)
    children_of_mem := by
      intro n hn
      rw [← h.children_of_mem n hn]
      refine (children_sortChildren _ _ _).trans (if_neg fun heq => ?_)
      apply h.compatible.terminal_notMem
      rw [heq]
      rcases List.mem_flatMap.1 hn with ⟨u, hu, hn⟩
      exact List.mem_flatMap.2 ⟨u, hu, PlanNode.id_mem_ids hn⟩
    topLevel_perm := (perm_children_sortChildren _ _ _).trans h.topLevel_perm
    no_children := by
      intro i hi hterminal
      rw [← h.no_children i hi hterminal]
      exact (children_sortChildren _ _ _).trans (if_neg (Ne.symm hterminal)) }

/-- The end of a build puts the roots in ascending order. -/
theorem topLevel_ascending_finish (h : p.Embodies ts) :
    p.finish.topLevelIds.Pairwise (· < ·) :=
  pairwise_children_sortChildren h.coherent p.terminal.id

/-! ## What the trees determine -/

/-- Every node of the trees has an edge up. -/
theorem exists_mem_newEdges (hi : i ∈ ts.flatMap PlanNode.ids) :
    ∃ e ∈ ts.flatMap p.newEdges, e.child = i := by
  rcases List.mem_flatMap.1 hi with ⟨u, hu, hi⟩
  rw [← (perm_children_newEdges p u).mem_iff, List.mem_map] at hi
  rcases hi with ⟨e, he, rfl⟩
  exact ⟨e, List.mem_flatMap.2 ⟨u, hu, he⟩, rfl⟩

/-- The trees and the terminal determine the parents of every vertex. -/
theorem parentEdges_eq (hp : p.Embodies ts) (hq : q.Embodies ts)
    (hterminal : p.terminal = q.terminal) (i : NodeId) :
    p.edges.parentEdges i = q.edges.parentEdges i := by
  have hedges : q.newEdges = p.newEdges := by
    funext t
    unfold newEdges
    rw [hterminal]
  by_cases hi : i ∈ ts.flatMap PlanNode.ids
  · rcases exists_mem_newEdges (p := p) hi with ⟨e, he, rfl⟩
    rw [hp.parents_of_mem e he]
    rw [← hedges] at he
    rw [hq.parents_of_mem e he]
  · rw [hp.no_parents i hi, hq.no_parents i hi]

/-- They also determine the children, where those of the terminal ascend. -/
theorem children_eq (hp : p.Embodies ts) (hq : q.Embodies ts) (hterminal : p.terminal = q.terminal)
    (hpAscending : p.topLevelIds.Pairwise (· < ·)) (hqAscending : q.topLevelIds.Pairwise (· < ·))
    (i : NodeId) : p.edges.children i = q.edges.children i := by
  by_cases htop : i = p.terminal.id
  · subst htop
    have hperm : p.topLevelIds.Perm q.topLevelIds := hp.topLevel_perm.trans hq.topLevel_perm.symm
    have heq : p.topLevelIds = q.topLevelIds :=
      ids_eq_of_ascending hpAscending hqAscending fun _ => hperm.mem_iff
    unfold topLevelIds at heq
    rwa [← hterminal] at heq
  · by_cases hi : i ∈ ts.flatMap PlanNode.ids
    · rcases List.mem_flatMap.1 hi with ⟨u, hu, hi⟩
      rcases PlanNode.mem_ids_iff.1 hi with ⟨n, hn, rfl⟩
      have hmem : n ∈ ts.flatMap PlanNode.subtrees := List.mem_flatMap.2 ⟨u, hu, hn⟩
      rw [hp.children_of_mem n hmem, hq.children_of_mem n hmem]
    · rw [hp.no_children i hi htop, hq.no_children i hi (hterminal ▸ htop)]

/-- The recorded scans are determined by the trees. -/
theorem inputs_eq (hp : p.Embodies ts) (hq : q.Embodies ts) : p.inputs = q.inputs := by
  have hscan : ∀ i, scanAt? p.inputs i = scanAt? q.inputs i := by
    intro i
    apply Option.ext
    intro n
    rw [hp.scan_iff, hq.scan_iff]
  have hnone : p.inputs = none ↔ q.inputs = none := by
    rw [hp.inputs_eq_none_iff, hq.inputs_eq_none_iff]
  cases hpi : p.inputs with
  | none => rw [hnone.1 hpi]
  | some s =>
    cases hqi : q.inputs with
    | none =>
      rw [hnone.2 hqi] at hpi
      contradiction
    | some r =>
      rw [hpi, hqi] at hscan
      rw [Option.some.injEq]
      cases s
      cases r
      exact congrArg InputScans.mk (SortedMap.ext_get? hscan)

/-- The roots that have been lowered are determined by the trees. -/
theorem lowered_eq (hp : p.Embodies ts) (hq : q.Embodies ts) : p.lowered = q.lowered := by
  apply SortedMap.ext_get?
  intro i
  have hcontains : p.lowered.contains i = q.lowered.contains i := by
    have hiff := (hp.lowered_iff i).trans (hq.lowered_iff i).symm
    rwa [← Bool.eq_iff_iff] at hiff
  unfold SortedMap.contains at hcontains
  cases hpi : p.lowered.get? i <;> cases hqi : q.lowered.get? i <;> simp_all

/-- Plans whose graphs are those of the same trees have the same graph, if the
children of the terminal ascend in both. -/
theorem eq_of_ascending (hp : p.Embodies ts) (hq : q.Embodies ts) (hconfig : p.config = q.config)
    (hterminal : p.terminal = q.terminal) (hfragments : p.fragments = q.fragments)
    (hbuilt : p.built = q.built) (hpAscending : p.topLevelIds.Pairwise (· < ·))
    (hqAscending : q.topLevelIds.Pairwise (· < ·)) : p = q := by
  have hvertices : p.vertices = q.vertices := by
    refine SortedMap.ext_get? fun i => Option.ext fun n => ?_
    rw [hp.vertex_iff, hq.vertex_iff, hterminal]
  have hedges : p.edges = q.edges :=
    hp.coherent.ext hq.coherent (parentEdges_eq hp hq hterminal)
      (children_eq hp hq hterminal hpAscending hqAscending)
  have hinputs := inputs_eq hp hq
  have hjoin : p.hasJoin = q.hasJoin := by
    rw [Bool.eq_iff_iff, hp.hasJoin_iff, hq.hasJoin_iff]
  have hunion : p.hasUnion = q.hasUnion := by
    rw [Bool.eq_iff_iff, hp.hasUnion_iff, hq.hasUnion_iff]
  have hlowered := lowered_eq hp hq
  cases p
  cases q
  simp only [Plan.mk.injEq]
  exact ⟨hconfig, hterminal, hvertices, hedges, hinputs, hjoin, hunion, hfragments, hlowered,
    hbuilt⟩

end Embodies

end Plan

end QueryGraph
