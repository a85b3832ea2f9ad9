import QueryGraph.Proofs.Plan.Queries
import QueryGraph.Proofs.Plan.TopLevelOrder

/-!
# Two ways to ask for the fragments

The fragments under the terminal are its children, but they are listed twice: as fragments
in the order of the edge store, as children by the types of their edges.  Both lists are the
same if and only if the types already come in the order of the edge store: left, right, single.

A build leads every fragment to the terminal on a single edge, so it never comes to a
difference.  A decoder takes the types from the wire without a look at them.

Main definitions:

- {lit}`Plan.FragmentsAgree`: both ways give the same node, or both none.
- {lit}`Plan.TopLevelByType`, {lit}`Wire.TopLevelByType`: the types of the edges to the terminal
  come in order.
- {lit}`Plan.TopLevelSingle`, {lit}`Wire.TopLevelSingle`: all of these edges are single.

Main results:

- {lit}`Plan.WellFormed.fragmentsAgree_iff`: the types decide whether both ways agree.
- {lit}`Plan.kept_topLevelSingle`: all calls keep the edges to the terminal single.
- {lit}`Plan.fragmentsAgree_iff_topLevelByType`: both ways agree in plans from fragments, and
  in plans from a wire if its edges to the terminal come in order.
- {lit}`Wire.topLevelFragment_leftFragment`: a wire of which they do not.
-/

namespace QueryGraph

namespace Plan

open EdgeStore

variable {p q : Plan} {c v : NodeId} {k : Nat} {ids : List NodeId} {ns : List PlanNode}
  {e : LookupError} {type : EdgeType}

/-- Asking for a fragment by its index and asking for a child of the terminal by its index give
the same node, or both give none; and so it is with the schemas. -/
def FragmentsAgree (p : Plan) : Prop :=
  ∀ k, (p.topLevelFragment k).toOption = (p.child p.terminal.id k).toOption ∧
    (p.outSchema k).toOption = ((p.child p.terminal.id k).map PlanNode.schema).toOption

/-- The types of the edges to the terminal come in the order left, right, single. -/
def TopLevelByType (p : Plan) : Prop :=
  p.topLevelIds.Pairwise fun c d => ∀ s t, p.edgeType c p.terminal.id = .ok s →
    p.edgeType d p.terminal.id = .ok t → s.rank ≤ t.rank

/-- All edges to the terminal are single. -/
def TopLevelSingle (p : Plan) : Prop :=
  ∀ c type, p.edgeType c p.terminal.id = .ok type → type = .single

/-! ## The types decide -/

/-- A fragment by index is the vertex at that place of the children of the terminal. -/
theorem topLevelFragment_eq_vertexAt (p : Plan) (k : Nat) :
    p.topLevelFragment k = p.vertexAt p.topLevelIds k (.noFragment k) :=
  rfl

theorem toOption_eq_some_iff {α : Type} {x : Except LookupError α} {a : α} :
    x.toOption = some a ↔ x = .ok a := by
  cases x <;> simp [Except.toOption]

theorem toOption_map {α β : Type} (f : α → β) (x : Except LookupError α) :
    (x.map f).toOption = x.toOption.map f := by
  cases x <;> rfl

/-- The vertex at a place of the identifiers is the node at that place, or neither is there. -/
theorem NodesOf.toOption_vertexAt (h : p.NodesOf ids ns) :
    (p.vertexAt ids k e).toOption = ns[k]? := by
  apply Option.ext
  intro n
  rw [toOption_eq_some_iff, h.vertexAt_eq_ok_iff]

/-- The schemas agree where the nodes do. -/
theorem fragmentsAgree_iff_forall :
    p.FragmentsAgree ↔
      ∀ k, (p.topLevelFragment k).toOption = (p.child p.terminal.id k).toOption := by
  refine ⟨fun h k => (h k).1, fun h k => ⟨h k, ?_⟩⟩
  unfold outSchema
  rw [toOption_map, toOption_map, h k]

/-- The children are listed as in the edge store if and only if their types come in order. -/
theorem childIds_eq_children_iff (hp : p.edges.Coherent) (v : NodeId) :
    p.childIds v = p.edges.children v ↔
      (p.edges.children v).Pairwise fun c d => ∀ s t, p.edgeType c v = .ok s →
        p.edgeType d v = .ok t → s.rank ≤ t.rank := by
  constructor
  · intro heq
    exact heq ▸ pairwise_childIds p v
  · intro h
    rw [← map_fst_childEdges hp v, List.pairwise_map] at h
    have hedges : (p.childEdges v).Pairwise fun d e => d.2.rank ≤ e.2.rank := by
      refine h.imp_of_mem fun {d e} hd he hle => hle d.2 e.2 ?_ ?_
      · exact edgeType_of_mem_orderedChildren (mem_orderedChildren_iff.2 hd)
      · exact edgeType_of_mem_orderedChildren (mem_orderedChildren_iff.2 he)
    unfold childIds
    rw [orderedChildren_eq_byType, byType_eq_self_iff.2 hedges, map_fst_childEdges hp]

namespace WellFormed

/-- Both ways agree if and only if they list the same identifiers: there is a vertex under
each of them, and each vertex knows its own. -/
theorem fragmentsAgree_iff_childIds (h : p.WellFormed) :
    p.FragmentsAgree ↔ p.childIds p.terminal.id = p.topLevelIds := by
  obtain ⟨ns, -, hns⟩ := NodesOf.exists_mapM h fun c hc => h.contains_of_mem_topLevelIds hc
  obtain ⟨ms, hms⟩ := h.exists_nodesOf_childIds p.terminal.id
  rw [fragmentsAgree_iff_forall]
  simp only [topLevelFragment_eq_vertexAt, child_eq_vertexAt, hns.toOption_vertexAt,
    hms.toOption_vertexAt]
  constructor
  · intro hall
    rw [← hms.map_id, ← hns.map_id, List.ext_getElem? hall]
  · intro heq k
    rw [← hns.toOption_vertexAt (e := .noFragment k), ← hms.toOption_vertexAt (e := .noFragment k),
      heq]

/-- The types of the edges to the terminal decide whether both ways agree. -/
theorem fragmentsAgree_iff (h : p.WellFormed) : p.FragmentsAgree ↔ p.TopLevelByType :=
  h.fragmentsAgree_iff_childIds.trans (childIds_eq_children_iff h.coherent p.terminal.id)

end WellFormed

/-- If all edges to the terminal are single, their types come in order. -/
theorem TopLevelSingle.topLevelByType (h : p.TopLevelSingle) : p.TopLevelByType := by
  refine List.pairwise_of_forall fun c d s t hs ht => ?_
  rw [h c s hs, h d t ht]

/-! ## Plans from fragments -/

/-- Without an edge to the terminal there is none that is not single. -/
theorem topLevelSingle_ofTerminal (config : PlannerConfig) (n : PlanNode) :
    (ofTerminal config n).TopLevelSingle := by
  intro c type htype
  exact absurd (exists_edgeType_iff.1 ⟨type, htype⟩) not_leads_empty

/-- The only edge from a tree to the terminal is that from its top. -/
theorem TopLevelSingle.commitTree {t : PlanNode} (h : p.TopLevelSingle) (hwell : p.WellFormed)
    (hlow : t.Lowerable p.vertices.contains) : (p.commitTree t).TopLevelSingle := by
  have hfresh := hwell.freshTree hlow
  have hcoherent : (p.commitTree t).edges.Coherent := hfresh.coherent_commitTree
  intro c type htype
  rw [terminal_commitTree, edgeType_eq_ok_iff] at htype
  by_cases hc : c ∈ t.ids
  · obtain ⟨e, he, rfl⟩ := List.mem_map.1 ((perm_children_newEdges p t).mem_iff.2 hc)
    rw [label?_eq_some_iff hcoherent, hfresh.parentEdges_commitTree_of_mem he,
      List.mem_singleton, Prod.mk.injEq] at htype
    rcases mem_newEdges_iff.1 he with hlink | rfl
    · exact absurd (htype.1 ▸ PlanNode.parent_mem_ids hlink) hfresh.terminal_notMem
    · exact htype.2
  · rw [label?_congr hcoherent hwell.coherent (hfresh.parentEdges_commitTree_of_notMem hc)] at htype
    exact h c type (edgeType_eq_ok_iff.2 htype)

/-- All calls keep the edges to the terminal single. -/
theorem kept_topLevelSingle : Kept TopLevelSingle where
  start config n _ := topLevelSingle_ofTerminal config n
  fragments _ _ h := h
  commitTree _ _ hwell hlow h := h.commitTree hwell hlow
  finish p h c type htype := by
    rw [edgeType_eq_ok_iff] at htype
    have hlabel := (label?_sortChildren p.edges p.terminal.id).symm.trans htype
    exact h c type (edgeType_eq_ok_iff.2 hlabel)

/-! ## Removing an edge -/

/-- What is an edge after a removal was one before, of the same type. -/
theorem edgeType_of_removeEdge {child parent : NodeId} {s : EdgeType}
    (hremove : p.removeEdge child parent = .ok (s, q))
    (htype : q.edgeType c v = .ok type) : p.edgeType c v = .ok type := by
  have hq : q = { p with edges := (p.edges.remove child parent).2 } := eq_of_removeEdge hremove
  subst hq
  have hleads := leads_remove_iff.1 (exists_edgeType_iff.1 ⟨type, htype⟩)
  rw [edgeType_eq_ok_iff] at htype ⊢
  rw [← htype]
  refine ((label?_remove p.edges child parent c v).trans (if_neg fun heq => ?_)).symm
  exact hleads.2 ⟨heq.1.symm, heq.2.symm⟩

/-- Removing an edge leaves the types of the others in order. -/
theorem WellFormed.topLevelByType_removeEdge (h : p.WellFormed) {child parent : NodeId}
    {s : EdgeType} (hremove : p.removeEdge child parent = .ok (s, q)) (hp : p.TopLevelByType) :
    q.TopLevelByType := by
  have hterminal : q.terminal = p.terminal := by rw [eq_of_removeEdge hremove]
  unfold TopLevelByType
  rw [hterminal]
  refine (hp.sublist (h.topLevelIds_removeEdge_sublist hremove)).imp ?_
  intro c d hle r t hr ht
  exact hle r t (edgeType_of_removeEdge hremove hr) (edgeType_of_removeEdge hremove ht)

/-- Removing an edge leaves the others single. -/
theorem topLevelSingle_removeEdge {child parent : NodeId} {s : EdgeType}
    (hremove : p.removeEdge child parent = .ok (s, q)) (hp : p.TopLevelSingle) :
    q.TopLevelSingle := by
  have hterminal : q.terminal = p.terminal := by rw [eq_of_removeEdge hremove]
  unfold TopLevelSingle
  rw [hterminal]
  intro c type htype
  exact hp c type (edgeType_of_removeEdge hremove htype)

end Plan

/-! ## Plans from a wire -/

namespace Wire

open EdgeStore Plan

variable {w : Wire} {config : PlannerConfig} {p : Plan} {supply : IdSupply}

/-- The types of the edges to the terminal come in the order left, right, single, as the
children ascend. -/
def TopLevelByType (w : Wire) : Prop :=
  ∀ d ∈ w.edges, ∀ e ∈ w.edges, d.parent = w.terminal.id → e.parent = w.terminal.id →
    d.child < e.child → d.label.rank ≤ e.label.rank

/-- All edges to the terminal are single. -/
def TopLevelSingle (w : Wire) : Prop :=
  ∀ e ∈ w.edges, e.parent = w.terminal.id → e.label = .single

/-- The edges of a plan that was read are those of its wire. -/
theorem edgeType_of_toPlan_iff (h : w.toPlan config = .ok (p, supply)) {c v : NodeId}
    {type : EdgeType} : p.edgeType c v = .ok type ↔ ⟨c, v, type⟩ ∈ w.edges := by
  obtain ⟨-, hfresh, -, rfl, -⟩ := toPlan_eq_ok_iff.1 h
  rw [edgeType_eq_ok_iff]
  change w.rebuilt.label? c v = some type ↔ _
  rw [label?_eq_some_iff w.coherent_rebuilt]
  unfold rebuilt
  rw [parentEdges_insertAll coherent_empty hfresh, parentEdges_empty, List.nil_append, List.mem_map]
  constructor
  · rintro ⟨e, he, heq⟩
    obtain ⟨hmem, hchild⟩ := List.mem_filter.1 he
    cases heq
    exact of_decide_eq_true hchild ▸ hmem
  · intro hmem
    exact ⟨_, List.mem_filter.2 ⟨hmem, decide_eq_true rfl⟩, rfl⟩

/-- A decoded plan takes the types of the edges to its terminal from the wire. -/
theorem topLevelSingle_of_toPlan_iff (h : w.toPlan config = .ok (p, supply)) :
    p.TopLevelSingle ↔ w.TopLevelSingle := by
  have hterminal : p.terminal = w.terminal := by
    obtain ⟨-, -, -, rfl, -⟩ := toPlan_eq_ok_iff.1 h
    rfl
  unfold Plan.TopLevelSingle TopLevelSingle
  simp only [edgeType_of_toPlan_iff h, hterminal]
  constructor
  · rintro hp ⟨c, v, type⟩ he rfl
    exact hp c type he
  · intro hw c type he
    exact hw _ he rfl

/-- In a list that ascends, an item is before another one if and only if it is less. -/
theorem pairwise_iff_of_ascending {l : List NodeId} {R : NodeId → NodeId → Prop}
    (h : l.Pairwise (· < ·)) : l.Pairwise R ↔ ∀ c ∈ l, ∀ d ∈ l, c < d → R c d := by
  constructor
  · intro hR c hc d hd hlt
    obtain ⟨i, hi, rfl⟩ := List.mem_iff_getElem.1 hc
    obtain ⟨j, hj, rfl⟩ := List.mem_iff_getElem.1 hd
    rcases Nat.lt_trichotomy i j with hij | rfl | hji
    · exact List.pairwise_iff_getElem.1 hR i j hi hj hij
    · exact absurd hlt (UInt64.lt_irrefl _)
    · have hgt := List.pairwise_iff_getElem.1 h j i hj hi hji
      exact absurd (UInt64.lt_trans hlt hgt) (UInt64.lt_irrefl _)
  · intro hall
    exact h.imp_of_mem fun hc hd hlt => hall _ hc _ hd hlt

/-- The types of the edges to the terminal come in order if they do so in the wire, by ascending
child. -/
theorem topLevelByType_of_toPlan_iff (h : w.toPlan config = .ok (p, supply)) :
    p.TopLevelByType ↔ w.TopLevelByType := by
  have hwell : p.WellFormed := wellFormed_of_toPlan h
  have hterminal : p.terminal = w.terminal := by
    obtain ⟨-, -, -, rfl, -⟩ := toPlan_eq_ok_iff.1 h
    rfl
  have hmem : ∀ e ∈ w.edges, e.parent = w.terminal.id → e.child ∈ p.topLevelIds := by
    intro e he hparent
    refine (hwell.coherent.mem_children_iff _ _).2 (exists_edgeType_iff.1 ⟨e.label, ?_⟩)
    rw [hterminal, ← hparent]
    exact (edgeType_of_toPlan_iff h).2 he
  unfold Plan.TopLevelByType TopLevelByType
  rw [pairwise_iff_of_ascending (Settled.decode h).ascending]
  simp only [edgeType_of_toPlan_iff h, hterminal]
  constructor
  · intro hp d hd e he hdParent heParent hlt
    exact hp d.child (hmem d hd hdParent) e.child (hmem e he heParent) hlt d.label e.label
      (hdParent ▸ hd) (heParent ▸ he)
  · intro hw c _ d _ hlt s t hs ht
    exact hw _ hs _ ht rfl rfl hlt

end Wire

namespace Plan

variable {p : Plan}

/-- A fragment and a child of the terminal with the same index are the same node, or neither
is there, if and only if the types of the edges to the terminal come in order; all of them being
single is enough.  They are in a new plan, and calls and removals keep them so, so this holds of
every plan that was made from fragments.  In a plan that was read, the types are those of
the wire. -/
theorem fragmentsAgree_iff_topLevelByType (h : p.Reachable) :
    (p.FragmentsAgree ↔ p.TopLevelByType) ∧
    (p.TopLevelSingle → p.FragmentsAgree) ∧
    (∀ config supply calls, p = (create config supply).1.run calls → p.TopLevelSingle) ∧
    (∀ calls, p.TopLevelSingle → (p.run calls).TopLevelSingle) ∧
    (∀ child parent type q, p.removeEdge child parent = .ok (type, q) →
      (p.TopLevelSingle → q.TopLevelSingle) ∧ (p.FragmentsAgree → q.FragmentsAgree)) ∧
    ∀ (w : Wire) config supply, w.toPlan config = .ok (p, supply) →
      (p.FragmentsAgree ↔ w.TopLevelByType) ∧ (p.TopLevelSingle ↔ w.TopLevelSingle) := by
  have hwell := h.wellFormed
  have hiff : p.FragmentsAgree ↔ p.TopLevelByType := hwell.fragmentsAgree_iff
  refine ⟨hiff, fun hsingle => hiff.2 hsingle.topLevelByType, ?_,
    fun calls hsingle => kept_topLevelSingle.run hwell hsingle calls,
    fun child parent type q hremove => ⟨topLevelSingle_removeEdge hremove, ?_⟩,
    fun w config supply hdecode => ⟨hiff.trans (Wire.topLevelByType_of_toPlan_iff hdecode),
      Wire.topLevelSingle_of_toPlan_iff hdecode⟩⟩
  · rintro config supply calls rfl
    exact kept_topLevelSingle.run_create config supply calls
  · intro hagree
    exact (hwell.removeEdge hremove).fragmentsAgree_iff.2
      (hwell.topLevelByType_removeEdge hremove (hiff.1 hagree))

/-- The union is the only fragment of its plan, found in both ways; both still agree once its edge
to the terminal is removed. -/
theorem fragmentsAgree_iff_topLevelByType_unionPlan :
    unionPlan.Reachable ∧ unionPlan.TopLevelSingle ∧ unionPlan.FragmentsAgree ∧
      unionPlan.removeEdge 2 7 = .ok (.single, cutTop) ∧ cutTop.FragmentsAgree := by
  have hcut : unionPlan.removeEdge 2 7 = .ok (.single, cutTop) := by with_unfolding_all rfl
  obtain ⟨-, hagree, hmade, -, hremove, -⟩ := fragmentsAgree_iff_topLevelByType reachable_unionPlan
  have hsingle : unionPlan.TopLevelSingle := hmade .standard ⟨7⟩ _ rfl
  exact ⟨reachable_unionPlan, hsingle, hagree hsingle, hcut,
    (hremove 2 7 .single cutTop hcut).2 (hagree hsingle)⟩

/-- A plan with two scans as its fragments. -/
def twoScans : Plan :=
  (create .standard ⟨0⟩).1.run
    [.register (.leaf 1 ⟨[⟨"x", .int4⟩]⟩ (.scan "a" none)),
      .register (.leaf 2 ⟨[⟨"y", .text⟩]⟩ (.scan "b" none)), .build]

end Plan

namespace Wire

open Plan

/-- The wire of that plan, but the second scan is said to be a left input of the terminal. -/
def leftFragment : Wire :=
  { twoScans.toWire ⟨3⟩ with
    adjacency := (twoScans.toWire ⟨3⟩).adjacency.insert 2 [⟨0, .left⟩] }

/-- That wire is accepted.  The first fragment of its plan is not the first child of the
terminal, and has another schema. -/
theorem topLevelFragment_leftFragment :
    ∃ p, leftFragment.toPlan .standard = .ok (p, ⟨3⟩) ∧ p.Reachable ∧ ¬p.FragmentsAgree ∧
      (p.topLevelFragment 0).map PlanNode.id = .ok 1 ∧
      (p.child p.terminal.id 0).map PlanNode.id = .ok 2 ∧
      (p.outSchema 0).toOption ≠ ((p.child p.terminal.id 0).map PlanNode.schema).toOption := by
  have hdecode := toPlan_eq_of_isOk
    (show (leftFragment.toPlan .standard).isOk = true by decide +kernel)
  refine ⟨_, hdecode, .decode hdecode, fun hagree => ?_, by decide +kernel, by decide +kernel,
    by decide +kernel⟩
  exact absurd (hagree 0).2 (by decide +kernel)

end Wire

end QueryGraph
