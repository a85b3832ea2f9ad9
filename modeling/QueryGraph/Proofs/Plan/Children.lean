import QueryGraph.Plan.Query
import QueryGraph.Proofs.Graph.EdgeIndex

/-!
# The order of children

A plan lists the children of a vertex by the type of their edges.  The list is a stable
sort: the same children, by the rank of their types, those of one type as the edge store
has them.  Where those of one type ascend, as they do in every plan that comes about, the
list says no more than which edges there are.

Main definitions:

- {lit}`EdgeStore.Ordered`: the children on edges of one label ascend.
- {lit}`EdgeType.rank`: the place of a type in the list.

Main results:

- {lit}`EdgeStore.Ordered.remove`: removing an edge keeps the order.
- {lit}`Plan.perm_byType`, {lit}`Plan.pairwise_rank_byType`, {lit}`Plan.filter_byType`: listing
  by type is a stable sort.
- {lit}`Plan.byType_eq_self_iff`: it moves nothing exactly where the types come in order.
- {lit}`Plan.orderedChildren_eq`: children that ascend by type are determined by the
  edges.
-/

namespace QueryGraph

namespace EdgeStore

variable {ε : Type} {s t : EdgeStore ε} {v : NodeId}

/-- The children of a vertex on edges of one label ascend. -/
def Ordered (s : EdgeStore ε) (v : NodeId) : Prop :=
  (s.children v).Pairwise fun c d => s.label? c v = s.label? d v → c < d

/-- Children that ascend do so on the edges of each label. -/
theorem ordered_of_ascending (h : (s.children v).Pairwise (· < ·)) : s.Ordered v := by
  refine List.Pairwise.imp ?_ h
  intro c d hlt _
  exact hlt

theorem Ordered.congr (h : s.Ordered v) (hchildren : t.children v = s.children v)
    (hlabel : ∀ c ∈ s.children v, t.label? c v = s.label? c v) : t.Ordered v := by
  unfold Ordered
  rw [hchildren]
  apply h.imp_of_mem
  intro c d hc hd hlt heq
  rw [hlabel c hc, hlabel d hd] at heq
  exact hlt heq

/-- Removing an edge leaves the order of the others. -/
theorem Ordered.remove (hs : s.Coherent) (h : s.Ordered v) (c p : NodeId) :
    (s.remove c p).2.Ordered v := by
  have hsublist : ((s.remove c p).2.children v).Sublist (s.children v) := by
    rw [children_remove hs]
    split
    · exact List.filter_sublist
    · exact List.Sublist.refl _
  apply (h.sublist hsublist).imp_of_mem
  intro a b ha hb hlt heq
  have hkept : ∀ d ∈ (s.remove c p).2.children v, ¬(c = d ∧ p = v) := by
    rintro d hd ⟨rfl, rfl⟩
    rw [(hs.remove c p).mem_children_iff, leads_remove_iff] at hd
    exact hd.2 ⟨rfl, rfl⟩
  rw [label?_remove, label?_remove, if_neg (hkept a ha), if_neg (hkept b hb)] at heq
  exact hlt heq

end EdgeStore

/-- The place of a type among the children of a vertex. -/
def EdgeType.rank : EdgeType → Nat
  | .left => 0
  | .right => 1
  | .single => 2

namespace Plan

open EdgeStore

variable {p q : Plan} {v : NodeId} {es : List (NodeId × EdgeType)}

/-! ## Listing by type -/

/-- Children on left edges, then on right ones, then on single ones. -/
def byType (es : List (NodeId × EdgeType)) : List (NodeId × EdgeType) :=
  es.filter (·.2 = .left) ++ es.filter (·.2 = .right) ++ es.filter (·.2 = .single)

/-- The ordered children are the edges from the children, listed by type. -/
theorem orderedChildren_eq_byType (p : Plan) (v : NodeId) :
    p.orderedChildren v = byType (p.childEdges v) :=
  rfl

/-- Listing by type loses no edge and repeats none. -/
theorem perm_byType (es : List (NodeId × EdgeType)) : (byType es).Perm es := by
  induction es with
  | nil => exact .nil
  | cons e es ih =>
    have hmiddle : ∀ front back, (byType es).Perm (front ++ back) →
        (front ++ e :: back).Perm (e :: es) := fun front back h =>
      List.perm_middle.trans ((h.symm.trans ih).cons e)
    unfold byType at hmiddle ⊢
    cases htype : e.2 with
    | left => simpa [htype] using hmiddle [] _ (.refl _)
    | right => simpa [htype] using hmiddle (es.filter (·.2 = .left)) _ (by simp)
    | single =>
      simpa [htype] using
        hmiddle (es.filter (·.2 = .left) ++ es.filter (·.2 = .right)) _ (.refl _)

/-- Left edges come first, then right ones, then single ones. -/
theorem pairwise_rank_byType (es : List (NodeId × EdgeType)) :
    (byType es).Pairwise fun d e => d.2.rank ≤ e.2.rank := by
  have hsame : ∀ type : EdgeType,
      (es.filter (·.2 = type)).Pairwise fun d e => d.2.rank ≤ e.2.rank := by
    intro type
    refine List.pairwise_filter.2 (List.pairwise_of_forall fun d e hd he => ?_)
    rw [of_decide_eq_true hd, of_decide_eq_true he]
  unfold byType
  refine List.pairwise_append.2 ⟨List.pairwise_append.2 ⟨hsame .left, hsame .right, ?_⟩,
    hsame .single, ?_⟩
  · intro d hd e _
    simp [of_decide_eq_true (List.mem_filter.1 hd).2, EdgeType.rank]
  · intro d _ e he
    rw [of_decide_eq_true (List.mem_filter.1 he).2]
    cases d.2 <;> simp [EdgeType.rank]

/-- Those of one type stay in order. -/
theorem filter_byType (es : List (NodeId × EdgeType)) (type : EdgeType) :
    (byType es).filter (·.2 = type) = es.filter (·.2 = type) := by
  have hother : ∀ s : EdgeType, s ≠ type → (es.filter (·.2 = s)).filter (·.2 = type) = [] := by
    intro s hne
    refine List.filter_eq_nil_iff.2 fun e he htype => hne ?_
    exact (of_decide_eq_true (List.mem_filter.1 he).2).symm.trans (of_decide_eq_true htype)
  unfold byType
  rw [List.filter_append, List.filter_append]
  cases type with
  | left => rw [hother .right nofun, hother .single nofun]; simp
  | right => rw [hother .left nofun, hother .single nofun]; simp
  | single => rw [hother .left nofun, hother .right nofun]; simp

/-- Listing by type moves nothing exactly where the types come in order. -/
theorem byType_eq_self_iff :
    byType es = es ↔ es.Pairwise fun d e => d.2.rank ≤ e.2.rank := by
  constructor
  · intro heq
    exact heq ▸ pairwise_rank_byType es
  · intro h
    induction es with
    | nil => rfl
    | cons e es ih =>
      rw [List.pairwise_cons] at h
      have hrest := ih h.2
      have hnone : ∀ type : EdgeType, type.rank < e.2.rank → es.filter (·.2 = type) = [] := by
        intro type hlt
        refine List.filter_eq_nil_iff.2 fun d hd htype => ?_
        have hle := h.1 d hd
        rw [of_decide_eq_true htype] at hle
        omega
      unfold byType at hrest ⊢
      cases htype : e.2 with
      | left => simpa [htype] using hrest
      | right =>
        have hleft := hnone .left (by simp [htype, EdgeType.rank])
        simpa [htype, hleft] using hrest
      | single =>
        have hleft := hnone .left (by simp [htype, EdgeType.rank])
        have hright := hnone .right (by simp [htype, EdgeType.rank])
        simpa [htype, hleft, hright] using hrest

/-! ## The children of a vertex -/

/-- The edges from the children are those in the store, with their labels as types. -/
theorem mem_childEdges_iff {e : NodeId × EdgeType} :
    e ∈ p.childEdges v ↔ e.1 ∈ p.edges.children v ∧ p.edges.label? e.1 v = some e.2 := by
  unfold childEdges
  rw [List.mem_filterMap]
  constructor
  · rintro ⟨c, hc, he⟩
    rcases Option.map_eq_some_iff.1 he with ⟨type, htype, rfl⟩
    exact ⟨hc, htype⟩
  · rintro ⟨hc, htype⟩
    exact ⟨e.1, hc, by rw [htype]; rfl⟩

/-- Ordering the children by type keeps them all. -/
theorem mem_orderedChildren_iff {e : NodeId × EdgeType} :
    e ∈ p.orderedChildren v ↔ e ∈ p.childEdges v :=
  (perm_byType (p.childEdges v)).mem_iff

/-- No child is without a type. -/
theorem map_fst_childEdges (hp : p.edges.Coherent) (v : NodeId) :
    (p.childEdges v).map Prod.fst = p.edges.children v := by
  have hsome : ∀ c ∈ p.edges.children v,
      ((p.edges.label? c v).map fun type => (c, type)).map Prod.fst = some c := by
    intro c hc
    obtain ⟨type, htype⟩ := leads_iff_exists_label?.1 ((hp.mem_children_iff c v).1 hc)
    rw [htype]
    rfl
  unfold childEdges
  rw [List.map_filterMap, List.filterMap_congr hsome, List.filterMap_some]

/-- An edge leads from every ordered child. -/
theorem leads_of_mem_orderedChildren (hp : p.edges.Coherent) {e : NodeId × EdgeType}
    (he : e ∈ p.orderedChildren v) : p.edges.Leads e.1 v :=
  (hp.mem_children_iff _ _).1 (mem_childEdges_iff.1 (mem_orderedChildren_iff.1 he)).1

/-- Where the children on edges of one type ascend, so do those listed for a type. -/
theorem pairwise_childEdges (h : p.edges.Ordered v) (type : EdgeType) :
    (((p.childEdges v).filter (·.2 = type)).map Prod.fst).Pairwise (· < ·) := by
  unfold childEdges
  rw [List.pairwise_map, List.pairwise_filter, List.pairwise_filterMap]
  refine List.Pairwise.imp ?_ h
  intro c d hlt a ha b hb hatype hbtype
  rcases Option.map_eq_some_iff.1 ha with ⟨s, hs, rfl⟩
  rcases Option.map_eq_some_iff.1 hb with ⟨r, hr, rfl⟩
  have hsame : s = r := (of_decide_eq_true hatype).trans (of_decide_eq_true hbtype).symm
  exact hlt (by rw [hs, hr, hsame])

/-- Children that ascend by type are determined by the edges. -/
theorem orderedChildren_eq (hp : p.edges.Coherent) (hq : q.edges.Coherent)
    (hpOrdered : p.edges.Ordered v) (hqOrdered : q.edges.Ordered v)
    (h : ∀ i, q.edges.parentEdges i = p.edges.parentEdges i) :
    q.orderedChildren v = p.orderedChildren v := by
  have hleads : ∀ c, q.edges.Leads c v ↔ p.edges.Leads c v := by
    intro c
    rw [leads_iff hq, leads_iff hp, h c]
  have hmem : ∀ e, e ∈ q.childEdges v ↔ e ∈ p.childEdges v := by
    intro e
    rw [mem_childEdges_iff, mem_childEdges_iff, hq.mem_children_iff, hp.mem_children_iff,
      hleads, label?_congr hq hp (h e.1)]
  have hfilter : ∀ type : EdgeType,
      (q.childEdges v).filter (·.2 = type) = (p.childEdges v).filter (·.2 = type) := by
    intro type
    refine SortedMap.eq_of_pairwise_of_mem_iff (pairwise_childEdges hqOrdered type)
      (pairwise_childEdges hpOrdered type) fun e => ?_
    rw [List.mem_filter, List.mem_filter, hmem]
  unfold orderedChildren
  dsimp only
  rw [hfilter .left, hfilter .right, hfilter .single]

end Plan

end QueryGraph
