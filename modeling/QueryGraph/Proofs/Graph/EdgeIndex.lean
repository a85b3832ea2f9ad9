import Mathlib.Data.List.Nodup
import Mathlib.Data.List.Sort
import QueryGraph.Proofs.Graph.MapUpdates

/-!
# The three maps of an edge store

An edge store keeps the labels of the edges and lists the edges from both ends.  Here the
three maps are shown to agree after every operation, and what an operation does to them is
stated once, so that nobody has to look into the store again.  What is said of labels holds
of every store; what is said of the lists needs the agreement.

Main definitions:

- {lit}`EdgeStore.Leads`: there is an edge from a child to a parent.
- {lit}`EdgeStore.parentEdges`: the parents of a child with the labels of the edges.
- {lit}`EdgeStore.Coherent`: labels and lists hold the same edges, each once.
- {lit}`EdgeStore.SameUpward`: two stores have the same labels and lists of parents.
- {lit}`EdgeStore.insertAll`: adds many edges.
- {lit}`EdgeStore.Fresh`: edges that are new to a store and differ in their ends.

Main results:

- {lit}`EdgeStore.parentEdges_insertAll`, {lit}`EdgeStore.children_insertAll`: new
  edges come after the old ones, in the order in which they were added.
- {lit}`EdgeStore.insert_of_leads`: an edge that is relabelled keeps its place.
- {lit}`EdgeStore.label?_insert`, {lit}`EdgeStore.label?_remove`: a change leaves the labels of
  all other edges.
- {lit}`EdgeStore.Coherent.insertAll`, {lit}`EdgeStore.Coherent.remove`,
  {lit}`EdgeStore.Coherent.sortChildren`: the maps go on agreeing.
- {lit}`EdgeStore.pairwise_edges`: the order of all edges.
- {lit}`EdgeStore.size_eq_length_edges`: the labels are as many as the edges that are listed.
-/

namespace QueryGraph

/-- The ends of an edge. -/
def Edge.ends {ε : Type} (e : Edge ε) : Ends :=
  ⟨e.child, e.parent⟩

namespace EdgeStore

variable {ε : Type} {s t r : EdgeStore ε} {c p : NodeId} {e : Edge ε} {label : ε}

/-! ## Edges and labels -/

/-- There is an edge from a child to a parent. -/
def Leads (s : EdgeStore ε) (c p : NodeId) : Prop :=
  s.hasEdge c p = true

/-- Asking for an edge tells whether there is one. -/
theorem hasEdge_iff : s.hasEdge c p = true ↔ s.Leads c p :=
  Iff.rfl

/-- Asking for an edge tells that there is none. -/
theorem hasEdge_eq_false_iff : s.hasEdge c p = false ↔ ¬s.Leads c p :=
  Bool.not_eq_true _ ▸ Iff.rfl

/-- Every edge has a label. -/
theorem leads_iff_exists_label? : s.Leads c p ↔ ∃ label, s.label? c p = some label :=
  SortedMap.contains_iff

/-- What has a label is an edge. -/
theorem leads_of_label? (h : s.label? c p = some label) : s.Leads c p :=
  leads_iff_exists_label?.2 ⟨label, h⟩

/-- Only an edge has a label. -/
theorem label?_eq_none_iff : s.label? c p = none ↔ ¬s.Leads c p := by
  rw [leads_iff_exists_label?, ← Option.ne_none_iff_exists', ne_eq, not_not]

/-- The parents of a child with the labels of the edges. -/
def parentEdges (s : EdgeStore ε) (child : NodeId) : List (NodeId × ε) :=
  (s.parents child).filterMap fun parent => (s.label? child parent).map (parent, ·)

/-- A parent is listed with the label of its edge. -/
theorem mem_parentEdges_iff :
    (p, label) ∈ s.parentEdges c ↔ p ∈ s.parents c ∧ s.label? c p = some label := by
  unfold parentEdges
  rw [List.mem_filterMap]
  constructor
  · rintro ⟨q, hq, heq⟩
    obtain ⟨l, hl, hpair⟩ := Option.map_eq_some_iff.1 heq
    obtain ⟨rfl, rfl⟩ := Prod.mk.inj hpair
    exact ⟨hq, hl⟩
  · rintro ⟨hp, hlabel⟩
    exact ⟨p, hp, by rw [hlabel, Option.map_some]⟩

/-- The label of an edge that is its child's only one. -/
theorem label?_of_parentEdges_eq (h : s.parentEdges c = [(p, label)]) :
    s.label? c p = some label :=
  (mem_parentEdges_iff.1 (h ▸ List.mem_singleton_self _)).2

/-! ## Agreement of the maps -/

/-- The labels and both lists hold the same edges, the lists each of them once, and no empty
list is kept. -/
structure Coherent (s : EdgeStore ε) : Prop where
  mem_parents_iff : ∀ c p, p ∈ s.parents c ↔ s.Leads c p
  mem_children_iff : ∀ c p, c ∈ s.children p ↔ s.Leads c p
  nodup_parents : ∀ c, (s.parents c).Nodup
  nodup_children : ∀ p, (s.children p).Nodup
  tidy_outgoing : s.outgoing.Tidy
  tidy_incoming : s.incoming.Tidy

/-- Where the maps agree, the labels are what is listed with the parents. -/
theorem label?_eq_some_iff (hs : s.Coherent) :
    s.label? c p = some label ↔ (p, label) ∈ s.parentEdges c := by
  rw [mem_parentEdges_iff, hs.mem_parents_iff]
  exact ⟨fun h => ⟨leads_of_label? h, h⟩, And.right⟩

/-- There is an edge if its parent is listed with some label. -/
theorem leads_iff (hs : s.Coherent) : s.Leads c p ↔ ∃ label, (p, label) ∈ s.parentEdges c := by
  rw [leads_iff_exists_label?]
  simp only [label?_eq_some_iff hs]

/-- Every listed parent has a label, so none is passed over. -/
theorem map_fst_parentEdges (hs : s.Coherent) (c : NodeId) :
    (s.parentEdges c).map Prod.fst = s.parents c := by
  have hsome : ∀ p ∈ s.parents c,
      ((s.label? c p).map (p, ·)).map Prod.fst = some p := by
    intro p hp
    obtain ⟨label, hlabel⟩ := leads_iff_exists_label?.1 ((hs.mem_parents_iff c p).1 hp)
    rw [hlabel]
    rfl
  unfold parentEdges
  rw [List.map_filterMap, List.filterMap_congr hsome]
  exact List.filterMap_some

/-- Stores that list the same parents with the same labels agree about the labels. -/
theorem label?_congr (hs : s.Coherent) (ht : t.Coherent)
    (h : s.parentEdges c = t.parentEdges c) : s.label? c p = t.label? c p := by
  apply Option.ext
  intro label
  rw [label?_eq_some_iff hs, label?_eq_some_iff ht, h]

/-- Stores with the same labels and the same lists of parents.  The children may be listed
in another order. -/
structure SameUpward (s t : EdgeStore ε) : Prop where
  labels : s.labels = t.labels
  outgoing : s.outgoing = t.outgoing

/-- Stores that agree upward do so in either order. -/
theorem SameUpward.symm (h : s.SameUpward t) : t.SameUpward s :=
  ⟨h.labels.symm, h.outgoing.symm⟩

/-- Stores that agree upward with a third agree with each other. -/
theorem SameUpward.trans (hst : s.SameUpward t) (htr : t.SameUpward r) : s.SameUpward r :=
  ⟨hst.labels.trans htr.labels, hst.outgoing.trans htr.outgoing⟩

/-- The parents with their labels tell all labels and all lists of parents. -/
theorem Coherent.sameUpward (hs : s.Coherent) (ht : t.Coherent)
    (hparents : ∀ c, s.parentEdges c = t.parentEdges c) : s.SameUpward t where
  labels := SortedMap.ext_get? fun ⟨_, _⟩ => label?_congr hs ht (hparents _)
  outgoing := by
    refine hs.tidy_outgoing.ext_getList ht.tidy_outgoing fun c => ?_
    change s.parents c = t.parents c
    rw [← map_fst_parentEdges hs, ← map_fst_parentEdges ht, hparents]

/-- Stores with the same labels, the same parents and the same children are equal. -/
theorem Coherent.ext (hs : s.Coherent) (ht : t.Coherent)
    (hparents : ∀ c, s.parentEdges c = t.parentEdges c)
    (hchildren : ∀ p, s.children p = t.children p) : s = t := by
  obtain ⟨hlabels, houtgoing⟩ := hs.sameUpward ht hparents
  have hincoming : s.incoming = t.incoming :=
    hs.tidy_incoming.ext_getList ht.tidy_incoming hchildren
  cases s
  cases t
  cases hlabels
  cases houtgoing
  cases hincoming
  rfl

/-- The empty store holds nothing in any of its maps. -/
theorem coherent_empty : (empty : EdgeStore ε).Coherent where
  mem_parents_iff c p := by simp [Leads, hasEdge, parents, empty, SortedMap.contains]
  mem_children_iff c p := by simp [Leads, hasEdge, children, empty, SortedMap.contains]
  nodup_parents c := List.nodup_nil
  nodup_children p := List.nodup_nil
  tidy_outgoing := SortedMap.tidy_empty
  tidy_incoming := SortedMap.tidy_empty

@[simp] theorem parentEdges_empty (c : NodeId) : (empty : EdgeStore ε).parentEdges c = [] :=
  rfl

@[simp] theorem children_empty (p : NodeId) : (empty : EdgeStore ε).children p = [] :=
  rfl

/-- The empty store has no edge. -/
theorem not_leads_empty : ¬(empty : EdgeStore ε).Leads c p :=
  Bool.false_ne_true

/-! ## Adding an edge -/

/-- An edge that is there gets its new label and keeps its place in both lists. -/
theorem insert_of_leads (h : s.Leads e.child e.parent) :
    s.insert e = { s with labels := s.labels.insert e.ends e.label } := by
  obtain ⟨old, hold⟩ := SortedMap.contains_iff.1 h
  unfold insert add
  rw [hold]
  rfl

/-- An edge that is new comes last in both lists. -/
theorem insert_of_not_leads (h : ¬s.Leads e.child e.parent) :
    s.insert e =
      { labels := s.labels.insert e.ends e.label
        outgoing := s.outgoing.push e.child e.parent
        incoming := s.incoming.push e.parent e.child } := by
  have hnone : s.labels.get? ⟨e.child, e.parent⟩ = none := label?_eq_none_iff.2 h
  unfold insert add
  rw [hnone]
  rfl

/-- Adding an edge, be it there or not, sets its label. -/
theorem labels_insert (s : EdgeStore ε) (e : Edge ε) :
    (s.insert e).labels = s.labels.insert e.ends e.label := by
  by_cases h : s.Leads e.child e.parent
  · rw [insert_of_leads h]
  · rw [insert_of_not_leads h]

/-- Adding an edge gives it its label and leaves all others. -/
theorem label?_insert (s : EdgeStore ε) (e : Edge ε) (c p : NodeId) :
    (s.insert e).label? c p =
      if e.child = c ∧ e.parent = p then some e.label else s.label? c p := by
  unfold label?
  rw [labels_insert, SortedMap.get?_insert]
  simp only [Edge.ends, Ends.mk.injEq]

/-- After an edge is added, it is there beside the old ones. -/
theorem leads_insert_iff :
    (s.insert e).Leads c p ↔ s.Leads c p ∨ (c = e.child ∧ p = e.parent) := by
  rw [leads_iff_exists_label?, leads_iff_exists_label?, label?_insert]
  split
  · next h => simp [h.1.symm, h.2.symm]
  · next h =>
    have hother : ¬(c = e.child ∧ p = e.parent) := fun heq => h ⟨heq.1.symm, heq.2.symm⟩
    simp [hother]

/-- A new parent comes after the old ones. -/
theorem parents_insert (h : ¬s.Leads e.child e.parent) (c : NodeId) :
    (s.insert e).parents c =
      if e.child = c then s.parents c ++ [e.parent] else s.parents c := by
  rw [insert_of_not_leads h]
  exact SortedMap.getList_push _ _ _ _

/-- A new child comes after the old ones. -/
theorem children_insert (h : ¬s.Leads e.child e.parent) (p : NodeId) :
    (s.insert e).children p =
      if e.parent = p then s.children p ++ [e.child] else s.children p := by
  rw [insert_of_not_leads h]
  exact SortedMap.getList_push _ _ _ _

/-- An edge that is relabelled keeps its place among the parents. -/
theorem parents_insert_of_leads (h : s.Leads e.child e.parent) (c : NodeId) :
    (s.insert e).parents c = s.parents c := by
  rw [insert_of_leads h]
  rfl

/-- An edge that is relabelled keeps its place among the children. -/
theorem children_insert_of_leads (h : s.Leads e.child e.parent) (p : NodeId) :
    (s.insert e).children p = s.children p := by
  rw [insert_of_leads h]
  rfl

/-- A new edge is listed after the old ones of its child, which keep their labels. -/
theorem parentEdges_insert (hs : s.Coherent) (h : ¬s.Leads e.child e.parent) (c : NodeId) :
    (s.insert e).parentEdges c =
      if e.child = c then s.parentEdges c ++ [(e.parent, e.label)] else s.parentEdges c := by
  have hold : (s.parents c).filterMap (fun q => ((s.insert e).label? c q).map (q, ·)) =
      s.parentEdges c := by
    refine List.filterMap_congr fun q hq => ?_
    have hother : ¬(e.child = c ∧ e.parent = q) := by
      rintro ⟨rfl, rfl⟩
      exact h ((hs.mem_parents_iff _ _).1 hq)
    rw [label?_insert, if_neg hother]
  unfold parentEdges at hold ⊢
  rw [parents_insert h]
  split
  · next hc =>
    subst hc
    rw [List.filterMap_append, hold, List.filterMap_cons, label?_insert, if_pos ⟨rfl, rfl⟩]
    rfl
  · exact hold

/-- The maps agree after a new edge is added. -/
theorem Coherent.insert_of_not_leads (hs : s.Coherent) (h : ¬s.Leads e.child e.parent) :
    (s.insert e).Coherent where
  mem_parents_iff c p := by
    rw [leads_insert_iff, parents_insert h, ← hs.mem_parents_iff]
    by_cases hc : e.child = c
    · simp [hc]
    · simp [hc, Ne.symm hc]
  mem_children_iff c p := by
    rw [leads_insert_iff, children_insert h, ← hs.mem_children_iff]
    by_cases hp : e.parent = p
    · simp [hp]
    · simp [hp, Ne.symm hp]
  nodup_parents c := by
    rw [parents_insert h]
    split
    · next hc =>
      subst hc
      rw [← hs.mem_parents_iff] at h
      rw [← List.concat_eq_append]
      exact (hs.nodup_parents e.child).concat h
    · exact hs.nodup_parents c
  nodup_children p := by
    rw [children_insert h]
    split
    · next hp =>
      subst hp
      rw [← hs.mem_children_iff] at h
      rw [← List.concat_eq_append]
      exact (hs.nodup_children e.parent).concat h
    · exact hs.nodup_children p
  tidy_outgoing := by
    rw [EdgeStore.insert_of_not_leads h]
    exact hs.tidy_outgoing.push _ _
  tidy_incoming := by
    rw [EdgeStore.insert_of_not_leads h]
    exact hs.tidy_incoming.push _ _

/-- The maps agree after an edge is relabelled. -/
theorem Coherent.insert_of_leads (hs : s.Coherent) (h : s.Leads e.child e.parent) :
    (s.insert e).Coherent := by
  have hleads : ∀ c p, (s.insert e).Leads c p ↔ s.Leads c p := by
    intro c p
    rw [leads_insert_iff]
    refine ⟨fun hcase => hcase.elim id ?_, Or.inl⟩
    rintro ⟨rfl, rfl⟩
    exact h
  refine ⟨fun c p => ?_, fun c p => ?_, fun c => ?_, fun p => ?_, ?_, ?_⟩
  · rw [hleads, parents_insert_of_leads h]
    exact hs.mem_parents_iff c p
  · rw [hleads, children_insert_of_leads h]
    exact hs.mem_children_iff c p
  · rw [parents_insert_of_leads h]
    exact hs.nodup_parents c
  · rw [children_insert_of_leads h]
    exact hs.nodup_children p
  · rw [EdgeStore.insert_of_leads h]
    exact hs.tidy_outgoing
  · rw [EdgeStore.insert_of_leads h]
    exact hs.tidy_incoming

/-- The maps agree after an edge is added, be it there or not. -/
theorem Coherent.insert (hs : s.Coherent) (e : Edge ε) : (s.insert e).Coherent := by
  by_cases h : s.Leads e.child e.parent
  · exact hs.insert_of_leads h
  · exact hs.insert_of_not_leads h

/-! ## Adding many edges -/

/-- Adds edges one after the other. -/
def insertAll (s : EdgeStore ε) (es : List (Edge ε)) : EdgeStore ε :=
  es.foldl insert s

@[simp] theorem insertAll_nil (s : EdgeStore ε) : s.insertAll [] = s :=
  rfl

@[simp] theorem insertAll_cons (s : EdgeStore ε) (e : Edge ε) (es : List (Edge ε)) :
    s.insertAll (e :: es) = (s.insert e).insertAll es :=
  rfl

/-- Adding an edge looks at its label and the parents of its child only. -/
theorem SameUpward.insert (h : s.SameUpward t) (e : Edge ε) :
    (s.insert e).SameUpward (t.insert e) := by
  have hleads : s.Leads e.child e.parent ↔ t.Leads e.child e.parent := by
    unfold Leads hasEdge
    rw [h.labels]
  by_cases hs : s.Leads e.child e.parent
  · rw [insert_of_leads hs, insert_of_leads (hleads.1 hs)]
    exact ⟨congrArg (SortedMap.insert · _ _) h.labels, h.outgoing⟩
  · rw [insert_of_not_leads hs, insert_of_not_leads fun ht => hs (hleads.2 ht)]
    exact ⟨congrArg (SortedMap.insert · _ _) h.labels, congrArg (SortedMap.push · _ _) h.outgoing⟩

/-- So does adding many edges. -/
theorem SameUpward.insertAll (h : s.SameUpward t) (es : List (Edge ε)) :
    (s.insertAll es).SameUpward (t.insertAll es) := by
  induction es generalizing s t with
  | nil => exact h
  | cons e es ih => exact ih (h.insert e)

/-- The maps agree after many edges were added. -/
theorem Coherent.insertAll (hs : s.Coherent) (es : List (Edge ε)) : (s.insertAll es).Coherent := by
  induction es generalizing s with
  | nil => exact hs
  | cons e es ih => exact ih (hs.insert e)

/-- After many edges were added, they are there beside the old ones. -/
theorem leads_insertAll_iff {es : List (Edge ε)} :
    (s.insertAll es).Leads c p ↔ s.Leads c p ∨ ∃ e ∈ es, e.child = c ∧ e.parent = p := by
  induction es generalizing s with
  | nil => simp
  | cons e es ih =>
    rw [insertAll_cons, ih, leads_insert_iff, or_assoc]
    simp only [List.mem_cons, or_and_right, exists_or, exists_eq_left, @eq_comm _ c, @eq_comm _ p]

/-- Edges that are new to a store, no two of them with the same ends. -/
structure Fresh (s : EdgeStore ε) (es : List (Edge ε)) : Prop where
  not_leads : ∀ e ∈ es, ¬s.Leads e.child e.parent
  nodup_ends : (es.map Edge.ends).Nodup

/-- Edges from children that have no edge yet are new. -/
theorem Fresh.of_nodup_children {es : List (Edge ε)} (hs : s.Coherent)
    (hnodup : (es.map Edge.child).Nodup) (hnone : ∀ e ∈ es, s.parentEdges e.child = []) :
    s.Fresh es where
  not_leads e he := by
    rw [leads_iff hs, hnone e he]
    simp
  nodup_ends := by
    apply List.Nodup.of_map Ends.child
    rw [List.map_map]
    exact hnodup

/-- The first of new edges is new. -/
theorem Fresh.head {es : List (Edge ε)} (h : s.Fresh (e :: es)) :
    ¬s.Leads e.child e.parent :=
  h.not_leads e List.mem_cons_self

/-- Once the first of new edges is added, the others are still new. -/
theorem Fresh.tail {es : List (Edge ε)} (h : s.Fresh (e :: es)) : (s.insert e).Fresh es := by
  have hnodup := h.nodup_ends
  rw [List.map_cons, List.nodup_cons] at hnodup
  refine ⟨fun f hf hleads => ?_, hnodup.2⟩
  rcases leads_insert_iff.1 hleads with hold | ⟨hchild, hparent⟩
  · exact h.not_leads f (List.mem_cons_of_mem e hf) hold
  · refine hnodup.1 (List.mem_map.2 ⟨f, hf, ?_⟩)
    rw [Edge.ends, Edge.ends, hchild, hparent]

/-- Edges are new if the first is, and the others are once it is added. -/
theorem Fresh.cons {es : List (Edge ε)} (h : ¬s.Leads e.child e.parent)
    (hrest : (s.insert e).Fresh es) : s.Fresh (e :: es) where
  not_leads f hf hleads := by
    rcases List.mem_cons.1 hf with rfl | hf
    · exact h hleads
    · exact hrest.not_leads f hf (leads_insert_iff.2 (Or.inl hleads))
  nodup_ends := by
    rw [List.map_cons, List.nodup_cons]
    refine ⟨fun hmem => ?_, hrest.nodup_ends⟩
    obtain ⟨f, hf, heq⟩ := List.mem_map.1 hmem
    exact hrest.not_leads f hf (leads_insert_iff.2 (Or.inr (Ends.mk.inj heq)))

/-- New edges are listed after the old ones of their child. -/
theorem parentEdges_insertAll {es : List (Edge ε)} (hs : s.Coherent) (h : s.Fresh es)
    (c : NodeId) :
    (s.insertAll es).parentEdges c =
      s.parentEdges c ++ (es.filter (·.child = c)).map fun e => (e.parent, e.label) := by
  induction es generalizing s with
  | nil => simp
  | cons e es ih =>
    rw [insertAll_cons, ih (hs.insert e) h.tail, parentEdges_insert hs h.head]
    by_cases hc : e.child = c <;> simp [hc]

/-- New edges are listed after the old ones of their parent. -/
theorem children_insertAll {es : List (Edge ε)} (h : s.Fresh es) (p : NodeId) :
    (s.insertAll es).children p =
      s.children p ++ (es.filter (·.parent = p)).map Edge.child := by
  induction es generalizing s with
  | nil => simp
  | cons e es ih =>
    rw [insertAll_cons, ih h.tail, children_insert h.head]
    by_cases hp : e.parent = p <;> simp [hp]

/-! ## Removing an edge -/

/-- A removal takes the edge out of all three maps. -/
theorem remove_of_label? (h : s.label? c p = some label) :
    s.remove c p =
      (some label,
        { labels := s.labels.erase ⟨c, p⟩
          outgoing := s.outgoing.unlink c p
          incoming := s.incoming.unlink p c }) := by
  have hget : s.labels.get? ⟨c, p⟩ = some label := h
  unfold remove
  rw [hget]

/-- A removal that fails changes nothing. -/
theorem remove_of_not_leads (h : ¬s.Leads c p) : s.remove c p = (none, s) := by
  have hget : s.labels.get? ⟨c, p⟩ = none := label?_eq_none_iff.2 h
  unfold remove
  rw [hget]

/-- What a removal does can be told from the edge it takes, or there was none. -/
theorem remove_cases (s : EdgeStore ε) (c p : NodeId) :
    (∃ label, s.label? c p = some label ∧ s.remove c p =
      (some label, ⟨s.labels.erase ⟨c, p⟩, s.outgoing.unlink c p, s.incoming.unlink p c⟩)) ∨
      ¬s.Leads c p ∧ s.remove c p = (none, s) := by
  by_cases h : s.Leads c p
  · obtain ⟨label, hlabel⟩ := leads_iff_exists_label?.1 h
    exact Or.inl ⟨label, hlabel, remove_of_label? hlabel⟩
  · exact Or.inr ⟨h, remove_of_not_leads h⟩

/-- Removing an edge takes its label and leaves all others. -/
theorem label?_remove (s : EdgeStore ε) (c p d q : NodeId) :
    (s.remove c p).2.label? d q = if c = d ∧ p = q then none else s.label? d q := by
  rcases remove_cases s c p with ⟨label, hlabel, heq⟩ | ⟨h, heq⟩
  · rw [heq]
    unfold label?
    rw [SortedMap.get?_erase]
    simp only [Ends.mk.injEq]
  · rw [heq]
    split
    · next hends =>
      obtain ⟨rfl, rfl⟩ := hends
      exact label?_eq_none_iff.2 h
    · rfl

/-- After a removal, all other edges are there. -/
theorem leads_remove_iff {d q : NodeId} :
    (s.remove c p).2.Leads d q ↔ s.Leads d q ∧ ¬(d = c ∧ q = p) := by
  rw [leads_iff_exists_label?, leads_iff_exists_label?, label?_remove]
  split
  · next h => simp [h.1.symm, h.2.symm]
  · next h =>
    have hother : ¬(d = c ∧ q = p) := fun heq => h ⟨heq.1.symm, heq.2.symm⟩
    simp [hother]

/-- A removal takes one parent out of one list. -/
theorem parents_remove (hs : s.Coherent) (c p i : NodeId) :
    (s.remove c p).2.parents i =
      if c = i then (s.parents i).filter (· ≠ p) else s.parents i := by
  rcases remove_cases s c p with ⟨label, -, heq⟩ | ⟨h, heq⟩
  · rw [heq]
    exact SortedMap.getList_unlink _ _ _ _
  · rw [heq]
    split
    · next hi =>
      subst hi
      refine (List.filter_eq_self.2 fun q hq => ?_).symm
      simp only [ne_eq, decide_eq_true_eq]
      rintro rfl
      exact h ((hs.mem_parents_iff c q).1 hq)
    · rfl

/-- A removal takes one child out of one list. -/
theorem children_remove (hs : s.Coherent) (c p i : NodeId) :
    (s.remove c p).2.children i =
      if p = i then (s.children i).filter (· ≠ c) else s.children i := by
  rcases remove_cases s c p with ⟨label, -, heq⟩ | ⟨h, heq⟩
  · rw [heq]
    exact SortedMap.getList_unlink _ _ _ _
  · rw [heq]
    split
    · next hi =>
      subst hi
      refine (List.filter_eq_self.2 fun d hd => ?_).symm
      simp only [ne_eq, decide_eq_true_eq]
      rintro rfl
      exact h ((hs.mem_children_iff d p).1 hd)
    · rfl

/-- The maps agree after a removal. -/
theorem Coherent.remove (hs : s.Coherent) (c p : NodeId) : (s.remove c p).2.Coherent where
  mem_parents_iff d q := by
    rw [leads_remove_iff, parents_remove hs, ← hs.mem_parents_iff]
    by_cases hc : c = d
    · simp [hc]
    · simp [hc, Ne.symm hc]
  mem_children_iff d q := by
    rw [leads_remove_iff, children_remove hs, ← hs.mem_children_iff]
    by_cases hp : p = q
    · simp [hp]
    · simp [hp, Ne.symm hp]
  nodup_parents d := by
    rw [parents_remove hs]
    split
    · exact (hs.nodup_parents d).filter _
    · exact hs.nodup_parents d
  nodup_children q := by
    rw [children_remove hs]
    split
    · exact (hs.nodup_children q).filter _
    · exact hs.nodup_children q
  tidy_outgoing := by
    rcases remove_cases s c p with ⟨label, -, heq⟩ | ⟨-, heq⟩
    · rw [heq]
      exact hs.tidy_outgoing.unlink _ _
    · rw [heq]
      exact hs.tidy_outgoing
  tidy_incoming := by
    rcases remove_cases s c p with ⟨label, -, heq⟩ | ⟨-, heq⟩
    · rw [heq]
      exact hs.tidy_incoming.unlink _ _
    · rw [heq]
      exact hs.tidy_incoming

/-! ## Sorting children -/

/-- Sorting touches the children of one vertex; where it has none, there is nothing to sort. -/
theorem sortChildren_eq (s : EdgeStore ε) (p : NodeId) :
    ∃ incoming, s.sortChildren p = { s with incoming } ∧ (s.incoming.Tidy → incoming.Tidy) ∧
      ∀ i, incoming.getList i =
        if p = i then (s.children i).mergeSort (· ≤ ·) else s.children i := by
  unfold sortChildren
  cases hget : s.incoming.get? p with
  | none =>
    refine ⟨s.incoming, rfl, id, fun i => ?_⟩
    split
    · next hi =>
      subst hi
      simp [children, SortedMap.getList, hget]
    · rfl
  | some list =>
    refine ⟨s.incoming.insert p (list.mergeSort (· ≤ ·)), rfl, fun htidy => ?_, fun i => ?_⟩
    · refine htidy.insert p fun hnil => htidy p ?_
      have hlength : (list.mergeSort (· ≤ ·)).length = list.length := List.length_mergeSort list
      rw [hnil] at hlength
      rw [hget, List.length_eq_zero_iff.1 hlength.symm]
    · rw [SortedMap.getList_insert]
      split
      · next hi =>
        subst hi
        simp [children, SortedMap.getList, hget]
      · rfl

/-- Sorting children leaves labels and lists of parents. -/
theorem sameUpward_sortChildren (s : EdgeStore ε) (q : NodeId) :
    (s.sortChildren q).SameUpward s := by
  obtain ⟨incoming, heq, -⟩ := sortChildren_eq s q
  rw [heq]
  exact ⟨rfl, rfl⟩

/-- Sorting children leaves the labels. -/
@[simp] theorem label?_sortChildren (s : EdgeStore ε) (q : NodeId) :
    (s.sortChildren q).label? c p = s.label? c p := by
  unfold label?
  rw [(sameUpward_sortChildren s q).labels]

/-- Sorting children leaves the parents. -/
@[simp] theorem parents_sortChildren (s : EdgeStore ε) (q : NodeId) :
    (s.sortChildren q).parents c = s.parents c := by
  unfold parents
  rw [(sameUpward_sortChildren s q).outgoing]

/-- Sorting children leaves the parents with their labels. -/
@[simp] theorem parentEdges_sortChildren (s : EdgeStore ε) (q c : NodeId) :
    (s.sortChildren q).parentEdges c = s.parentEdges c := by
  unfold parentEdges
  simp only [parents_sortChildren, label?_sortChildren]

/-- Sorting children leaves the edges. -/
@[simp] theorem leads_sortChildren (s : EdgeStore ε) (q : NodeId) :
    (s.sortChildren q).Leads c p ↔ s.Leads c p := by
  rw [leads_iff_exists_label?, leads_iff_exists_label?, label?_sortChildren]

/-- Sorting puts the children of one vertex in order and leaves those of the others. -/
theorem children_sortChildren (s : EdgeStore ε) (p i : NodeId) :
    (s.sortChildren p).children i =
      if p = i then (s.children i).mergeSort (· ≤ ·) else s.children i := by
  obtain ⟨incoming, heq, -, hlist⟩ := sortChildren_eq s p
  rw [heq]
  exact hlist i

/-- Sorting keeps the children of every vertex. -/
theorem perm_children_sortChildren (s : EdgeStore ε) (p i : NodeId) :
    ((s.sortChildren p).children i).Perm (s.children i) := by
  rw [children_sortChildren]
  split
  · exact List.mergeSort_perm _ _
  · exact List.Perm.refl _

/-- The maps agree after children were sorted. -/
theorem Coherent.sortChildren (hs : s.Coherent) (p : NodeId) : (s.sortChildren p).Coherent where
  mem_parents_iff c q := by
    rw [parents_sortChildren, leads_sortChildren]
    exact hs.mem_parents_iff c q
  mem_children_iff c q := by
    rw [(perm_children_sortChildren s p q).mem_iff, leads_sortChildren]
    exact hs.mem_children_iff c q
  nodup_parents c := by
    rw [parents_sortChildren]
    exact hs.nodup_parents c
  nodup_children q := (perm_children_sortChildren s p q).nodup_iff.2 (hs.nodup_children q)
  tidy_outgoing := by
    rw [(sameUpward_sortChildren s p).outgoing]
    exact hs.tidy_outgoing
  tidy_incoming := by
    obtain ⟨incoming, heq, htidy, -⟩ := sortChildren_eq s p
    rw [heq]
    exact htidy hs.tidy_incoming

/-- The sorted children of a vertex ascend. -/
theorem pairwise_children_sortChildren (hs : s.Coherent) (p : NodeId) :
    ((s.sortChildren p).children p).Pairwise (· < ·) := by
  have hnodup := (hs.sortChildren p).nodup_children p
  rw [children_sortChildren, if_pos rfl] at hnodup ⊢
  have hle : ((s.children p).mergeSort (· ≤ ·)).Pairwise fun a b => decide (a ≤ b) = true := by
    refine List.pairwise_mergeSort ?_ ?_ (s.children p)
    · intro a b c hab hbc
      rw [decide_eq_true_eq] at *
      exact UInt64.le_trans hab hbc
    · intro a b
      rw [Bool.or_eq_true, decide_eq_true_eq, decide_eq_true_eq]
      exact UInt64.le_total a b
  apply (hle.and hnodup).imp
  rintro a b ⟨hab, hne⟩
  exact UInt64.lt_of_le_of_ne (of_decide_eq_true hab) hne

/-! ## All edges -/

/-- All edges, told by the parents that are listed with their labels. -/
theorem edges_eq_flatMap (s : EdgeStore ε) :
    s.edges = s.outgoing.keys.flatMap fun c => (s.parentEdges c).map fun e => ⟨c, e.1, e.2⟩ := by
  unfold edges parentEdges
  simp only [List.map_filterMap, Option.map_map]
  rfl

/-- All edges are told by the labels and the lists of parents. -/
theorem SameUpward.edges_eq (h : s.SameUpward t) : s.edges = t.edges := by
  unfold edges parents label?
  rw [h.labels, h.outgoing]

/-- The list of all edges holds what is listed with the parents of each child. -/
theorem mem_edges_iff : e ∈ s.edges ↔ (e.parent, e.label) ∈ s.parentEdges e.child := by
  rw [edges_eq_flatMap, List.mem_flatMap]
  constructor
  · rintro ⟨c, -, he⟩
    obtain ⟨⟨p, label⟩, hmem, rfl⟩ := List.mem_map.1 he
    exact hmem
  · intro hmem
    refine ⟨e.child, ?_, List.mem_map.2 ⟨(e.parent, e.label), hmem, rfl⟩⟩
    have hlisted : e.parent ∈ s.outgoing.getList e.child := (mem_parentEdges_iff.1 hmem).1
    rw [SortedMap.mem_keys_iff, SortedMap.contains_iff]
    cases hget : s.outgoing.get? e.child with
    | none => simp [SortedMap.getList, hget] at hlisted
    | some list => exact ⟨list, rfl⟩

/-- What is listed among all edges is an edge. -/
theorem leads_of_mem_edges (h : e ∈ s.edges) : s.Leads e.child e.parent :=
  leads_of_label? (mem_parentEdges_iff.1 (mem_edges_iff.1 h)).2

/-- A store without labels has no edge. -/
theorem not_leads_of_isEmpty (h : s.isEmpty = true) : ¬s.Leads c p := by
  have hnone : s.labels.entries = [] := List.isEmpty_iff.1 h
  intro hleads
  obtain ⟨label, hlabel⟩ := leads_iff_exists_label?.1 hleads
  have hentry := SortedMap.mem_entries_iff.2 hlabel
  simp [hnone] at hentry

/-- A store with a label has an edge. -/
theorem exists_leads_of_not_isEmpty (h : ¬s.isEmpty = true) : ∃ c p, s.Leads c p := by
  obtain ⟨⟨⟨c, p⟩, label⟩, hentry⟩ :=
    List.exists_mem_of_ne_nil s.labels.entries fun hnil => h (List.isEmpty_iff.2 hnil)
  exact ⟨c, p, leads_of_label? (SortedMap.mem_entries_iff.1 hentry)⟩

/-- The edges of one child, picked out of all edges. -/
theorem filter_edges (s : EdgeStore ε) (c : NodeId) :
    s.edges.filter (·.child = c) = (s.parentEdges c).map fun e => ⟨c, e.1, e.2⟩ := by
  rw [edges_eq_flatMap, SortedMap.filter_flatMap_of_nodup s.outgoing.nodup_keys]
  · split
    · rfl
    · next hc =>
      rw [SortedMap.mem_keys_iff, Bool.not_eq_true] at hc
      have hnone : s.outgoing.get? c = none := by simpa [SortedMap.contains] using hc
      simp [parentEdges, parents, SortedMap.getList, hnone]
  · intro k e he
    obtain ⟨_, -, rfl⟩ := List.mem_map.1 he
    rfl

/-- All edges come by ascending child, and no two edges of one child have the
same parent. -/
theorem pairwise_edges (hs : s.Coherent) :
    s.edges.Pairwise fun d e => d.child < e.child ∨ (d.child = e.child ∧ d.parent ≠ e.parent) := by
  rw [edges_eq_flatMap, List.pairwise_flatMap]
  constructor
  · intro c _
    have hnodup : ((s.parentEdges c).map Prod.fst).Nodup :=
      map_fst_parentEdges hs c ▸ hs.nodup_parents c
    rw [List.pairwise_map]
    exact (List.pairwise_map.1 hnodup).imp fun hne => Or.inr ⟨rfl, hne⟩
  · refine List.Pairwise.imp ?_ s.outgoing.ascending
    rintro a b hlt d hd e he
    obtain ⟨_, -, rfl⟩ := List.mem_map.1 hd
    obtain ⟨_, -, rfl⟩ := List.mem_map.1 he
    exact Or.inl hlt

/-- No two of all edges have the same ends. -/
theorem nodup_map_ends_edges (hs : s.Coherent) : (s.edges.map Edge.ends).Nodup := by
  unfold List.Nodup
  rw [List.pairwise_map]
  apply (pairwise_edges hs).imp
  rintro d e (hlt | ⟨-, hne⟩) heq
  · exact UInt64.ne_of_lt hlt (Ends.mk.inj heq).1
  · exact hne (Ends.mk.inj heq).2

/-- The edges of a store are new to a store without edges. -/
theorem fresh_edges (hs : s.Coherent) : (empty : EdgeStore ε).Fresh s.edges where
  not_leads _ _ := not_leads_empty
  nodup_ends := nodup_map_ends_edges hs

/-- The list of all edges passes over nothing: it has one edge for each label. -/
theorem perm_map_ends_edges (hs : s.Coherent) : (s.edges.map Edge.ends).Perm s.labels.keys := by
  refine (List.perm_ext_iff_of_nodup (nodup_map_ends_edges hs) s.labels.nodup_keys).2 ?_
  rintro ⟨c, p⟩
  rw [SortedMap.mem_keys_iff, List.mem_map]
  change _ ↔ s.Leads c p
  rw [leads_iff hs]
  constructor
  · rintro ⟨⟨_, _, label⟩, he, heq⟩
    obtain ⟨rfl, rfl⟩ := Ends.mk.inj heq
    exact ⟨label, mem_edges_iff.1 he⟩
  · rintro ⟨label, hmem⟩
    exact ⟨⟨c, p, label⟩, mem_edges_iff.2 hmem, rfl⟩

/-- The labels are as many as the edges that are listed. -/
theorem size_eq_length_edges (hs : s.Coherent) : s.size = s.edges.length := by
  have hlength := (perm_map_ends_edges hs).length_eq
  rw [List.length_map] at hlength
  rw [hlength]
  exact (List.length_map _).symm

end EdgeStore

end QueryGraph
