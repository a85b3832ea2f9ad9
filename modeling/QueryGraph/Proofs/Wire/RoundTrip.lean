import QueryGraph.Proofs.Plan.Alike
import QueryGraph.Proofs.Plan.Reachable

/-!
# Writing a plan and reading it back

A built plan whose identifiers were handed out is written to a wire that is accepted,
and the plan that is read back answers like the one that was written.  The replay adds
the edges by ascending child.  It finds the parents of every vertex in the order in
which they were written, and the children in ascending order, which is their order by
type in the written plan too.

Main definitions:

- {lit}`Plan.decoded`: what is read back.

Main results:

- {lit}`Plan.edges_toWire`: a wire lists the edges of its plan.
- {lit}`Plan.WellFormed.checked_toWire`: the wire of a plan passes the checks.
- {lit}`Plan.WellFormed.topLevelIds_decoded_eq_iff`: the fragments under the terminal keep
  their order if and only if they ascend.
- {lit}`Plan.WellFormed.alike_decoded`: what is read back answers like what was
  written.
- {lit}`Plan.toPlan_toWire`: writing a plan and reading it back.
-/

namespace QueryGraph

namespace Wire

variable {s t : EdgeStore EdgeType} {c : NodeId}

/-! ## The parents of each child -/

/-- The parents that a list of edges adds to what is listed. -/
theorem getList_foldl_edges (es : List (Edge EdgeType)) (m : IdMap (List ParentRef)) (c : NodeId) :
    (es.foldl (fun m e => m.push e.child ⟨e.parent, e.label⟩) m).getList c =
      m.getList c ++ (es.filter (·.child = c)).map fun e => ⟨e.parent, e.label⟩ := by
  induction es generalizing m with
  | nil => simp
  | cons e es ih =>
    rw [List.foldl_cons, ih, SortedMap.getList_push]
    by_cases hc : e.child = c <;> simp [hc]

/-- Listing edges under their children keeps no empty list. -/
theorem tidy_foldl_edges (es : List (Edge EdgeType)) {m : IdMap (List ParentRef)} (hm : m.Tidy) :
    (es.foldl (fun m e => m.push e.child ⟨e.parent, e.label⟩) m).Tidy := by
  induction es generalizing m with
  | nil => exact hm
  | cons e es ih => exact ih (hm.push e.child _)

/-- A wire keeps no empty list of parents. -/
theorem tidy_adjacencyOf (s : EdgeStore EdgeType) : (adjacencyOf s).Tidy :=
  tidy_foldl_edges s.edges SortedMap.tidy_empty

/-- A wire lists the parents of a child as the edge store does. -/
theorem getList_adjacencyOf (s : EdgeStore EdgeType) (c : NodeId) :
    (adjacencyOf s).getList c = (s.parentEdges c).map fun e => ⟨e.1, e.2⟩ := by
  unfold adjacencyOf
  rw [getList_foldl_edges, SortedMap.getList_empty, List.nil_append, EdgeStore.filter_edges,
    List.map_map]
  rfl

/-- A wire lists the children that have a parent. -/
theorem entries_adjacencyOf (hs : s.Coherent) :
    (adjacencyOf s).entries =
      s.outgoing.keys.map fun c => (c, (s.parentEdges c).map fun e => ⟨e.1, e.2⟩) := by
  rw [(tidy_adjacencyOf s).entries_eq_map s.outgoing.ascending fun c => ?_]
  · simp only [getList_adjacencyOf]
    rfl
  · change c ∈ s.outgoing.keys ↔ _
    rw [hs.tidy_outgoing.mem_keys_iff, getList_adjacencyOf, ne_eq, ne_eq, List.map_eq_nil_iff]
    change ¬s.parents c = [] ↔ _
    rw [← EdgeStore.map_fst_parentEdges hs, List.map_eq_nil_iff]

/-- Only children with a parent are listed. -/
theorem get?_adjacencyOf {refs : List ParentRef} (h : (adjacencyOf s).get? c = some refs) :
    (∃ q, s.Leads c q) ∧ ∀ r ∈ refs, s.Leads c r.parent := by
  rw [(tidy_adjacencyOf s).get?_eq_some_iff, getList_adjacencyOf] at h
  rcases h with ⟨rfl, hne⟩
  have hleads : ∀ e ∈ s.parentEdges c, s.Leads c e.1 := fun e he =>
    EdgeStore.leads_of_label? (EdgeStore.mem_parentEdges_iff.1 he).2
  constructor
  · rcases List.exists_mem_of_ne_nil _ hne with ⟨r, hr⟩
    rcases List.mem_map.1 hr with ⟨e, he, -⟩
    exact ⟨e.1, hleads e he⟩
  · intro r hr
    rcases List.mem_map.1 hr with ⟨e, he, rfl⟩
    exact hleads e he

/-- The order of children does not show in a wire. -/
theorem adjacencyOf_congr (h : s.SameUpward t) : adjacencyOf s = adjacencyOf t := by
  unfold adjacencyOf
  rw [h.edges_eq]

/-- Replaying the edges of a store lists the parents of every vertex as it does. -/
theorem parentEdges_rebuilt_of_edges {w : Wire} (hs : s.Coherent) (hw : w.edges = s.edges)
    (c : NodeId) : w.rebuilt.parentEdges c = s.parentEdges c := by
  have hfresh : EdgeStore.empty.Fresh w.edges := hw ▸ EdgeStore.fresh_edges hs
  unfold rebuilt
  rw [EdgeStore.parentEdges_insertAll EdgeStore.coherent_empty hfresh,
    EdgeStore.parentEdges_empty, List.nil_append, hw, EdgeStore.filter_edges, List.map_map]
  exact List.map_id _

/-- Replaying the edges of a store gives back all but the order of children. -/
theorem sameUpward_rebuilt {w : Wire} (hs : s.Coherent) (hw : w.edges = s.edges) :
    w.rebuilt.SameUpward s :=
  w.coherent_rebuilt.sameUpward hs (parentEdges_rebuilt_of_edges hs hw)

end Wire

namespace Plan

open EdgeStore

variable {p : Plan} {supply : IdSupply}

/-- The plan that is read back from the wire of a plan. -/
def decoded (p : Plan) (supply : IdSupply) (config : PlannerConfig) : Plan :=
  (p.toWire supply).assemble config (p.toWire supply).rebuilt

/-! ## Acceptance -/

/-- A wire lists the edges of its plan in the order of the edge store. -/
theorem edges_toWire (h : p.edges.Coherent) (supply : IdSupply) :
    (p.toWire supply).edges = p.edges.edges := by
  change (Wire.adjacencyOf p.edges).entries.flatMap _ = _
  rw [Wire.entries_adjacencyOf h, List.flatMap_map, edges_eq_flatMap]
  apply List.flatMap_congr
  intro c _
  exact List.map_map

namespace WellFormed

variable (h : p.WellFormed)

include h

/-- The wire of a plan whose identifiers were all handed out passes the checks. -/
theorem checked_toWire (hissued : ∀ i, p.vertices.contains i = true → i < supply.next) :
    (p.toWire supply).Checked where
  terminal_kind := h.terminal_kind
  terminal_alone := h.terminal_alone
  terminal_issued := hissued _ h.terminal_contained
  vertex_id := h.vertex_id
  vertex_alone := h.vertex_alone
  vertex_terminal n hget := Option.some.inj (hget.symm.trans h.terminal_vertex)
  vertex_issued i n hget := hissued i (SortedMap.contains_iff.2 ⟨n, hget⟩)
  child_known c refs hget := by
    rcases (Wire.get?_adjacencyOf hget).1 with ⟨q, hleads⟩
    refine ⟨?_, (h.ends_vertices c q hleads).1⟩
    rintro rfl
    exact h.terminal_sink q hleads
  parent_known c refs hget r hr :=
    Wire.knows_iff.2 (Or.inr (h.ends_vertices c _ ((Wire.get?_adjacencyOf hget).2 r hr)).2)
  scan_known s hs n hn := by
    rcases SortedMap.mem_values_iff.1 hn with ⟨i, hget⟩
    have hinputs : p.inputs = some s := hs
    apply h.scans_vertices i n
    unfold scanAt?
    rw [hinputs]
    exact hget

/-- No edge of the graph is written twice. -/
theorem fresh_toWire (supply : IdSupply) : EdgeStore.empty.Fresh (p.toWire supply).edges := by
  rw [edges_toWire h.coherent]
  exact fresh_edges h.coherent

/-- Every vertex gets its edges up back, in the same order. -/
theorem parentEdges_rebuilt (supply : IdSupply) (i : NodeId) :
    (p.toWire supply).rebuilt.parentEdges i = p.edges.parentEdges i :=
  Wire.parentEdges_rebuilt_of_edges h.coherent (edges_toWire h.coherent supply) i

/-- The same vertices are connected. -/
theorem leads_rebuilt_iff (supply : IdSupply) {c q : NodeId} :
    (p.toWire supply).rebuilt.Leads c q ↔ p.edges.Leads c q := by
  rw [leads_iff (Wire.coherent_rebuilt _), leads_iff h.coherent, h.parentEdges_rebuilt]

/-- There is still no cycle. -/
theorem acyclic_rebuilt (supply : IdSupply) : (p.toWire supply).rebuilt.Acyclic :=
  h.acyclic.mono fun _ _ hleads => (h.leads_rebuilt_iff supply).1 hleads

/-- The wire of a plan whose identifiers were all handed out is accepted. -/
theorem toPlan_eq_decoded (hissued : ∀ i, p.vertices.contains i = true → i < supply.next)
    (config : PlannerConfig) :
    (p.toWire supply).toPlan config = .ok (p.decoded supply config, supply) :=
  Wire.toPlan_eq_ok_iff.2 ⟨h.checked_toWire hissued, h.fresh_toWire supply,
    h.acyclic_rebuilt supply, rfl, rfl⟩

/-! ## What is read back -/

/-- All vertices are written, so the same are decoded. -/
theorem vertices_decoded (hissued : ∀ i, p.vertices.contains i = true → i < supply.next)
    (config : PlannerConfig) : (p.decoded supply config).vertices = p.vertices := by
  refine SortedMap.ext_get? fun i => Option.ext fun n => ?_
  unfold decoded
  rw [(h.checked_toWire hissued).get?_vertices_assemble_iff]
  constructor
  · intro hcase
    rcases hcase with hget | ⟨rfl, rfl⟩
    · exact hget
    · exact h.terminal_vertex
  · exact Or.inl

/-- The plan that is read back is written to the same wire. -/
theorem toWire_decoded (hissued : ∀ i, p.vertices.contains i = true → i < supply.next)
    (config : PlannerConfig) : (p.decoded supply config).toWire supply = p.toWire supply := by
  have hadjacency : Wire.adjacencyOf (p.decoded supply config).edges = Wire.adjacencyOf p.edges :=
    Wire.adjacencyOf_congr (Wire.sameUpward_rebuilt h.coherent (edges_toWire h.coherent supply))
  unfold toWire
  rw [h.vertices_decoded hissued config, hadjacency]
  rfl

/-- The same fragments stand under the terminal. -/
theorem mem_topLevelIds_decoded_iff (supply : IdSupply) (config : PlannerConfig) {c : NodeId} :
    c ∈ (p.decoded supply config).topLevelIds ↔ c ∈ p.topLevelIds := by
  have hcoherent : (p.decoded supply config).edges.Coherent := Wire.coherent_rebuilt _
  unfold topLevelIds
  rw [hcoherent.mem_children_iff, h.coherent.mem_children_iff]
  exact h.leads_rebuilt_iff supply

/-- The fragments of a decoded plan ascend, so they have kept their order if and only if
they were ascending. -/
theorem topLevelIds_decoded_eq_iff (supply : IdSupply) (config : PlannerConfig) :
    (p.decoded supply config).topLevelIds = p.topLevelIds ↔ p.topLevelIds.Pairwise (· < ·) := by
  have hdecoded : (p.decoded supply config).topLevelIds.Pairwise (· < ·) :=
    Wire.pairwise_children_rebuilt (h.fresh_toWire supply) p.terminal.id
  constructor
  · intro heq
    rwa [heq] at hdecoded
  · intro hascending
    exact ids_eq_of_ascending hdecoded hascending fun _ =>
      h.mem_topLevelIds_decoded_iff supply config

/-- The plan that is read back answers like the built plan that was written. -/
theorem alike_decoded (hbuilt : p.built = true)
    (hissued : ∀ i, p.vertices.contains i = true → i < supply.next) (config : PlannerConfig) :
    p.Alike (p.decoded supply config) := by
  have hcoherent : (p.decoded supply config).edges.Coherent := Wire.coherent_rebuilt _
  have hascending : ∀ v, ((p.decoded supply config).edges.children v).Pairwise (· < ·) :=
    Wire.pairwise_children_rebuilt (h.fresh_toWire supply)
  have hparents : ∀ i, (p.decoded supply config).edges.parentEdges i = p.edges.parentEdges i :=
    h.parentEdges_rebuilt supply
  have htop : (p.decoded supply config).topLevelIds = p.topLevelIds :=
    (h.topLevelIds_decoded_eq_iff supply config).2 (h.topLevel_ascending hbuilt)
  exact
    { terminal := rfl
      vertices := h.vertices_decoded hissued config
      hasJoin := rfl
      hasUnion := rfl
      inputs := rfl
      label? := fun _ _ => label?_congr hcoherent h.coherent (hparents _)
      parents := by
        intro i
        rw [← map_fst_parentEdges hcoherent, ← map_fst_parentEdges h.coherent, hparents]
      orderedChildren := by
        intro v
        exact orderedChildren_eq h.coherent hcoherent (h.ordered_of_built hbuilt v)
          (ordered_of_ascending (hascending v)) hparents
      topLevelIds := htop }

end WellFormed

/-- The identifiers in a plan are below a bound if its keys are. -/
theorem issued_of_all_keys {n : NodeId} (h : p.vertices.keys.all (· < n) = true) :
    ∀ i, p.vertices.contains i = true → i < n := fun _ hi =>
  of_decide_eq_true (List.all_eq_true.1 h _ (SortedMap.mem_keys_iff.2 hi))

/-- Every plan that can come about and is built, and all of whose vertices are below
the next identifier of the supply, is written to a wire that is accepted.  What is read
back is written to the same wire, has the same terminal, vertices, flags and input
scans, the same parents, ordered children and roots, and, unless a constant is no
number, the same structure in both modes of comparison. -/
theorem toPlan_toWire (h : p.Reachable) (hbuilt : p.built = true)
    (hissued : ∀ i, p.vertices.contains i = true → i < supply.next) (config : PlannerConfig) :
    ∃ q, (p.toWire supply).toPlan config = .ok (q, supply) ∧
      q.toWire supply = p.toWire supply ∧
      p.Alike q ∧
      ((∀ d ∈ p.constants, d.isNaN = false) →
        ∀ mode, sameStructure mode p q = true) := by
  have hwell := h.wellFormed
  have halike := hwell.alike_decoded hbuilt hissued config
  refine ⟨p.decoded supply config, hwell.toPlan_eq_decoded hissued config,
    hwell.toWire_decoded hissued config, halike, fun hconstants mode => ?_⟩
  exact halike.sameStructure hwell hconstants mode

/-- A plan that was built twice, the smaller root last. -/
def builtTwice : Plan :=
  (create .standard ⟨7⟩).1.run
    [.register (.leaf 5 ⟨[]⟩ (.scan "a" none)), .build,
      .register (.unary 2 ⟨[]⟩ (.selection (.const (.boolean true)))
        (some (.leaf 4 ⟨[]⟩ (.scan "b" none)))), .build]

/-- The plan that was built twice can come about. -/
theorem builtTwice_reachable : builtTwice.Reachable :=
  (Reachable.create .standard ⟨7⟩).run _

/-- Its supply has handed out all identifiers in use. -/
theorem builtTwice_issued :
    ∀ i, builtTwice.vertices.contains i = true → i < (IdSupply.mk 8).next :=
  issued_of_all_keys (by decide +kernel)

/-- The second build comes to its end as well. -/
theorem builtTwice_built : builtTwice.built = true := by decide +kernel

/-- That plan is read back with the same wire and structure. -/
theorem toPlan_toWire_builtTwice :
    builtTwice.built = true ∧
      ∃ q, (builtTwice.toWire ⟨8⟩).toPlan .standard = .ok (q, ⟨8⟩) ∧
        q.toWire ⟨8⟩ = builtTwice.toWire ⟨8⟩ ∧ sameStructure .content builtTwice q = true := by
  have hconstants : ∀ d ∈ builtTwice.constants, d.isNaN = false := by decide +kernel
  rcases toPlan_toWire builtTwice_reachable builtTwice_built builtTwice_issued .standard with
    ⟨q, hdecode, hwire, -, hsame⟩
  exact ⟨builtTwice_built, q, hdecode, hwire, hsame hconstants .content⟩

end Plan

end QueryGraph
