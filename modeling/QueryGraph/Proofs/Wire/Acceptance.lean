import QueryGraph.Proofs.Wire.Decoding

/-!
# The wires that are accepted

Decoding looks at a wire in three steps: at its nodes before any edge is replayed, at
each edge as it is replayed, and at the graph in the end.  Together they accept exactly the
wires that describe a complete graph without a cycle, each edge listed once.  All this is
said here of the wire alone.

Main definitions:

- {lit}`Wire.Lists`: a wire lists a parent of a child.
- {lit}`Wire.Acceptable`: the wires that describe a plan.

Main results:

- {lit}`Wire.fresh_edges_iff`: no edge is replayed twice if and only if no child lists a
  parent twice.
- {lit}`Wire.acyclic_rebuilt_iff`: the replayed edges have no cycle if and only if the
  listed ones have none.
- {lit}`Wire.toPlan_accepts_iff`: exactly the acceptable wires are accepted.
-/

namespace QueryGraph

namespace Wire

variable {w : Wire} {config : PlannerConfig} {c q : NodeId}

/-- A wire lists a parent of a child. -/
def Lists (w : Wire) (c q : NodeId) : Prop :=
  ∃ refs, w.adjacency.get? c = some refs ∧ q ∈ refs.map ParentRef.parent

/-- The wires that describe a plan: the terminal is a root without inputs; every vertex
stands alone under its own identifier, and under the terminal's there is nothing but the
terminal; the supply has handed out all identifiers; the children that have a list of
parents, be it empty, are vertices other than the terminal, and the parents are vertices or
the terminal; the recorded scans are vertices; no child lists a parent twice; and no path
from child to parent leads back to its start. -/
structure Acceptable (w : Wire) : Prop extends w.Checked where
  parents_nodup : ∀ c refs, w.adjacency.get? c = some refs →
    (refs.map ParentRef.parent).Nodup
  acyclic : ∀ v, ¬Relation.TransGen w.Lists v v

/-! ## Edges -/

/-- A parent that is listed for a vertex is the end of an edge. -/
theorem lists_iff_exists_mem_edges : w.Lists c q ↔ ∃ e ∈ w.edges, e.child = c ∧ e.parent = q := by
  constructor
  · rintro ⟨refs, hget, hmem⟩
    rcases List.mem_map.1 hmem with ⟨r, hr, rfl⟩
    exact ⟨⟨c, r.parent, r.edgeType⟩, mem_edges_iff.2 ⟨refs, hget, hr⟩, rfl, rfl⟩
  · rintro ⟨e, he, rfl, rfl⟩
    rcases mem_edges_iff.1 he with ⟨refs, hget, hr⟩
    exact ⟨refs, hget, List.mem_map_of_mem hr⟩

/-- The ends of the edges, child by child. -/
theorem map_ends_edges (w : Wire) :
    w.edges.map Edge.ends =
      w.adjacency.entries.flatMap fun entry => entry.2.map fun r => ⟨entry.1, r.parent⟩ := by
  unfold edges
  rw [List.map_flatMap]
  simp only [List.map_map]
  rfl

/-- No edge is replayed twice if and only if no child lists a parent twice. -/
theorem fresh_edges_iff :
    EdgeStore.empty.Fresh w.edges ↔
      ∀ c refs, w.adjacency.get? c = some refs → (refs.map ParentRef.parent).Nodup := by
  have hlist : ∀ (c : NodeId) (refs : List ParentRef),
      (refs.map fun r => Ends.mk c r.parent).Nodup ↔ (refs.map ParentRef.parent).Nodup := by
    intro c refs
    have hends : (refs.map fun r => Ends.mk c r.parent) =
        (refs.map ParentRef.parent).map (Ends.mk c) := by
      simp
    rw [hends, List.nodup_map_iff fun _ _ heq => (Ends.mk.inj heq).2]
  have hkeys : w.adjacency.entries.Pairwise fun a b =>
      List.Disjoint (a.2.map fun r => Ends.mk a.1 r.parent)
        (b.2.map fun r => Ends.mk b.1 r.parent) := by
    apply (List.pairwise_map.1 w.adjacency.ascending).imp
    intro a b hlt e ha hb
    rcases List.mem_map.1 ha with ⟨_, _, rfl⟩
    rcases List.mem_map.1 hb with ⟨_, _, heq⟩
    exact UInt64.ne_of_lt hlt (Ends.mk.inj heq).1.symm
  have hends : (w.edges.map Edge.ends).Nodup ↔
      ∀ c refs, w.adjacency.get? c = some refs → (refs.map ParentRef.parent).Nodup := by
    rw [map_ends_edges, List.nodup_flatMap]
    simp only [hlist, Prod.forall, SortedMap.mem_entries_iff]
    exact and_iff_left hkeys
  rw [← hends]
  exact ⟨EdgeStore.Fresh.nodup_ends, fun h => ⟨fun e _ => EdgeStore.not_leads_empty, h⟩⟩

/-- The replayed edges have no cycle if and only if the listed ones have none. -/
theorem acyclic_rebuilt_iff :
    w.rebuilt.Acyclic ↔ ∀ v, ¬Relation.TransGen w.Lists v v := by
  have hsame : w.rebuilt.Leads = w.Lists := by
    funext c q
    rw [eq_iff_iff, leads_rebuilt_iff, lists_iff_exists_mem_edges]
  unfold EdgeStore.Acyclic
  rw [hsame]

/-! ## Acceptance -/

/-- A wire is acceptable if the checks pass, no edge comes twice and there is no cycle. -/
theorem acceptable_iff :
    w.Acceptable ↔ w.Checked ∧ EdgeStore.empty.Fresh w.edges ∧ w.rebuilt.Acyclic := by
  constructor
  · intro h
    exact ⟨h.toChecked, fresh_edges_iff.2 h.parents_nodup, acyclic_rebuilt_iff.2 h.acyclic⟩
  · rintro ⟨hchecked, hfresh, hacyclic⟩
    exact ⟨hchecked, fresh_edges_iff.1 hfresh, acyclic_rebuilt_iff.1 hacyclic⟩

/-- An acceptable wire becomes the plan whose graph the replay makes. -/
theorem Acceptable.toPlan_eq (h : w.Acceptable) (config : PlannerConfig) :
    w.toPlan config = .ok (w.assemble config w.rebuilt, ⟨w.supplyState⟩) := by
  obtain ⟨hchecked, hfresh, hacyclic⟩ := acceptable_iff.1 h
  exact toPlan_eq_ok_iff.2 ⟨hchecked, hfresh, hacyclic, rfl, rfl⟩

/-- A wire that is decoded is acceptable. -/
theorem acceptable_of_toPlan {p : Plan} {supply : IdSupply}
    (h : w.toPlan config = .ok (p, supply)) : w.Acceptable := by
  obtain ⟨hchecked, hfresh, hacyclic, -⟩ := toPlan_eq_ok_iff.1 h
  exact acceptable_iff.2 ⟨hchecked, hfresh, hacyclic⟩

/-- Exactly the acceptable wires are accepted.  Any other is rejected with an error about
the decoding. -/
theorem toPlan_accepts_iff (w : Wire) (config : PlannerConfig) :
    ((∃ p supply, w.toPlan config = .ok (p, supply)) ↔ w.Acceptable) ∧
      (¬w.Acceptable → ∃ error reason, w.toPlan config = .error error ∧
        error.message = "Deserialization error: " ++ reason) := by
  refine ⟨⟨?_, ?_⟩, ?_⟩
  · rintro ⟨p, supply, h⟩
    exact acceptable_of_toPlan h
  · intro h
    exact ⟨_, _, h.toPlan_eq config⟩
  · intro hnot
    cases hresult : w.toPlan config with
    | error error => exact ⟨error, _, rfl, rfl⟩
    | ok result => exact absurd (acceptable_of_toPlan hresult) hnot

end Wire

end QueryGraph
