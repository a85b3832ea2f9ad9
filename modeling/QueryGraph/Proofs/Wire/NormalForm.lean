import QueryGraph.Proofs.Wire.RoundTrip

/-!
# The normal form of a wire

Two wires can describe the same plan: one of them may leave out the terminal among its
vertices, and may list children that have no parents.  A plan is written to the wire that
does neither.  So reading a wire and writing it again only adds the terminal and drops the
empty lists; each other list comes back as it was, in its order.

Main definitions:

- {lit}`SortedMap.withoutEmpty`: a map of lists without the empty ones.
- {lit}`Wire.normalForm`: the wire that a plan is written to.

Main results:

- {lit}`Wire.parentEdges_rebuilt`: the replay lists the parents of a child as the wire does.
- {lit}`Wire.toWire_assemble`: what is made of a wire is written to its normal form.
- {lit}`Wire.normalForm_normalForm`: a normal form is its own.
- {lit}`Wire.toWire_toPlan`: reading and writing leads to the normal form.
-/

namespace QueryGraph

namespace SortedMap

variable {α : Type}

/-- A map of lists without the empty ones. -/
def withoutEmpty (m : IdMap (List α)) : IdMap (List α) :=
  ⟨m.entries.filter fun e => !e.2.isEmpty, m.ascending.sublist (List.filter_sublist.map _)⟩

/-- Under a key there is the same list, unless it is empty. -/
theorem get?_withoutEmpty (m : IdMap (List α)) (k : NodeId) :
    m.withoutEmpty.get? k = (m.get? k).filter (!·.isEmpty) := by
  apply Option.ext
  intro list
  rw [Option.filter_eq_some_iff, ← mem_entries_iff, ← mem_entries_iff]
  simp [withoutEmpty]

/-- No empty list is left. -/
theorem tidy_withoutEmpty (m : IdMap (List α)) : m.withoutEmpty.Tidy := by
  intro k h
  rw [get?_withoutEmpty, Option.filter_eq_some_iff] at h
  simp at h

/-- Every list is still there: where a key has none, its list is empty. -/
theorem getList_withoutEmpty (m : IdMap (List α)) (k : NodeId) :
    m.withoutEmpty.getList k = m.getList k := by
  unfold getList
  rw [get?_withoutEmpty]
  cases m.get? k with
  | none => rfl
  | some list => cases list <;> rfl

/-- Where there is no empty list, none is taken away. -/
theorem Tidy.withoutEmpty_eq {m : IdMap (List α)} (h : m.Tidy) : m.withoutEmpty = m :=
  m.tidy_withoutEmpty.ext_getList h m.getList_withoutEmpty

end SortedMap

namespace Wire

variable {w : Wire} {config : PlannerConfig} {p : Plan} {supply : IdSupply}

/-! ## Normal forms -/

/-- The vertices of a wire, the terminal among them. -/
def allVertices (w : Wire) : IdMap PlanNode :=
  if w.vertices.contains w.terminal.id then w.vertices
  else w.vertices.insert w.terminal.id w.terminal

/-- The wire that has the terminal among its vertices and lists only children with
parents. -/
def normalForm (w : Wire) : Wire :=
  { w with
    vertices := w.allVertices
    adjacency := w.adjacency.withoutEmpty }

/-- The terminal is among the vertices. -/
theorem contains_terminal_allVertices (w : Wire) :
    w.allVertices.contains w.terminal.id = true := by
  unfold allVertices
  split
  · assumption
  · simp [SortedMap.contains]

/-- A normal form is its own. -/
theorem normalForm_normalForm (w : Wire) : w.normalForm.normalForm = w.normalForm := by
  have hvertices : w.normalForm.allVertices = w.allVertices :=
    if_pos w.contains_terminal_allVertices
  have hadjacency : w.adjacency.withoutEmpty.withoutEmpty = w.adjacency.withoutEmpty :=
    w.adjacency.tidy_withoutEmpty.withoutEmpty_eq
  exact congrArg₂ (fun vertices adjacency => { w with vertices, adjacency }) hvertices hadjacency

/-- A vertex under the terminal's identifier is the terminal, so the vertices are the same
whether the terminal is put among them or they are put over it. -/
theorem Checked.vertices_assemble (h : w.Checked) (config : PlannerConfig)
    (s : EdgeStore EdgeType) : (w.assemble config s).vertices = w.allVertices := by
  apply SortedMap.ext_get?
  intro i
  apply Option.ext
  intro n
  rw [h.get?_vertices_assemble_iff]
  unfold allVertices
  by_cases hcontains : w.vertices.contains w.terminal.id = true
  · rw [if_pos hcontains]
    constructor
    · intro hcase
      rcases hcase with hget | ⟨rfl, rfl⟩
      · exact hget
      · obtain ⟨m, hm⟩ := SortedMap.contains_iff.1 hcontains
        rw [hm, h.vertex_terminal m hm]
    · exact Or.inl
  · have hnone : w.vertices.get? w.terminal.id = none := by
      simpa [SortedMap.contains] using hcontains
    rw [if_neg hcontains, SortedMap.get?_insert]
    by_cases hi : w.terminal.id = i
    · subst hi
      simp [hnone, eq_comm]
    · simp [hi, Ne.symm hi]

/-! ## The replay -/

/-- The replay lists the parents of a child as the wire does. -/
theorem parentEdges_rebuilt (hfresh : EdgeStore.empty.Fresh w.edges) (c : NodeId) :
    w.rebuilt.parentEdges c =
      (w.adjacency.getList c).map fun r => (r.parent, r.edgeType) := by
  have hlisted : w.edges.filter (·.child = c) =
      (w.adjacency.getList c).map fun r => ⟨c, r.parent, r.edgeType⟩ :=
    SortedMap.filter_flatMap_entries (fun c (r : ParentRef) => ⟨c, r.parent, r.edgeType⟩) Edge.child
      (fun _ _ => rfl) c
  unfold rebuilt
  rw [EdgeStore.parentEdges_insertAll EdgeStore.coherent_empty hfresh,
    EdgeStore.parentEdges_empty, List.nil_append, hlisted, List.map_map]
  rfl

/-- The edges of the replay are written as they were listed. -/
theorem adjacencyOf_rebuilt (hfresh : EdgeStore.empty.Fresh w.edges) :
    adjacencyOf w.rebuilt = w.adjacency.withoutEmpty := by
  apply (tidy_adjacencyOf w.rebuilt).ext_getList w.adjacency.tidy_withoutEmpty
  intro c
  rw [getList_adjacencyOf, parentEdges_rebuilt hfresh, List.map_map,
    SortedMap.getList_withoutEmpty]
  exact List.map_id _

/-- What is made of a wire is written to its normal form. -/
theorem toWire_assemble (hchecked : w.Checked) (hfresh : EdgeStore.empty.Fresh w.edges)
    (config : PlannerConfig) :
    (w.assemble config w.rebuilt).toWire ⟨w.supplyState⟩ = w.normalForm :=
  congrArg₂ (fun vertices adjacency => { w with vertices, adjacency })
    (hchecked.vertices_assemble config w.rebuilt) (adjacencyOf_rebuilt hfresh)

/-! ## Reading and writing -/

/-- The identifiers of a decoded plan were handed out. -/
theorem issued_of_toPlan (h : w.toPlan config = .ok (p, supply)) :
    ∀ i, p.vertices.contains i = true → i < supply.next := by
  obtain ⟨hchecked, -, -, rfl, rfl⟩ := toPlan_eq_ok_iff.1 h
  intro i hi
  rw [hchecked.contains_vertices_assemble_iff, knows_iff] at hi
  rcases hi with rfl | hi
  · exact hchecked.terminal_issued
  · obtain ⟨n, hn⟩ := SortedMap.contains_iff.1 hi
    exact hchecked.vertex_issued i n hn

/-- A decoded plan is written as the normal form of its wire. -/
theorem toWire_of_toPlan (h : w.toPlan config = .ok (p, supply)) :
    p.toWire supply = w.normalForm := by
  obtain ⟨hchecked, hfresh, -, rfl, rfl⟩ := toPlan_eq_ok_iff.1 h
  exact toWire_assemble hchecked hfresh config

/-- Reading a wire and writing it again leads to its normal form, which is accepted and comes
back without a change.  So two wires come back alike if and only if they have the same normal
form. -/
theorem toWire_toPlan (h : w.toPlan config = .ok (p, supply)) :
    p.toWire supply = w.normalForm ∧
    (∀ config' : PlannerConfig, ∃ q, w.normalForm.toPlan config' = .ok (q, supply) ∧
      q.toWire supply = w.normalForm) ∧
    ∀ (v : Wire) (config' : PlannerConfig) (q : Plan) (supply' : IdSupply),
      v.toPlan config' = .ok (q, supply') →
      (q.toWire supply' = p.toWire supply ↔ v.normalForm = w.normalForm) := by
  have hwire : p.toWire supply = w.normalForm := toWire_of_toPlan h
  refine ⟨hwire, fun config' => ?_, fun v config' q supply' hv => ?_⟩
  · have hwell : p.WellFormed := wellFormed_of_toPlan h
    have hissued := issued_of_toPlan h
    rw [← hwire]
    exact ⟨p.decoded supply config', hwell.toPlan_eq_decoded hissued config',
      hwell.toWire_decoded hissued config'⟩
  · rw [hwire, toWire_of_toPlan hv]

/-- A scan with two parents and another with none, and the terminal only in its own place. -/
def looseEnds : Wire where
  supplyState := 5
  hasJoin := false
  hasUnion := false
  inputs := none
  terminal := .unary 0 ⟨[]⟩ .root none
  vertices := .ofList
    [(1, .leaf 1 ⟨[]⟩ (.scan "a" none)), (2, .unary 2 ⟨[]⟩ (.limit 3) none),
      (3, .unary 3 ⟨[]⟩ (.sort []) none), (4, .leaf 4 ⟨[]⟩ (.scan "b" none))]
  adjacency := .ofList
    [(1, [⟨3, .single⟩, ⟨2, .single⟩]), (2, [⟨0, .single⟩]), (3, [⟨0, .single⟩]), (4, [])]

/-- The terminal joins the vertices, and the empty lists of parents go away. -/
theorem toWire_toPlan_looseEnds :
    ∃ p, looseEnds.toPlan .standard = .ok (p, ⟨5⟩) ∧ p.toWire ⟨5⟩ = looseEnds.normalForm ∧
      looseEnds.normalForm.vertices.keys = [0, 1, 2, 3, 4] ∧
      looseEnds.normalForm.adjacency.entries =
        [(1, [⟨3, .single⟩, ⟨2, .single⟩]), (2, [⟨0, .single⟩]), (3, [⟨0, .single⟩])] := by
  have hdecode := toPlan_eq_of_isOk
    (show (looseEnds.toPlan .standard).isOk = true by decide +kernel)
  obtain ⟨hwire, -⟩ := toWire_toPlan hdecode
  exact ⟨_, hdecode, hwire, by decide, by decide⟩

end Wire

end QueryGraph
