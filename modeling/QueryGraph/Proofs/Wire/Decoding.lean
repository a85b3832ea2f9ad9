import QueryGraph.Proofs.Plan.WellFormed
import QueryGraph.Wire.Basic

/-!
# Which wires are accepted

A wire is accepted if it passes the checks, holds no edge twice and describes a
graph without a cycle.  The plan that is made of it then has its edges in the order
in which the wire lists them, so the children of every vertex ascend.

Main definitions:

- {lit}`Wire.Checked`: what the checks before the replay establish.
- {lit}`Wire.rebuilt`: the edge store that the replay makes.

Main results:

- {lit}`Wire.check_eq_ok_iff`: the checks pass exactly on the checked wires.
- {lit}`Wire.toPlan_eq_ok_iff`: what is accepted, and what it becomes.
- {lit}`Wire.wellFormed_of_toPlan`: a decoded plan is well-formed.
-/

namespace QueryGraph

/-- A root without inputs is told by its identifier and schema. -/
theorem PlanNode.eq_root_of_kind {n : PlanNode} (hkind : n.kind = .root)
    (halone : n.hasChildren = false) : ∃ i s, n = .unary i s .root none := by
  cases n with
  | leaf i s op => cases op <;> simp [kind, LeafOp.kind] at hkind
  | unary i s op child =>
    cases child with
    | some c => simp [hasChildren, slots] at halone
    | none =>
      cases op with
      | root => exact ⟨i, s, rfl⟩
      | _ => simp [kind, UnaryOp.kind] at hkind
  | binary i s op l r => cases op <;> simp [kind, BinaryOp.kind] at hkind

/-- A root alone holds no constant, so what equals it as a value is the same node. -/
theorem PlanNode.sameValue_root_iff {m n : PlanNode} (hkind : n.kind = .root)
    (halone : n.hasChildren = false) : m.sameValue n = true ↔ m = n := by
  rcases eq_root_of_kind hkind halone with ⟨i, s, rfl⟩
  constructor
  · intro hsame
    cases m with
    | leaf => simp [sameValue] at hsame
    | binary => simp [sameValue] at hsame
    | unary j s' op child =>
      cases child with
      | some c => simp [sameValue] at hsame
      | none =>
        cases op with
        | root =>
          simp only [sameValue, Bool.and_eq_true, beq_iff_eq] at hsame
          rw [hsame.1.1.1, hsame.1.1.2]
        | _ => simp [sameValue, UnaryOp.sameValue] at hsame
  · rintro rfl
    simp [sameValue, UnaryOp.sameValue]

namespace Wire

variable {w : Wire} {config : PlannerConfig} {p : Plan} {supply : IdSupply}

/-! ## The checks -/

/-- There is no first error if there is none. -/
theorem firstError_eq_ok_iff {errors : List (Option DecodeError)} :
    firstError errors = .ok () ↔ ∀ e ∈ errors, e = none := by
  induction errors with
  | nil => simp [firstError]
  | cons e errors ih =>
    cases e with
    | none =>
      rw [firstError, ih]
      simp
    | some e => simp [firstError]

/-- An error is raised on its condition alone. -/
theorem errorIf_eq_none_iff {bad : Bool} {e : DecodeError} :
    errorIf bad e = none ↔ bad = false := by
  cases bad <;> simp [errorIf]

/-- A wire knows its terminal and its vertices. -/
theorem knows_iff {i : NodeId} :
    w.knows i = true ↔ i = w.terminal.id ∨ w.vertices.contains i = true := by
  simp [knows]

/-- What the checks before the replay establish. -/
structure Checked (w : Wire) : Prop where
  terminal_kind : w.terminal.kind = .root
  terminal_alone : w.terminal.hasChildren = false
  terminal_issued : w.terminal.id < w.supplyState
  vertex_id : ∀ i n, w.vertices.get? i = some n → n.id = i
  vertex_alone : ∀ i n, w.vertices.get? i = some n → n.hasChildren = false
  vertex_terminal : ∀ n, w.vertices.get? w.terminal.id = some n → n = w.terminal
  vertex_issued : ∀ i n, w.vertices.get? i = some n → i < w.supplyState
  child_known : ∀ c refs, w.adjacency.get? c = some refs →
    c ≠ w.terminal.id ∧ w.vertices.contains c = true
  parent_known : ∀ c refs, w.adjacency.get? c = some refs → ∀ r ∈ refs, w.knows r.parent = true
  scan_known : ∀ s, w.inputs = some s → ∀ n ∈ s.nodes, w.vertices.contains n.id = true

/-- The terminal has to be a root without inputs. -/
theorem checkTerminal_eq_none_iff :
    w.checkTerminal = none ↔ w.terminal.kind = .root ∧ w.terminal.hasChildren = false := by
  unfold checkTerminal
  rw [errorIf_eq_none_iff]
  simp

/-- A vertex has to stand under its own identifier, which was handed out, and to have no
inputs; under the identifier of the terminal it has to be the terminal. -/
theorem checkVertex_eq_none_iff {i : NodeId} {n : PlanNode} :
    w.checkVertex i n = none ↔
      i = n.id ∧ n.hasChildren = false ∧
        (i = w.terminal.id → n.sameValue w.terminal = true) ∧ i < w.supplyState := by
  unfold checkVertex
  simp only [Option.orElse_eq_orElse, Option.orElse_eq_or, Option.or_eq_none_iff,
    errorIf_eq_none_iff, decide_eq_false_iff_not, UInt64.not_le, ne_eq, not_not]
  simp

/-- Edges have to connect what the wire knows, and must not start at the terminal. -/
theorem checkParents_eq_none_iff {c : NodeId} {refs : List ParentRef} :
    w.checkParents c refs = none ↔
      c ≠ w.terminal.id ∧ w.knows c = true ∧ ∀ r ∈ refs, w.knows r.parent = true := by
  unfold checkParents
  simp only [Option.orElse_eq_orElse, Option.orElse_eq_or, Option.or_eq_none_iff,
    errorIf_eq_none_iff]
  simp

/-- Recorded scans have to be vertices. -/
theorem checkInputs_eq_none_iff :
    w.checkInputs = none ↔
      ∀ s, w.inputs = some s → ∀ n ∈ s.nodes, w.vertices.contains n.id = true := by
  unfold checkInputs
  cases w.inputs with
  | none => simp
  | some s => simp

/-- The checks pass if none of them finds an error. -/
theorem check_eq_ok_iff_forall :
    w.check = .ok () ↔
      w.checkTerminal = none ∧
      (∀ i n, w.vertices.get? i = some n → w.checkVertex i n = none) ∧
      w.checkIssued = none ∧
      (∀ c refs, w.adjacency.get? c = some refs → w.checkParents c refs = none) ∧
      w.checkInputs = none := by
  unfold check
  rw [firstError_eq_ok_iff]
  simp only [List.forall_mem_append, List.forall_mem_singleton, List.forall_mem_map, Prod.forall,
    SortedMap.mem_entries_iff, and_assoc]

/-- The checks pass exactly on the checked wires. -/
theorem check_eq_ok_iff : w.check = .ok () ↔ w.Checked := by
  have hissued : w.checkIssued = none ↔ w.terminal.id < w.supplyState := by
    unfold checkIssued
    rw [errorIf_eq_none_iff]
    simp
  rw [check_eq_ok_iff_forall, checkTerminal_eq_none_iff, hissued, checkInputs_eq_none_iff]
  simp only [checkVertex_eq_none_iff, checkParents_eq_none_iff, knows_iff]
  constructor
  · rintro ⟨⟨hkind, halone⟩, hvertex, hterminal, hparents, hscan⟩
    refine ⟨hkind, halone, hterminal, ?_, ?_, ?_, ?_, ?_, ?_, hscan⟩
    · intro i n hget
      exact (hvertex i n hget).1.symm
    · intro i n hget
      exact (hvertex i n hget).2.1
    · intro n hget
      exact (PlanNode.sameValue_root_iff hkind halone).1 ((hvertex _ n hget).2.2.1 rfl)
    · intro i n hget
      exact (hvertex i n hget).2.2.2
    · intro c refs hget
      have hchild := hparents c refs hget
      exact ⟨hchild.1, hchild.2.1.resolve_left hchild.1⟩
    · intro c refs hget r hr
      exact knows_iff.2 ((hparents c refs hget).2.2 r hr)
  · intro h
    refine ⟨⟨h.terminal_kind, h.terminal_alone⟩, ?_, h.terminal_issued, ?_, h.scan_known⟩
    · intro i n hget
      refine ⟨(h.vertex_id i n hget).symm, h.vertex_alone i n hget, ?_, h.vertex_issued i n hget⟩
      rintro rfl
      exact (PlanNode.sameValue_root_iff h.terminal_kind h.terminal_alone).2
        (h.vertex_terminal n hget)
    · intro c refs hget
      have hchild := h.child_known c refs hget
      exact ⟨hchild.1, Or.inr hchild.2, fun r hr => knows_iff.1 (h.parent_known c refs hget r hr)⟩

/-! ## The replay -/

/-- A replay comes to its end if no edge is there already. -/
theorem replay_eq_ok_iff {s t : EdgeStore EdgeType} {es : List (Edge EdgeType)} :
    replay s es = .ok t ↔ s.Fresh es ∧ t = s.insertAll es := by
  induction es generalizing s with
  | nil =>
    have hnil : s.Fresh [] := ⟨fun e he => absurd he List.not_mem_nil, List.nodup_nil⟩
    simp [replay, hnil, eq_comm]
  | cons e es ih =>
    rw [replay]
    cases hedge : s.hasEdge e.child e.parent with
    | true =>
      rw [EdgeStore.hasEdge_iff] at hedge
      simp only [if_true, reduceCtorEq, false_iff]
      rintro ⟨hfresh, -⟩
      exact hfresh.head hedge
    | false =>
      rw [EdgeStore.hasEdge_eq_false_iff] at hedge
      rw [if_neg Bool.false_ne_true, ih, EdgeStore.insertAll_cons]
      constructor
      · rintro ⟨hfresh, rfl⟩
        exact ⟨EdgeStore.Fresh.cons hedge hfresh, rfl⟩
      · rintro ⟨hfresh, rfl⟩
        exact ⟨hfresh.tail, rfl⟩

/-- The edge store that the replay makes. -/
def rebuilt (w : Wire) : EdgeStore EdgeType :=
  EdgeStore.empty.insertAll w.edges

/-- The edges of a wire are the references in its lists of parents. -/
theorem mem_edges_iff {e : Edge EdgeType} :
    e ∈ w.edges ↔
      ∃ refs, w.adjacency.get? e.child = some refs ∧ ⟨e.parent, e.label⟩ ∈ refs := by
  unfold edges
  rw [List.mem_flatMap]
  constructor
  · rintro ⟨⟨c, refs⟩, hentry, he⟩
    rcases List.mem_map.1 he with ⟨r, hr, rfl⟩
    exact ⟨refs, SortedMap.mem_entries_iff.1 hentry, hr⟩
  · rintro ⟨refs, hget, hr⟩
    exact ⟨(e.child, refs), SortedMap.mem_entries_iff.2 hget, List.mem_map.2 ⟨_, hr, rfl⟩⟩

/-- A wire lists its edges by ascending child. -/
theorem pairwise_edges (w : Wire) : w.edges.Pairwise fun d e => d.child ≤ e.child := by
  unfold edges
  rw [List.pairwise_flatMap]
  constructor
  · rintro ⟨c, refs⟩ -
    rw [List.pairwise_map]
    exact List.pairwise_of_forall fun _ _ => UInt64.le_refl c
  · apply (List.pairwise_map.1 w.adjacency.ascending).imp
    rintro a b hlt d hd e he
    rcases List.mem_map.1 hd with ⟨_, -, rfl⟩
    rcases List.mem_map.1 he with ⟨_, -, rfl⟩
    exact UInt64.le_of_lt hlt

/-- The maps of the edge store agree after the replay. -/
theorem coherent_rebuilt (w : Wire) : w.rebuilt.Coherent :=
  EdgeStore.coherent_empty.insertAll w.edges

/-- The replay makes the edges of the wire. -/
theorem leads_rebuilt_iff {c q : NodeId} :
    w.rebuilt.Leads c q ↔ ∃ e ∈ w.edges, e.child = c ∧ e.parent = q := by
  unfold rebuilt
  rw [EdgeStore.leads_insertAll_iff]
  simp [EdgeStore.not_leads_empty]

/-- Every vertex has its children in ascending order. -/
theorem pairwise_children_rebuilt (hfresh : EdgeStore.empty.Fresh w.edges) (v : NodeId) :
    (w.rebuilt.children v).Pairwise (· < ·) := by
  have hnodup := w.coherent_rebuilt.nodup_children v
  have hchildren : w.rebuilt.children v = (w.edges.filter (·.parent = v)).map Edge.child := by
    unfold rebuilt
    rw [EdgeStore.children_insertAll hfresh, EdgeStore.children_empty, List.nil_append]
  have hle : (w.rebuilt.children v).Pairwise (· ≤ ·) := by
    rw [hchildren, List.pairwise_map]
    exact w.pairwise_edges.filter _
  apply (hle.and hnodup).imp
  rintro a b ⟨hab, hne⟩
  exact UInt64.lt_of_le_of_ne hab hne

/-! ## Acceptance -/

/-- The vertices of a plan can be ordered exactly where its edges make no cycle. -/
theorem exists_topologicalOrder_iff :
    (∃ order, p.topologicalOrder = .ok order) ↔ p.edges.Acyclic := by
  unfold Plan.topologicalOrder
  split
  · next hempty =>
    refine ⟨fun _ => ?_, fun _ => ⟨_, rfl⟩⟩
    exact EdgeStore.acyclic_of_rank (fun _ => 0) fun c q hleads =>
      absurd hleads (EdgeStore.not_leads_of_isEmpty hempty)
  · exact EdgeStore.topologicalOrder_isOk_iff

/-- What is accepted, and what it becomes. -/
theorem toPlan_eq_ok_iff :
    w.toPlan config = .ok (p, supply) ↔
      w.Checked ∧ EdgeStore.empty.Fresh w.edges ∧ w.rebuilt.Acyclic ∧
        p = w.assemble config w.rebuilt ∧ supply = ⟨w.supplyState⟩ := by
  unfold toPlan
  cases hcheck : w.check with
  | error e =>
    refine ⟨fun h => by contradiction, fun h => ?_⟩
    rw [check_eq_ok_iff.2 h.1] at hcheck
    contradiction
  | ok _ =>
    have hchecked : w.Checked := check_eq_ok_iff.1 hcheck
    cases hreplay : replay .empty w.edges with
    | error e =>
      refine ⟨fun h => by contradiction, fun h => ?_⟩
      have hok : replay .empty w.edges = .ok w.rebuilt := replay_eq_ok_iff.2 ⟨h.2.1, rfl⟩
      rw [hok] at hreplay
      contradiction
    | ok s =>
      rcases replay_eq_ok_iff.1 hreplay with ⟨hfresh, hs⟩
      obtain rfl : s = w.rebuilt := hs
      have horder : (∃ order, (w.assemble config w.rebuilt).topologicalOrder = .ok order) ↔
          w.rebuilt.Acyclic := exists_topologicalOrder_iff
      simp only [bind, Except.bind]
      cases hsearch : (w.assemble config w.rebuilt).topologicalOrder with
      | error v =>
        rw [hsearch] at horder
        refine ⟨fun h => by contradiction, fun h => ?_⟩
        rcases horder.2 h.2.2.1 with ⟨order, heq⟩
        contradiction
      | ok order =>
        have hacyclic := horder.1 ⟨order, hsearch⟩
        simp only [Except.ok.injEq, Prod.mk.injEq]
        constructor
        · rintro ⟨rfl, rfl⟩
          exact ⟨hchecked, hfresh, hacyclic, rfl, rfl⟩
        · rintro ⟨-, -, -, rfl, rfl⟩
          exact ⟨rfl, rfl⟩

/-- A wire that is accepted becomes the plan whose edges the replay makes. -/
theorem toPlan_eq_of_isOk (h : (w.toPlan config).isOk = true) :
    w.toPlan config = .ok (w.assemble config w.rebuilt, ⟨w.supplyState⟩) := by
  cases hresult : w.toPlan config with
  | error e =>
    rw [hresult] at h
    contradiction
  | ok result =>
    obtain ⟨-, -, -, hplan, hsupply⟩ := toPlan_eq_ok_iff.1 hresult
    exact congrArg Except.ok (Prod.ext hplan hsupply)

/-! ## Decoded plans -/

/-- The vertices of the decoded plan are those of the wire and the terminal. -/
theorem Checked.get?_vertices_assemble_iff (h : w.Checked) (s : EdgeStore EdgeType) {i : NodeId}
    {n : PlanNode} :
    (w.assemble config s).vertices.get? i = some n ↔
      w.vertices.get? i = some n ∨ (i = w.terminal.id ∧ n = w.terminal) := by
  change ((SortedMap.empty.insert w.terminal.id w.terminal).insertAll w.vertices.entries).get? i =
    some n ↔ _
  rw [SortedMap.get?_insertAll_entries, SortedMap.get?_insert]
  cases hget : w.vertices.get? i with
  | some m =>
    rw [Option.some_or]
    constructor
    · exact Or.inl
    · intro hcase
      rcases hcase with heq | ⟨rfl, rfl⟩
      · exact heq
      · rw [h.vertex_terminal m hget]
  | none =>
    by_cases hi : w.terminal.id = i
    · simp [hi, eq_comm]
    · simp [hi, Ne.symm hi]

/-- The decoded plan has the vertices that its wire knows. -/
theorem Checked.contains_vertices_assemble_iff (h : w.Checked) (s : EdgeStore EdgeType)
    {i : NodeId} :
    (w.assemble config s).vertices.contains i = true ↔ w.knows i = true := by
  rw [knows_iff, SortedMap.contains_iff, SortedMap.contains_iff]
  simp only [h.get?_vertices_assemble_iff, exists_or]
  rw [or_comm]
  simp

/-- A decoded plan is well-formed. -/
theorem wellFormed_of_toPlan (h : w.toPlan config = .ok (p, supply)) : p.WellFormed := by
  rcases toPlan_eq_ok_iff.1 h with ⟨hchecked, hfresh, hacyclic, rfl, -⟩
  have hvertex : ∀ i n, (w.assemble config w.rebuilt).vertices.get? i = some n ↔
      w.vertices.get? i = some n ∨ (i = w.terminal.id ∧ n = w.terminal) := fun i n =>
    hchecked.get?_vertices_assemble_iff w.rebuilt
  have hcontains : ∀ i, (w.assemble config w.rebuilt).vertices.contains i = true ↔
      w.knows i = true := fun i => hchecked.contains_vertices_assemble_iff w.rebuilt
  exact
    { terminal_kind := hchecked.terminal_kind
      terminal_alone := hchecked.terminal_alone
      terminal_vertex := (hvertex _ _).2 (Or.inr ⟨rfl, rfl⟩)
      vertex_id := by
        intro i n hget
        rcases (hvertex i n).1 hget with hget | ⟨rfl, rfl⟩
        · exact hchecked.vertex_id i n hget
        · rfl
      vertex_alone := by
        intro i n hget
        rcases (hvertex i n).1 hget with hget | ⟨rfl, rfl⟩
        · exact hchecked.vertex_alone i n hget
        · exact hchecked.terminal_alone
      coherent := w.coherent_rebuilt
      ends_vertices := by
        intro c q hleads
        rw [hcontains, hcontains]
        rcases leads_rebuilt_iff.1 hleads with ⟨e, he, rfl, rfl⟩
        rcases mem_edges_iff.1 he with ⟨refs, hget, hr⟩
        exact ⟨knows_iff.2 (Or.inr (hchecked.child_known _ refs hget).2),
          hchecked.parent_known _ refs hget _ hr⟩
      terminal_sink := by
        intro q hleads
        rcases leads_rebuilt_iff.1 hleads with ⟨e, he, hchild, -⟩
        rcases mem_edges_iff.1 he with ⟨refs, hget, -⟩
        exact (hchecked.child_known _ refs hget).1 hchild
      acyclic := hacyclic
      ordered := fun v _ => EdgeStore.ordered_of_ascending (pairwise_children_rebuilt hfresh v)
      topLevel_ascending := fun _ => pairwise_children_rebuilt hfresh w.terminal.id
      scans_vertices := by
        intro i n hscan
        rw [hcontains, knows_iff]
        rcases Option.bind_eq_some_iff.1 hscan with ⟨s, hs, hget⟩
        exact Or.inr (hchecked.scan_known s hs n (SortedMap.mem_values_iff.2 ⟨i, hget⟩))
      captured := by
        intro root f hf
        change (SortedMap.empty : IdMap Fragment).get? root = some f at hf
        simp at hf }

end Wire

end QueryGraph
