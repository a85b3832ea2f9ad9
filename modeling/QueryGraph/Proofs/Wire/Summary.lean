import QueryGraph.Proofs.Wire.RoundTrip

/-!
# The summary of a plan

Beside its vertices a plan keeps what whoever schedules it asks for first: whether there is a
join or a union among them, and which of them are scans.  A build makes this summary from the
nodes that it adds, so it is right for every plan that was made from fragments.

A decoder takes the summary from the wire.  All it asks is that each recorded scan has the
identifier of some vertex, whatever it is recorded under, so a wrong summary is accepted, and
it stays until the plan is cleared.  A plan from a wire is summarized if and only if its wire
is; no later call spoils that.

Main definitions:

- {lit}`Summarizes`: flags and recorded scans that say of some vertices what they are.
- {lit}`Plan.Summarized`, {lit}`Wire.Summarized`: plans and wires with such a summary.

Main results:

- {lit}`Plan.Summarized.kept`: every call keeps a plan summarized.
- {lit}`Plan.summarized_run_create`: plans that were made from fragments are.
- {lit}`Wire.summarized_of_toPlan`: plans that were read are if and only if their wires are.
-/

namespace QueryGraph

open Plan

/-! ## Summaries -/

/-- Two flags and recorded scans say of some vertices whether there is a join and whether
there is a union among them, and which of them are scans. -/
structure Summarizes (vertices : IdMap PlanNode) (hasJoin hasUnion : Bool)
    (inputs : Option InputScans) : Prop where
  hasJoin_iff : hasJoin = true ↔ ∃ i n, vertices.get? i = some n ∧ n.kind = .join
  hasUnion_iff : hasUnion = true ↔ ∃ i n, vertices.get? i = some n ∧ n.kind = .union
  /-- A scan is recorded under the identifier of its vertex, as it is there. -/
  scan_iff : ∀ i n, scanAt? inputs i = some n ↔ vertices.get? i = some n ∧ n.kind = .scan

namespace Summarizes

variable {v v' : IdMap PlanNode} {j u : Bool} {inputs : Option InputScans}

/-- Without vertices there is nothing to sum up. -/
theorem empty : Summarizes .empty false false none where
  hasJoin_iff := by simp
  hasUnion_iff := by simp
  scan_iff := by simp [scanAt?]

/-- Roots are of no importance. -/
theorem of_forall_ne_root (h : Summarizes v j u inputs)
    (hsame : ∀ i n, n.kind ≠ .root → (v'.get? i = some n ↔ v.get? i = some n)) :
    Summarizes v' j u inputs := by
  have hkind : ∀ k, k ≠ .root → ∀ i (n : PlanNode),
      v'.get? i = some n ∧ n.kind = k ↔ v.get? i = some n ∧ n.kind = k := by
    intro k hk i n
    apply and_congr_left
    intro hn
    exact hsame i n (hn ▸ hk)
  refine ⟨?_, ?_, ?_⟩
  · simp only [hkind .join (by simp)]
    exact h.hasJoin_iff
  · simp only [hkind .union (by simp)]
    exact h.hasUnion_iff
  · intro i n
    rw [hkind .scan (by simp)]
    exact h.scan_iff i n

end Summarizes

namespace Plan

variable {p q : Plan} {t : PlanNode}

/-- The summary of a plan is right. -/
def Summarized (p : Plan) : Prop :=
  Summarizes p.vertices p.hasJoin p.hasUnion p.inputs

/-! ## Building -/

/-- The kinds of the vertices are those from before and those of the tree. -/
theorem exists_vertex_commitTree_iff (hlow : t.Lowerable p.vertices.contains) (k : NodeKind) :
    (∃ i n, (p.commitTree t).vertices.get? i = some n ∧ n.kind = k) ↔
      (∃ i n, p.vertices.get? i = some n ∧ n.kind = k) ∨ ∃ n ∈ t.preorder, n.kind = k := by
  simp only [get?_vertices_commitTree_of_lowerable hlow]
  constructor
  · intro hvertex
    obtain ⟨i, n, ⟨hn, -⟩ | hget, hkind⟩ := hvertex
    · exact .inr ⟨n, hn, hkind⟩
    · exact .inl ⟨i, n, hget, hkind⟩
  · intro hcase
    rcases hcase with ⟨i, n, hget, hkind⟩ | ⟨n, hn, hkind⟩
    · exact ⟨i, n, .inr hget, hkind⟩
    · exact ⟨n.id, n, .inl ⟨hn, rfl⟩, hkind⟩

namespace Summarized

theorem ofTerminal (config : PlannerConfig) {n : PlanNode} (hkind : n.kind = .root) :
    (ofTerminal config n).Summarized := by
  apply Summarizes.empty.of_forall_ne_root
  intro i m hm
  have hne : m ≠ n := fun heq => hm (heq ▸ hkind)
  change (SortedMap.empty.insert n.id n).get? i = some m ↔ _
  rw [SortedMap.get?_insert]
  split
  · simp [hne.symm]
  · rfl

/-- A tree brings its joins and unions into the flags and its scans among those recorded. -/
theorem commitTree (h : p.Summarized) (hlow : t.Lowerable p.vertices.contains) :
    (p.commitTree t).Summarized where
  hasJoin_iff := by
    rw [exists_vertex_commitTree_iff hlow, ← h.hasJoin_iff]
    exact hasJoin_commitTree_iff
  hasUnion_iff := by
    rw [exists_vertex_commitTree_iff hlow, ← h.hasUnion_iff]
    exact hasUnion_commitTree_iff
  scan_iff := by
    intro i n
    rw [scanAt?_commitTree_iff hlow.nodup_ids, h.scan_iff,
      get?_vertices_commitTree_of_lowerable hlow, or_and_right, and_assoc, and_comm (a := n.id = i)]
    refine or_congr_right (and_iff_right_of_imp fun hvertex m hm _ hid => ?_)
    -- The identifier of a vertex that was there is none of the tree's.
    exact notMem_ids_of_lowerable hlow hvertex.1 (List.mem_map.2 ⟨m, hm, hid⟩)

/-- Every step of a call keeps a plan summarized: what it adds is vertices together with their
summary, and a fragment that is registered is no vertex yet. -/
theorem kept : Kept Summarized where
  start config _ hkind := ofTerminal config hkind
  fragments _ _ h := h
  commitTree _ _ _ hlow h := h.commitTree hlow
  finish _ h := h

/-- Removing an edge changes no vertex, so the summary still holds. -/
theorem removeEdge (h : p.Summarized) {child parent : NodeId} {type : EdgeType}
    (hremove : p.removeEdge child parent = .ok (type, q)) : q.Summarized := by
  rw [eq_of_removeEdge hremove]
  exact h

end Summarized

/-- Plans that were made from fragments are summarized. -/
theorem summarized_run_create (config : PlannerConfig) (supply : IdSupply) (calls : List Call) :
    ((create config supply).1.run calls).Summarized :=
  Summarized.kept.run_create config supply calls

end Plan

namespace Wire

variable {w : Wire} {config : PlannerConfig} {p : Plan} {supply : IdSupply}

/-! ## Decoding -/

/-- The summary that a wire holds is right for its vertices. -/
def Summarized (w : Wire) : Prop :=
  Summarizes w.vertices w.hasJoin w.hasUnion w.inputs

/-- What is made of a wire is summarized as the wire is: all it may have more is the terminal,
which is a root. -/
theorem Checked.summarized_assemble_iff (h : w.Checked) (config : PlannerConfig)
    (s : EdgeStore EdgeType) :
    (w.assemble config s).Summarized ↔ w.Summarized := by
  have hsame : ∀ i n, n.kind ≠ .root →
      ((w.assemble config s).vertices.get? i = some n ↔ w.vertices.get? i = some n) := by
    intro i n hkind
    rw [h.get?_vertices_assemble_iff]
    apply or_iff_left
    rintro ⟨-, rfl⟩
    exact hkind h.terminal_kind
  constructor
  · intro hplan
    exact hplan.of_forall_ne_root fun i n hkind => (hsame i n hkind).symm
  · intro hwire
    exact Summarizes.of_forall_ne_root hwire hsame

/-- A plan that was read is summarized if and only if its wire is, and no later call spoils
that.  Of a wire that is not summarized, the recorded scans still have identifiers of
vertices, but may be recorded under others. -/
theorem summarized_of_toPlan (h : w.toPlan config = .ok (p, supply)) :
    (p.Summarized ↔ w.Summarized) ∧
      (∀ i n, scanAt? p.inputs i = some n → p.vertices.contains n.id = true) ∧
      (w.Summarized → ∀ calls, (p.run calls).Summarized) := by
  have hwell : p.WellFormed := wellFormed_of_toPlan h
  obtain ⟨hchecked, -, -, rfl, -⟩ := toPlan_eq_ok_iff.1 h
  have hiff := hchecked.summarized_assemble_iff config w.rebuilt
  refine ⟨hiff, hwell.scans_vertices, ?_⟩
  intro hwire calls
  exact Summarized.kept.run hwell (hiff.2 hwire) calls

/-- What is read of a plan that was built twice is summarized, and stays so. -/
theorem summarized_of_toPlan_builtTwice :
    ∃ q, (builtTwice.toWire ⟨8⟩).toPlan .standard = .ok (q, ⟨8⟩) ∧ q.Summarized ∧
      ∀ calls, (q.run calls).Summarized := by
  have hwire : (builtTwice.toWire ⟨8⟩).Summarized := summarized_run_create .standard ⟨7⟩ _
  have hdecode := builtTwice_reachable.wellFormed.toPlan_eq_decoded builtTwice_issued .standard
  obtain ⟨hiff, -, hrun⟩ := summarized_of_toPlan hdecode
  exact ⟨_, hdecode, hiff.2 hwire, hrun hwire⟩

/-- A wire of a plan with one scan.  It claims a join and records the scan under another
identifier. -/
def misstated : Wire where
  supplyState := 2
  hasJoin := true
  hasUnion := false
  inputs := some ⟨.ofList [(9, .leaf 1 ⟨[]⟩ (.scan "a" none))]⟩
  terminal := .unary 0 ⟨[]⟩ .root none
  vertices := .ofList [(0, .unary 0 ⟨[]⟩ .root none), (1, .leaf 1 ⟨[]⟩ (.scan "a" none))]
  adjacency := .ofList [(1, [⟨0, .single⟩])]

/-- That wire is accepted, and the plan says what is not so. -/
theorem toPlan_misstated :
    ∃ p, misstated.toPlan .standard = .ok (p, ⟨2⟩) ∧ ¬p.Summarized ∧
      p.hasJoin = true ∧ p.vertices.values.map PlanNode.kind = [.root, .scan] ∧
      (scanAt? p.inputs 9).isSome = true ∧ p.vertices.contains 9 = false ∧
      scanAt? p.inputs 1 = none ∧ p.vertices.contains 1 = true := by
  have hdecode := toPlan_eq_of_isOk
    (show (misstated.toPlan .standard).isOk = true by decide +kernel)
  refine ⟨_, hdecode, ?_, by decide, by decide, by decide, by decide, by decide, by decide⟩
  intro hsummarized
  have hvertex := (hsummarized.scan_iff 9 (.leaf 1 ⟨[]⟩ (.scan "a" none))).1 rfl
  exact absurd hvertex.1 nofun

end Wire

end QueryGraph
