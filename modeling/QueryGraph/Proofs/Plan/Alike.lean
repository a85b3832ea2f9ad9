import Mathlib.Data.List.Perm.Subperm
import QueryGraph.Plan.Comparison
import QueryGraph.Proofs.Node.Constants
import QueryGraph.Proofs.Plan.WellFormed

/-!
# Plans that answer alike

Two plans answer alike if their vertices, parents and ordered children are the same.
The order in which an edge store lists children of different types may still differ;
no question shows it.  Plans that answer alike have the same structure, unless a
constant is no number.

Main definitions:

- {lit}`Plan.Alike`: the same vertices, parents, ordered children and recorded data.
- {lit}`Plan.constants`: the constants in the nodes of a plan.

Main results:

- {lit}`Plan.Alike.sameStructure`: the comparison finds plans that answer alike to have
  the same structure.
-/

namespace QueryGraph

namespace CompareMode

theorem sameEdge_self (mode : CompareMode) (type : EdgeType) :
    mode.sameEdge type type = true := by
  cases mode with
  | identity => rfl
  | content => exact beq_self_eq_true type

/-- In both modes a node without a constant that is no number matches itself. -/
theorem sameNode_self (mode : CompareMode) {n : PlanNode}
    (h : ∀ d ∈ n.constants, d.isNaN = false) : mode.sameNode n n = true := by
  cases mode with
  | identity => exact beq_self_eq_true n.id
  | content => exact PlanNode.sameContent_self h

theorem sameInputs_self (mode : CompareMode) {s : InputScans}
    (h : ∀ d ∈ s.constants, d.isNaN = false) : mode.sameInputs s s = true := by
  cases mode with
  | identity => exact InputScans.sameValue_self h
  | content => exact InputScans.sameContent_self h

end CompareMode

namespace Plan

open EdgeStore

/-- Plans with the same terminal, vertices, flags and input scans, the same types of
edges, the same parents in the same order, and the same ordered children with the types of
their edges. -/
structure Alike (p q : Plan) : Prop where
  terminal : q.terminal = p.terminal
  vertices : q.vertices = p.vertices
  hasJoin : q.hasJoin = p.hasJoin
  hasUnion : q.hasUnion = p.hasUnion
  inputs : q.inputs = p.inputs
  label? : ∀ c v, q.edges.label? c v = p.edges.label? c v
  parents : ∀ i, q.edges.parents i = p.edges.parents i
  orderedChildren : ∀ i, q.orderedChildren i = p.orderedChildren i
  topLevelIds : q.topLevelIds = p.topLevelIds

/-- The constants in the nodes of a plan, those of the input scans included. -/
def constants (p : Plan) : List Datum :=
  p.vertices.values.flatMap PlanNode.constants ++ p.inputs.toList.flatMap InputScans.constants

variable {p q : Plan} {v : NodeId}

/-- In a built plan, the children of every vertex ascend by type. -/
theorem WellFormed.ordered_of_built (h : p.WellFormed) (hbuilt : p.built = true) (v : NodeId) :
    p.edges.Ordered v := by
  by_cases hv : v = p.terminal.id
  · subst hv
    exact ordered_of_ascending (h.topLevel_ascending hbuilt)
  · exact h.ordered v hv

/-! ## Comparing plans that answer alike -/

/-- No path is longer than there are vertices. -/
theorem WellFormed.exists_rank (h : p.WellFormed) :
    ∃ rank : NodeId → Nat, (∀ c w, p.edges.Leads c w → rank c < rank w) ∧
      ∀ i, rank i ≤ p.vertexCount := by
  rcases h.acyclic.exists_rank with ⟨rank, hrank, hbound⟩
  have hsubset : p.edges.endpoints ⊆ p.vertices.keys := by
    intro i hi
    rw [SortedMap.mem_keys_iff]
    rcases mem_endpoints_iff.1 hi with ⟨w, hleads | hleads⟩
    · exact (h.ends_vertices i w hleads).1
    · exact (h.ends_vertices w i hleads).2
  have hlength : p.edges.endpoints.length ≤ p.vertexCount :=
    calc
      p.edges.endpoints.length ≤ p.vertices.keys.length :=
        (p.edges.nodup_endpoints.subperm hsubset).length_le
      _ = p.vertexCount := List.length_map _
  exact ⟨rank, hrank, fun i => Nat.le_trans (hbound i) hlength⟩

/-- The constants of a vertex are constants of its plan. -/
theorem vertex_constants (h : ∀ d ∈ p.constants, d.isNaN = false) {n : PlanNode}
    (hn : p.vertices.get? v = some n) : ∀ d ∈ n.constants, d.isNaN = false := by
  intro d hd
  refine h d (List.mem_append_left _ (List.mem_flatMap.2 ⟨n, ?_, hd⟩))
  exact SortedMap.mem_values_iff.2 ⟨v, hn⟩

namespace Alike

variable (halike : p.Alike q)

include halike

/-- Walking down from one vertex in both plans finds no difference: what is below a
vertex is shorter by an edge, so the bound is never met. -/
theorem sameBelow (hp : p.WellFormed) (mode : CompareMode)
    (hconstants : ∀ d ∈ p.constants, d.isNaN = false) {rank : NodeId → Nat}
    (hrank : ∀ c w, p.edges.Leads c w → rank c < rank w) (bound : Nat) (v : NodeId)
    (hvertex : p.vertices.contains v = true) (hbound : rank v < bound) :
    Plan.sameBelow mode p q bound v v = true := by
  induction bound generalizing v with
  | zero => exact absurd hbound (Nat.not_lt_zero _)
  | succ bound ih =>
    rcases SortedMap.contains_iff.1 hvertex with ⟨n, hn⟩
    have hpVertex : p.vertex? v = some n := hn
    have hqVertex : q.vertex? v = some n := by
      unfold vertex?
      rw [halike.vertices]
      exact hn
    have hnode : mode.sameNode n n = true := mode.sameNode_self (vertex_constants hconstants hn)
    have hchildren : agreesAll
        (fun c d => mode.sameEdge c.2 d.2 && Plan.sameBelow mode p q bound c.1 d.1)
        (p.orderedChildren v) (p.orderedChildren v) = true := by
      apply agreesAll_self
      intro e he
      have hleads := leads_of_mem_orderedChildren hp.coherent he
      have hlt := hrank e.1 v hleads
      rw [mode.sameEdge_self, Bool.true_and]
      exact ih e.1 (hp.ends_vertices e.1 v hleads).1 (by omega)
    rw [Plan.sameBelow, hpVertex, hqVertex, halike.orderedChildren v, hchildren]
    simp [agreesOption, hnode]

/-- The comparison finds plans that answer alike to have the same structure. -/
theorem sameStructure (hp : p.WellFormed) (hconstants : ∀ d ∈ p.constants, d.isNaN = false)
    (mode : CompareMode) : Plan.sameStructure mode p q = true := by
  rcases hp.exists_rank with ⟨rank, hrank, hbound⟩
  have hterminal : mode.sameNode p.terminal q.terminal = true := by
    rw [halike.terminal]
    exact mode.sameNode_self (vertex_constants hconstants hp.terminal_vertex)
  have hinputs : agreesOption mode.sameInputs p.inputs q.inputs = true := by
    rw [halike.inputs]
    refine agreesOption_self fun s hs => mode.sameInputs_self fun d hd => ?_
    refine hconstants d (List.mem_append_right _ (List.mem_flatMap.2 ⟨s, ?_, hd⟩))
    exact Option.mem_toList.2 hs
  have htop : agreesAll (Plan.sameBelow mode p q (p.vertexCount + 1)) p.topLevelIds
      q.topLevelIds = true := by
    rw [halike.topLevelIds]
    apply agreesAll_self
    intro i hi
    exact halike.sameBelow hp mode hconstants hrank _ i (hp.contains_of_mem_topLevelIds hi)
      (Nat.lt_succ_of_le (hbound i))
  unfold Plan.sameStructure
  rw [halike.hasJoin, halike.hasUnion, hterminal, hinputs, htop]
  simp

end Alike

end Plan

end QueryGraph
