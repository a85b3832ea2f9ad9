import QueryGraph.Proofs.Plan.Reachable
import QueryGraph.Proofs.Wire.Acceptance

/-!
# Every plan has a schedule

A schedule runs the vertices one after the other, none of them before what it reads.
Adding an edge checks nothing, so that there is a schedule rests on what the callers do:
fragments enter the graph as a whole and under new identifiers, and only wires without a
cycle are decoded.

The search for a schedule sees edges only.  It finds all vertices, with the terminal at the
end, as long as every other vertex has a parent.  A plan that was made from fragments is such
a plan; removing an edge can leave a vertex without a parent, and so can a wire.

Main definitions:

- {lit}`Plan.Schedules`: an order in which the ends of all edges can run.
- {lit}`Plan.SchedulesAll`: an order in which all vertices can run, the terminal last.
- {lit}`Plan.Attached`: every vertex but the terminal has a parent.

Main results:

- {lit}`Plan.WellFormed.exists_schedule`: the topological order is a schedule.
- {lit}`Plan.schedulable_of_reachable`: what holds of the graph of every plan that can
  come about.
- {lit}`Plan.schedulesAll_iff_attached`: the attached plans are those whose vertices are all
  scheduled, whatever order is found.
- {lit}`Plan.topologicalOrder_cutTop`: a plan that lost its last edge to the terminal.
-/

namespace QueryGraph

namespace Plan

open EdgeStore

/-- An order that lists no vertex twice, both ends of every edge, and every child before
each of its parents. -/
structure Schedules (p : Plan) (order : List NodeId) : Prop where
  nodup : order.Nodup
  child_mem : ∀ e ∈ p.edges.edges, e.child ∈ order
  parent_mem : ∀ e ∈ p.edges.edges, e.parent ∈ order
  child_before : ∀ e ∈ p.edges.edges, order.idxOf e.child < order.idxOf e.parent

variable {p : Plan} {order : List NodeId}

/-- An order of all ends of edges with children first is a schedule. -/
theorem schedules_of_childrenFirst (h : p.edges.ChildrenFirst order) : p.Schedules order := by
  have hchild : ∀ e ∈ p.edges.edges, e.child ∈ p.edges.endpoints := fun e he =>
    mem_endpoints_iff.2 ⟨e.parent, Or.inl (leads_of_mem_edges he)⟩
  have hparent : ∀ e ∈ p.edges.edges, e.parent ∈ p.edges.endpoints := fun e he =>
    mem_endpoints_iff.2 ⟨e.child, Or.inr (leads_of_mem_edges he)⟩
  exact
    { nodup := h.nodup
      child_mem := fun e he => (h.mem_iff _).2 (hchild e he)
      parent_mem := fun e he => (h.mem_iff _).2 (hparent e he)
      child_before := fun e he => h.child_before _ _ (leads_of_mem_edges he) }

/-- Where there is no edge, the terminal alone is a schedule. -/
theorem schedules_terminal (h : p.edges.isEmpty = true) : p.Schedules [p.terminal.id] := by
  have hnone : ∀ e, e ∉ p.edges.edges := fun _ he =>
    not_leads_of_isEmpty h (leads_of_mem_edges he)
  exact ⟨List.nodup_singleton _, fun e he => absurd he (hnone e), fun e he => absurd he (hnone e),
    fun e he => absurd he (hnone e)⟩

/-- The orders that a search of the edges may come to: the terminal alone where there is no
edge, else all ends of edges with children first. -/
def Sorts (p : Plan) (order : List NodeId) : Prop :=
  if p.edges.isEmpty = true then order = [p.terminal.id] else p.edges.ChildrenFirst order

/-- An order that is found is a schedule of the vertices with edges. -/
theorem schedules_of_sorts (h : p.Sorts order) : p.Schedules order := by
  unfold Sorts at h
  split at h
  · next hempty => exact h ▸ schedules_terminal hempty
  · exact schedules_of_childrenFirst h

/-- The topological order of a well-formed plan is found. -/
theorem WellFormed.exists_sorts (h : p.WellFormed) :
    ∃ order, p.topologicalOrder = .ok order ∧ p.Sorts order := by
  obtain ⟨order, horder⟩ := Wire.exists_topologicalOrder_iff.2 h.acyclic
  refine ⟨order, horder, ?_⟩
  unfold topologicalOrder at horder
  unfold Sorts
  split at horder
  · next hempty =>
    rw [if_pos hempty]
    exact (Except.ok.inj horder).symm
  · next hedges =>
    rw [if_neg hedges]
    exact childrenFirst_of_topologicalOrder horder

/-- It is a schedule. -/
theorem WellFormed.exists_schedule (h : p.WellFormed) :
    ∃ order, p.topologicalOrder = .ok order ∧ p.Schedules order := by
  obtain ⟨order, horder, hsorts⟩ := h.exists_sorts
  exact ⟨order, horder, schedules_of_sorts hsorts⟩

/-- Whatever a plan has been through, each vertex stands alone under its own identifier;
the terminal is a vertex and no child; both ends of every edge are vertices; and no path
of edges leads back to its start, so the topological order is found and is a schedule. -/
theorem schedulable_of_reachable (h : p.Reachable) :
    (∀ i n, p.vertices.get? i = some n → n.id = i ∧ n.hasChildren = false) ∧
    p.vertices.get? p.terminal.id = some p.terminal ∧
    (∀ e ∈ p.edges.edges, e.child ≠ p.terminal.id ∧ p.vertices.contains e.child = true ∧
      p.vertices.contains e.parent = true) ∧
    p.edges.Acyclic ∧
    ∃ order, p.topologicalOrder = .ok order ∧ p.Schedules order := by
  have hwell := h.wellFormed
  refine ⟨fun i n hn => ⟨hwell.vertex_id i n hn, hwell.vertex_alone i n hn⟩,
    hwell.terminal_vertex, fun e he => ?_, hwell.acyclic, hwell.exists_schedule⟩
  have hleads : p.edges.Leads e.child e.parent := leads_of_mem_edges he
  refine ⟨fun hchild => ?_, hwell.ends_vertices _ _ hleads⟩
  exact hwell.terminal_sink e.parent (hchild ▸ hleads)

/-- A plan with the union of two scans. -/
def unionPlan : Plan :=
  (create .standard ⟨7⟩).1.run
    [.register (.binary 2 ⟨[]⟩ (.union true) (some (.leaf 0 ⟨[]⟩ (.scan "a" none)))
      (some (.leaf 1 ⟨[]⟩ (.scan "b" none)))), .build]

/-- The same plan after its left scan was cut off, and after a build that came to a tree
which uses the identifier of that scan again. -/
def cutPlan : Plan :=
  { unionPlan with edges := (unionPlan.edges.remove 0 2).2 }.run
    [.register (.unary 3 ⟨[]⟩ (.limit 1) (some (.leaf 0 ⟨[]⟩ (.scan "c" none)))), .build]

/-- The union of the two scans is registered and built. -/
theorem reachable_unionPlan : unionPlan.Reachable :=
  (Reachable.create .standard ⟨7⟩).run _

/-- The edge that is cut off is there, and what follows are calls. -/
theorem reachable_cutPlan : cutPlan.Reachable := by
  have hcut : unionPlan.removeEdge 0 2 =
      .ok (.left, { unionPlan with edges := (unionPlan.edges.remove 0 2).2 }) := by
    with_unfolding_all rfl
  exact (reachable_unionPlan.removeEdge hcut).run _

/-- After a removed edge and a failed build there is still an order, and it is a schedule. -/
theorem schedulable_of_reachable_cutPlan :
    cutPlan.Reachable ∧ cutPlan.built = false ∧
      ∃ order, cutPlan.topologicalOrder = .ok order ∧ cutPlan.Schedules order :=
  ⟨reachable_cutPlan, by decide +kernel, (schedulable_of_reachable reachable_cutPlan).2.2.2.2⟩

/-! ## Schedules of the whole plan -/

/-- A schedule that lists exactly the vertices and ends with the terminal. -/
structure SchedulesAll (p : Plan) (order : List NodeId) : Prop extends p.Schedules order where
  mem_iff : ∀ i, i ∈ order ↔ p.vertices.contains i = true
  ends_terminal : order.getLast? = some p.terminal.id

/-- Every vertex but the terminal has a parent. -/
def Attached (p : Plan) : Prop :=
  ∀ i, p.vertices.contains i = true → i ≠ p.terminal.id → ∃ q, p.edges.Leads i q

/-- In an attached plan, the search finds all vertices, and the terminal comes last because
nothing else is without a parent. -/
theorem Attached.schedulesAll (h : p.Attached) (hwell : p.WellFormed) (hsorts : p.Sorts order) :
    p.SchedulesAll order := by
  have hschedules := schedules_of_sorts hsorts
  unfold Sorts at hsorts
  split at hsorts
  · next hempty =>
    subst hsorts
    refine ⟨hschedules, fun i => ?_, rfl⟩
    rw [List.mem_singleton]
    constructor
    · rintro rfl
      exact hwell.terminal_contained
    · intro hi
      by_contra hne
      obtain ⟨q, hleads⟩ := h i hi hne
      exact not_leads_of_isEmpty hempty hleads
  · next hedges =>
    have hvertex : ∀ i ∈ order, p.vertices.contains i = true := by
      intro i hi
      obtain ⟨w, hup | hdown⟩ := mem_endpoints_iff.1 ((hsorts.mem_iff i).1 hi)
      · exact (hwell.ends_vertices i w hup).1
      · exact (hwell.ends_vertices w i hdown).2
    have hne : order ≠ [] := by
      rintro rfl
      obtain ⟨c, q, hleads⟩ := exists_leads_of_not_isEmpty hedges
      exact List.not_mem_nil ((hsorts.mem_iff c).2 (mem_endpoints_iff.2 ⟨q, Or.inl hleads⟩))
    have hlast : order.getLast? = some p.terminal.id := by
      rw [List.getLast?_eq_some_getLast hne, Option.some.injEq]
      by_contra hother
      obtain ⟨q, hleads⟩ := h _ (hvertex _ (List.getLast_mem hne)) hother
      exact hsorts.not_leads_last (List.getLast?_eq_some_getLast hne) q hleads
    refine ⟨hschedules, fun i => ⟨hvertex i, fun hi => ?_⟩, hlast⟩
    by_cases hterminal : i = p.terminal.id
    · exact hterminal ▸ List.mem_of_getLast? hlast
    · obtain ⟨q, hleads⟩ := h i hi hterminal
      exact (hsorts.mem_iff i).2 (mem_endpoints_iff.2 ⟨q, Or.inl hleads⟩)

/-- A vertex without a parent that is not the terminal is missing from some order that the
search may come to, or comes last in it. -/
theorem WellFormed.exists_sorts_of_not_attached (hwell : p.WellFormed) (h : ¬p.Attached) :
    ∃ order, p.Sorts order ∧ ¬p.SchedulesAll order := by
  unfold Attached at h
  push Not at h
  obtain ⟨v, hv, hne, hsink⟩ := h
  obtain ⟨order, -, hsorts⟩ := hwell.exists_sorts
  by_cases hmem : v ∈ order
  · unfold Sorts at hsorts
    split at hsorts
    · rw [hsorts] at hmem
      exact absurd (List.mem_singleton.1 hmem) hne
    · next hedges =>
      refine ⟨order.erase v ++ [v], ?_, fun hall => hne ?_⟩
      · unfold Sorts
        rw [if_neg hedges]
        exact hsorts.move_last hmem hsink
      · have hlast := hall.ends_terminal
        rw [List.getLast?_append, List.getLast?_singleton, Option.some_or] at hlast
        exact Option.some.inj hlast
  · exact ⟨order, hsorts, fun hall => hmem ((hall.mem_iff v).2 hv)⟩

/-! ## Which plans are attached -/

/-- Without a vertex besides the terminal there is none without an edge. -/
theorem attached_ofTerminal (config : PlannerConfig) (n : PlanNode) :
    (ofTerminal config n).Attached := by
  intro i hi hne
  have hother : n.id ≠ i := Ne.symm hne
  obtain ⟨m, hm⟩ := SortedMap.contains_iff.1 hi
  change (SortedMap.empty.insert n.id n).get? i = some m at hm
  rw [SortedMap.get?_insert, if_neg hother] at hm
  contradiction

/-- Every node of a tree that is added has a parent: its own in the tree, or the terminal. -/
theorem Attached.commitTree {t : PlanNode} (h : p.Attached)
    (hlow : t.Lowerable p.vertices.contains) : (p.commitTree t).Attached := by
  intro i hi hne
  rcases (contains_vertices_commitTree hlow.nodup_ids).1 hi with hold | hnew
  · obtain ⟨q, hleads⟩ := h i hold hne
    exact ⟨q, leads_commitTree_iff.2 (Or.inl hleads)⟩
  · obtain ⟨e, he, rfl⟩ := List.mem_map.1 ((perm_children_newEdges p t).mem_iff.2 hnew)
    exact ⟨e.parent, leads_commitTree_iff.2 (Or.inr ⟨e, he, rfl, rfl⟩)⟩

/-- Every vertex that a build adds has an edge up, so no call takes the property away. -/
theorem kept_attached : Kept Attached where
  start config n _ := attached_ofTerminal config n
  fragments _ _ h := h
  commitTree _ _ _ hlow h := h.commitTree hlow
  finish p h i hi hne := by
    obtain ⟨q, hleads⟩ := h i hi hne
    exact ⟨q, (leads_sortChildren p.edges p.terminal.id).2 hleads⟩

/-- Removing an edge keeps a plan attached if and only if its child has another parent. -/
theorem WellFormed.attached_removeEdge_iff {q : Plan} {child parent : NodeId} {type : EdgeType}
    (hwell : p.WellFormed) (hremove : p.removeEdge child parent = .ok (type, q)) :
    q.Attached ↔ p.Attached ∧ ∃ other, other ≠ parent ∧ p.edges.Leads child other := by
  have hedge : p.edges.Leads child parent := leads_of_removeEdge hremove
  have hq : q = { p with edges := (p.edges.remove child parent).2 } := eq_of_removeEdge hremove
  subst hq
  constructor
  · intro h
    refine ⟨fun i hi hne => ?_, ?_⟩
    · obtain ⟨r, hleads⟩ := h i hi hne
      exact ⟨r, (leads_remove_iff.1 hleads).1⟩
    · have hne : child ≠ p.terminal.id := fun heq => hwell.terminal_sink parent (heq ▸ hedge)
      obtain ⟨other, hleads⟩ := h child (hwell.ends_vertices child parent hedge).1 hne
      obtain ⟨hother, hkept⟩ := leads_remove_iff.1 hleads
      exact ⟨other, fun heq => hkept ⟨rfl, heq⟩, hother⟩
  · rintro ⟨h, other, hother, hleads⟩ i hi hne
    by_cases hchild : i = child
    · subst hchild
      exact ⟨other, leads_remove_iff.2 ⟨hleads, fun heq => hother heq.2⟩⟩
    · obtain ⟨r, hr⟩ := h i hi hne
      exact ⟨r, leads_remove_iff.2 ⟨hr, fun heq => hchild heq.1⟩⟩

/-- A decoded plan is attached if and only if its wire lists a parent for every vertex but the
terminal. -/
theorem attached_of_toPlan_iff {w : Wire} {config : PlannerConfig} {supply : IdSupply}
    (h : w.toPlan config = .ok (p, supply)) :
    p.Attached ↔
      ∀ i, w.vertices.contains i = true → i ≠ w.terminal.id → ∃ q, w.Lists i q := by
  obtain ⟨hchecked, hfresh, -, rfl, -⟩ := Wire.toPlan_eq_ok_iff.1 h
  have hleads : ∀ i q, (w.assemble config w.rebuilt).edges.Leads i q ↔ w.Lists i q := fun i q =>
    Wire.leads_rebuilt_iff.trans Wire.lists_iff_exists_mem_edges.symm
  have hvertex : ∀ i, i ≠ w.terminal.id →
      ((w.assemble config w.rebuilt).vertices.contains i = true ↔
        w.vertices.contains i = true) := by
    intro i hne
    rw [hchecked.contains_vertices_assemble_iff, Wire.knows_iff]
    exact or_iff_right hne
  unfold Attached
  constructor
  · intro hplan i hi hne
    obtain ⟨q, hq⟩ := hplan i ((hvertex i hne).2 hi) hne
    exact ⟨q, (hleads i q).1 hq⟩
  · intro hwire i hi hne
    obtain ⟨q, hq⟩ := hwire i ((hvertex i hne).1 hi) hne
    exact ⟨q, (hleads i q).2 hq⟩

/-- The topological order is found, and whichever order with children first it is, it lists
every vertex and ends with the terminal if and only if the plan is attached.  A plan that was
made from fragments is attached, and every call keeps a plan attached; a decoded plan is if
and only if its wire lists a parent for every vertex but the terminal; and removing an edge
keeps it so if and only if its child has another parent. -/
theorem schedulesAll_iff_attached (h : p.Reachable) :
    (∃ order, p.topologicalOrder = .ok order ∧ p.Sorts order) ∧
    ((∀ order, p.Sorts order → p.SchedulesAll order) ↔ p.Attached) ∧
    (∀ config supply calls, p = (create config supply).1.run calls → p.Attached) ∧
    (∀ (w : Wire) config supply, w.toPlan config = .ok (p, supply) →
      (p.Attached ↔
        ∀ i, w.vertices.contains i = true → i ≠ w.terminal.id → ∃ q, w.Lists i q)) ∧
    (∀ calls, p.Attached → (p.run calls).Attached) ∧
    ∀ child parent type q, p.removeEdge child parent = .ok (type, q) →
      (q.Attached ↔ p.Attached ∧ ∃ other, other ≠ parent ∧ p.edges.Leads child other) := by
  have hwell := h.wellFormed
  refine ⟨hwell.exists_sorts, ⟨fun hall => ?_, fun hattached _ => hattached.schedulesAll hwell⟩,
    ?_, fun w config supply => attached_of_toPlan_iff, fun calls hattached => ?_,
    fun child parent type q => hwell.attached_removeEdge_iff⟩
  · by_contra hnot
    obtain ⟨order, hsorts, hpartial⟩ := hwell.exists_sorts_of_not_attached hnot
    exact hpartial (hall order hsorts)
  · rintro config supply calls rfl
    exact kept_attached.run_create config supply calls
  · exact kept_attached.run hwell hattached calls

/-- The union was made from a fragment, so the order ends with the terminal.  It goes on doing
so when another fragment is added. -/
theorem schedulesAll_iff_attached_unionPlan :
    unionPlan.Reachable ∧ unionPlan.Attached ∧
      (∃ order, unionPlan.topologicalOrder = .ok order ∧ unionPlan.SchedulesAll order) ∧
      ∀ tree, (unionPlan.run [.register tree, .build]).Attached := by
  obtain ⟨⟨order, horder, hsorts⟩, hall, hmade, -, hrun, -⟩ :=
    schedulesAll_iff_attached reachable_unionPlan
  have hattached : unionPlan.Attached := hmade .standard ⟨7⟩ _ rfl
  exact ⟨reachable_unionPlan, hattached, ⟨order, horder, hall.2 hattached order hsorts⟩,
    fun tree => hrun _ hattached⟩

/-- The same plan without the edge from its union to the terminal. -/
def cutTop : Plan :=
  { unionPlan with edges := (unionPlan.edges.remove 2 7).2 }

/-- The terminal is a vertex, but it is missing from the order, which ends with the union. -/
theorem topologicalOrder_cutTop :
    cutTop.Reachable ∧ cutTop.vertices.contains cutTop.terminal.id = true ∧
      cutTop.topologicalOrder = .ok [0, 1, 2] ∧ cutTop.terminal.id ∉ [0, 1, 2] := by
  have hcut : unionPlan.removeEdge 2 7 = .ok (.single, cutTop) := by with_unfolding_all rfl
  exact ⟨reachable_unionPlan.removeEdge hcut, by decide +kernel, by decide +kernel,
    by decide +kernel⟩

end Plan

end QueryGraph
