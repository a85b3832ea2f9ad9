import Mathlib.Data.Fintype.EquivFin
import Mathlib.Logic.Relation
import Mathlib.Order.WellFounded
import QueryGraph.Graph.TopologicalOrder
import QueryGraph.Proofs.Graph.EdgeIndex

/-!
# Orders with children first

The search for an order of the vertices succeeds exactly on the edge stores
without a cycle, and what it finds lists every end of an edge once, children before
their parents.

Main definitions:

- {lit}`EdgeStore.Acyclic`: no path of edges leads back to where it started.
- {lit}`EdgeStore.ChildrenFirst`: an order of all ends of edges in which every child
  comes before its parents.

Main results:

- {lit}`EdgeStore.acyclic_of_rank`: a number for each vertex that grows along edges
  rules out cycles.
- {lit}`EdgeStore.childrenFirst_of_topologicalOrder`: what the search finds is such
  an order.
- {lit}`EdgeStore.ChildrenFirst.not_leads_last`, {lit}`EdgeStore.ChildrenFirst.move_last`: what
  comes last has no parent, and whatever has none may come last.
- {lit}`EdgeStore.topologicalOrder_isOk_iff`: the search succeeds exactly where
  there is no cycle.
-/

namespace QueryGraph

namespace EdgeStore

variable {ε : Type} {s t : EdgeStore ε} {c p v : NodeId}

/-! ## Cycles -/

/-- No path of edges leads back to where it started. -/
def Acyclic (s : EdgeStore ε) : Prop :=
  ∀ v, ¬Relation.TransGen s.Leads v v

/-- A number for each vertex that grows along edges rules out cycles. -/
theorem acyclic_of_rank (rank : NodeId → Nat)
    (h : ∀ c p, s.Leads c p → rank c < rank p) : s.Acyclic := by
  have hpath : ∀ c p, Relation.TransGen s.Leads c p → rank c < rank p := by
    intro c p path
    induction path with
    | single hedge => exact h _ _ hedge
    | tail _ hedge ih => exact ih.trans (h _ _ hedge)
  intro v path
  exact Nat.lt_irrefl _ (hpath v v path)

/-- With fewer edges there are no more cycles. -/
theorem Acyclic.mono (h : s.Acyclic) (hkept : ∀ c p, t.Leads c p → s.Leads c p) : t.Acyclic :=
  fun v path => h v (Relation.TransGen.mono hkept v v path)

/-- Without a cycle, every walk from child to child ends: there are only finitely
many identifiers. -/
theorem Acyclic.wellFounded (h : s.Acyclic) : WellFounded s.Leads := by
  have : Finite NodeId :=
    Finite.of_injective UInt64.toFin fun a b hab => UInt64.toFin_inj.1 hab
  have : Std.Irrefl (Relation.TransGen s.Leads) := ⟨h⟩
  have hpaths := Finite.wellFounded_of_trans_of_irrefl (Relation.TransGen s.Leads)
  exact Subrelation.wf (fun hedge => Relation.TransGen.single hedge) hpaths

/-! ## Ends of edges -/

/-- Nothing is left twice where duplicates are taken away. -/
theorem nodup_eraseDups {α : Type} [BEq α] [LawfulBEq α] (list : List α) :
    list.eraseDups.Nodup := by
  match list with
  | [] => simp
  | a :: list =>
    rw [List.eraseDups_cons, List.nodup_cons]
    exact ⟨by simp [List.mem_eraseDups], nodup_eraseDups _⟩
termination_by list.length
decreasing_by exact Nat.lt_succ_of_le (List.length_filter_le _ _)

/-- Every vertex with an edge is listed once. -/
theorem nodup_endpoints (s : EdgeStore ε) : s.endpoints.Nodup :=
  nodup_eraseDups _

/-- The vertices to be ordered are the ends of edges. -/
theorem mem_endpoints_iff : v ∈ s.endpoints ↔ ∃ w, s.Leads v w ∨ s.Leads w v := by
  unfold endpoints
  rw [List.mem_eraseDups, List.mem_flatMap]
  simp only [SortedMap.mem_keys_iff, List.mem_cons, List.not_mem_nil, or_false]
  constructor
  · rintro ⟨⟨c, p⟩, hleads, rfl | rfl⟩
    · exact ⟨p, Or.inl hleads⟩
    · exact ⟨c, Or.inr hleads⟩
  · rintro ⟨w, hleads | hleads⟩
    · exact ⟨⟨v, w⟩, hleads, Or.inl rfl⟩
    · exact ⟨⟨w, v⟩, hleads, Or.inr rfl⟩

/-! ## The search -/

/-- An order of all ends of edges, each listed once, in which every child comes
before its parents. -/
structure ChildrenFirst (s : EdgeStore ε) (order : List NodeId) : Prop where
  nodup : order.Nodup
  mem_iff : ∀ v, v ∈ order ↔ v ∈ s.endpoints
  child_before : ∀ c p, s.Leads c p → order.idxOf c < order.idxOf p

/-- A vertex is free if it has no child among those left. -/
theorem isFree_iff {left : List NodeId} :
    s.isFree left v = true ↔ ∀ c ∈ left, ¬s.Leads c v := by
  unfold isFree childAmong?
  rw [Option.isNone_iff_eq_none, Option.map_eq_none_iff, List.find?_eq_none]
  simp only [SortedMap.mem_keys_iff, Bool.and_eq_true, decide_eq_true_eq, List.contains_eq_mem,
    not_and]
  constructor
  · intro h c hc hleads
    exact h ⟨c, v⟩ hleads rfl hc
  · rintro h ⟨c, p⟩ hleads rfl hc
    exact h c hc hleads

/-- The search takes the vertices that are left in some order, none of them before
a child that is left. -/
theorem perm_of_orderOf {left order : List NodeId}
    (h : s.orderOf left = .ok order) :
    order.Perm left ∧ order.Pairwise (fun a b => ¬s.Leads b a) ∧ ∀ v ∈ order, ¬s.Leads v v := by
  rw [orderOf] at h
  split at h
  · next v hfind =>
    have hmem : v ∈ left := List.mem_of_find?_eq_some hfind
    have hfree := isFree_iff.1 (List.find?_some hfind)
    have hlength : (left.erase v).length < left.length := by
      have hpos := List.length_pos_of_mem hmem
      rw [List.length_erase_of_mem hmem]
      omega
    cases hrest : s.orderOf (left.erase v) with
    | error w =>
      rw [hrest] at h
      contradiction
    | ok rest =>
      rw [hrest] at h
      obtain rfl : v :: rest = order := Except.ok.inj h
      rcases perm_of_orderOf hrest with ⟨hperm, hpairwise, hirrefl⟩
      have hleft : ∀ w ∈ rest, ¬s.Leads w v := fun w hw =>
        hfree w (List.mem_of_mem_erase (hperm.mem_iff.1 hw))
      refine ⟨(hperm.cons v).trans (List.perm_cons_erase hmem).symm,
        List.pairwise_cons.2 ⟨hleft, hpairwise⟩, ?_⟩
      intro w hw
      rcases List.mem_cons.1 hw with rfl | hw
      · exact hfree w hmem
      · exact hirrefl w hw
  · split at h
    · obtain rfl : [] = order := Except.ok.inj h
      simp
    · contradiction
termination_by left.length

/-- An order of all ends of edges has children first if nothing in it comes before one of its
children. -/
theorem childrenFirst_of_perm {order : List NodeId}
    (hperm : order.Perm s.endpoints) (hpairwise : order.Pairwise fun a b => ¬s.Leads b a)
    (hirrefl : ∀ v ∈ order, ¬s.Leads v v) : s.ChildrenFirst order := by
  refine ⟨hperm.nodup_iff.2 s.nodup_endpoints, fun v => hperm.mem_iff, ?_⟩
  intro c p hleads
  have hc : c ∈ order := hperm.mem_iff.2 (mem_endpoints_iff.2 ⟨p, Or.inl hleads⟩)
  have hp : p ∈ order := hperm.mem_iff.2 (mem_endpoints_iff.2 ⟨c, Or.inr hleads⟩)
  have hcIdx := List.idxOf_lt_length_iff.2 hc
  have hpIdx := List.idxOf_lt_length_iff.2 hp
  by_contra hnot
  rcases Nat.lt_or_eq_of_le (Nat.le_of_not_lt hnot) with hlt | heq
  · have hearlier := List.pairwise_iff_getElem.1 hpairwise _ _ hpIdx hcIdx hlt
    rw [List.getElem_idxOf hpIdx, List.getElem_idxOf hcIdx] at hearlier
    exact hearlier hleads
  · have hcp : c = p := (List.idxOf_inj hc).1 heq.symm
    subst hcp
    exact hirrefl c hc hleads

/-- An order that is found lists every child before its parents. -/
theorem childrenFirst_of_topologicalOrder {order : List NodeId}
    (h : s.topologicalOrder = .ok order) : s.ChildrenFirst order := by
  rcases perm_of_orderOf h with ⟨hperm, hpairwise, hirrefl⟩
  exact childrenFirst_of_perm hperm hpairwise hirrefl

namespace ChildrenFirst

variable {order : List NodeId} (h : s.ChildrenFirst order)

include h

theorem perm : order.Perm s.endpoints :=
  (List.perm_ext_iff_of_nodup h.nodup s.nodup_endpoints).2 h.mem_iff

theorem not_leads_self (v : NodeId) : ¬s.Leads v v := fun hleads =>
  Nat.lt_irrefl _ (h.child_before v v hleads)

/-- No edge leads from a later vertex to an earlier one. -/
theorem pairwise : order.Pairwise fun a b => ¬s.Leads b a := by
  rw [List.pairwise_iff_getElem]
  intro i j hi hj hij hleads
  have hlt := h.child_before _ _ hleads
  rw [h.nodup.idxOf_getElem i hi, h.nodup.idxOf_getElem j hj] at hlt
  omega

/-- What comes last has no parent. -/
theorem not_leads_last (hlast : order.getLast? = some v) (q : NodeId) :
    ¬s.Leads v q := by
  intro hleads
  obtain ⟨front, rfl⟩ := List.getLast?_eq_some_iff.1 hlast
  have hq : q ∈ front ++ [v] := (h.mem_iff q).2 (mem_endpoints_iff.2 ⟨v, Or.inr hleads⟩)
  rcases List.mem_append.1 hq with hfront | hv
  · exact (List.pairwise_append.1 h.pairwise).2.2 q hfront v (by simp) hleads
  · rw [List.mem_singleton.1 hv] at hleads
    exact h.not_leads_self v hleads

/-- What has no parent may come last. -/
theorem move_last (hv : v ∈ order) (hsink : ∀ q, ¬s.Leads v q) :
    s.ChildrenFirst (order.erase v ++ [v]) := by
  have hperm : (order.erase v ++ [v]).Perm order :=
    (List.perm_append_singleton v _).trans (List.perm_cons_erase hv).symm
  refine childrenFirst_of_perm (hperm.trans h.perm) ?_ fun w _ => h.not_leads_self w
  refine List.pairwise_append.2 ⟨h.pairwise.sublist List.erase_sublist,
    List.pairwise_singleton _ _, ?_⟩
  intro a _ b hb
  rw [List.mem_singleton.1 hb]
  exact hsink a

end ChildrenFirst

/-- While no cycle is left, some vertex is free. -/
theorem Acyclic.exists_isFree (h : s.Acyclic) {left : List NodeId}
    (hne : left ≠ []) : ∃ v ∈ left, s.isFree left v = true := by
  rcases List.exists_mem_of_ne_nil left hne with ⟨w, hw⟩
  rcases h.wellFounded.has_min {v | v ∈ left} ⟨w, hw⟩ with ⟨v, hv, hmin⟩
  exact ⟨v, hv, isFree_iff.2 fun c hc => hmin c hc⟩

/-- Without cycles, there is always a vertex to go on with until none is left. -/
theorem Acyclic.orderOf_isOk (h : s.Acyclic) (left : List NodeId) :
    ∃ order, s.orderOf left = .ok order := by
  rw [orderOf]
  split
  · next v hfind =>
    have hmem : v ∈ left := List.mem_of_find?_eq_some hfind
    have hlength : (left.erase v).length < left.length := by
      have hpos := List.length_pos_of_mem hmem
      rw [List.length_erase_of_mem hmem]
      omega
    rcases h.orderOf_isOk (left.erase v) with ⟨rest, hrest⟩
    exact ⟨v :: rest, by rw [hrest]; rfl⟩
  · next hfind =>
    split
    · exact ⟨[], rfl⟩
    · next w rest _ =>
      rcases h.exists_isFree (List.cons_ne_nil w rest) with ⟨v, hv, hfree⟩
      exact absurd hfree (List.find?_eq_none.1 hfind v hv)
termination_by left.length

/-- The search succeeds exactly where there is no cycle. -/
theorem topologicalOrder_isOk_iff :
    (∃ order, s.topologicalOrder = .ok order) ↔ s.Acyclic := by
  constructor
  · rintro ⟨order, horder⟩
    exact acyclic_of_rank order.idxOf (childrenFirst_of_topologicalOrder horder).child_before
  · intro h
    exact h.orderOf_isOk s.endpoints

/-- Without a cycle, numbers grow along edges, starting below the count of ends. -/
theorem Acyclic.exists_rank (h : s.Acyclic) :
    ∃ rank : NodeId → Nat, (∀ c p, s.Leads c p → rank c < rank p) ∧
      ∀ v, rank v ≤ s.endpoints.length := by
  rcases topologicalOrder_isOk_iff.2 h with ⟨order, horder⟩
  have hfirst := childrenFirst_of_topologicalOrder horder
  have hlength : order.length = s.endpoints.length := (perm_of_orderOf horder).1.length_eq
  exact ⟨order.idxOf, hfirst.child_before, fun v => hlength ▸ List.idxOf_le_length⟩

end EdgeStore

end QueryGraph
