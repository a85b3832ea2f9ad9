import Mathlib.Data.List.Forall2
import QueryGraph.Proofs.Plan.WellFormed

/-!
# Unfolding a plan into trees

Seen from one of its vertices, a graph is a tree: the vertex, and for each of its ordered
children the type of the edge and the tree of the child.  A vertex that several parents
share stands in the tree once for each path that leads down to it, so a tree tells nothing
about sharing, and nothing about identifiers.

A graph without cycles unfolds into finite trees: every vertex of a well-formed plan has
exactly one.

Main definitions:

- {lit}`Unfolding`: ordered trees of plan nodes with types on their branches.
- {lit}`Unfolding.Coincides`: trees of one shape with the same types, of which the nodes match.
- {lit}`Plan.Unfolds`: the tree of a vertex.

Main results:

- {lit}`Unfolding.Coincides.symm`, {lit}`Unfolding.Coincides.trans`: coinciding is symmetric
  and transitive.
- {lit}`Plan.WellFormed.exists_unfolds`, {lit}`Plan.Unfolds.unique`: every vertex has one
  tree.
-/

namespace QueryGraph

/-! ## Lists that agree index by index -/

section Indices

variable {α β : Type} {as : List α} {bs : List β}

theorem exists_getElem?_of_length_eq (h : as.length = bs.length) {i : Nat} {b : β}
    (hb : bs[i]? = some b) : ∃ a, as[i]? = some a := by
  have hlt : i < as.length := h ▸ (List.getElem?_eq_some_iff.1 hb).1
  exact ⟨_, List.getElem?_eq_getElem hlt⟩

theorem length_eq_of_map_eq {γ : Type} {f : α → γ} {g : β → γ} (h : as.map f = bs.map g) :
    as.length = bs.length := by
  simpa using congrArg List.length h

/-- Lists are related item by item if they have the same length and are so at every place. -/
theorem forall₂_iff_getElem? {R : α → β → Prop} :
    List.Forall₂ R as bs ↔ as.length = bs.length ∧
      ∀ (i : Nat) (a : α) (b : β), as[i]? = some a → bs[i]? = some b → R a b := by
  rw [List.forall₂_iff_get]
  refine and_congr_right fun _ => ⟨fun h i a b ha hb => ?_, fun h i hi hj => ?_⟩
  · obtain ⟨hi, rfl⟩ := List.getElem?_eq_some_iff.1 ha
    obtain ⟨hj, rfl⟩ := List.getElem?_eq_some_iff.1 hb
    exact h i hi hj
  · exact h i _ _ (List.getElem?_eq_getElem hi) (List.getElem?_eq_getElem hj)

/-- Lists of which the items have the same keys and are related, by index. -/
theorem forall₂_keys_iff {γ : Type} {f : α → γ} {g : β → γ} {R : α → β → Prop} :
    List.Forall₂ (fun a b => f a = g b ∧ R a b) as bs ↔ as.map f = bs.map g ∧
      ∀ (i : Nat) (a : α) (b : β), as[i]? = some a → bs[i]? = some b → R a b := by
  have hkeys : as.map f = bs.map g ↔ List.Forall₂ (fun a b => f a = g b) as bs := by
    rw [← List.forall₂_eq_eq_eq, List.forall₂_map_left_iff, List.forall₂_map_right_iff]
  rw [hkeys, forall₂_iff_getElem?, forall₂_iff_getElem?]
  constructor
  · rintro ⟨hlength, h⟩
    exact ⟨⟨hlength, fun i a b ha hb => (h i a b ha hb).1⟩,
      fun i a b ha hb => (h i a b ha hb).2⟩
  · rintro ⟨⟨hlength, hsame⟩, h⟩
    exact ⟨hlength, fun i a b ha hb => ⟨hsame i a b ha hb, h i a b ha hb⟩⟩

/-- If the items of two pairs of lists correspond, the lists agree one way if they agree the
other way. -/
theorem forall₂_congr_of_forall₂ {γ δ : Type} {cs : List γ} {ds : List δ}
    {P : α → γ → Prop} {Q : β → δ → Prop} {R : α → β → Prop} {S : γ → δ → Prop}
    (hP : List.Forall₂ P as cs) (hQ : List.Forall₂ Q bs ds)
    (h : ∀ a ∈ as, ∀ b ∈ bs, ∀ c d, P a c → Q b d → (R a b ↔ S c d)) :
    List.Forall₂ R as bs ↔ List.Forall₂ S cs ds := by
  induction hP generalizing bs ds with
  | nil => cases hQ <;> simp
  | cons hac _ ih =>
    cases hQ with
    | nil => simp
    | cons hbd hrest =>
      have hhead := h _ List.mem_cons_self _ List.mem_cons_self _ _ hac hbd
      have htail := ih hrest fun a ha b hb =>
        h a (List.mem_cons_of_mem _ ha) b (List.mem_cons_of_mem _ hb)
      rw [List.forall₂_cons, List.forall₂_cons, hhead, htail]

end Indices

/-- A plan node with what is below it: branches in order, each with the type of its edge. -/
inductive Unfolding where
  | node (vertex : PlanNode) (branches : List (EdgeType × Unfolding))

namespace Unfolding

/-- Trees of the same shape, with the same types on all branches and the same kind, schema
and operator at all nodes. -/
inductive Coincides : Unfolding → Unfolding → Prop
  | node {n m : PlanNode} {bs cs : List (EdgeType × Unfolding)}
      (vertex : n.Matches m)
      (types : bs.map Prod.fst = cs.map Prod.fst)
      (below : ∀ (i : Nat) (b c : EdgeType × Unfolding), bs[i]? = some b → cs[i]? = some c →
        Coincides b.2 c.2) :
      Coincides (.node n bs) (.node m cs)

variable {n m : PlanNode} {bs cs : List (EdgeType × Unfolding)} {t u w : Unfolding}

/-- Trees coincide if their tops match and their branches do, one by one. -/
theorem coincides_node_iff :
    (node n bs).Coincides (node m cs) ↔ n.Matches m ∧
      List.Forall₂ (fun b c => b.1 = c.1 ∧ b.2.Coincides c.2) bs cs := by
  rw [forall₂_keys_iff]
  constructor
  · rintro ⟨vertex, types, below⟩
    exact ⟨vertex, types, below⟩
  · rintro ⟨vertex, types, below⟩
    exact .node vertex types below

theorem Coincides.symm (h : t.Coincides u) : u.Coincides t := by
  induction h with
  | node vertex types _ ih =>
    exact .node vertex.symm types.symm fun i c b hc hb => ih i b c hb hc

/-- Trees that coincide with a third one coincide. -/
theorem Coincides.trans (h : t.Coincides u) (h' : u.Coincides w) : t.Coincides w := by
  induction h generalizing w with
  | @node n m bs cs vertex types _ ih =>
    cases h' with
    | @node _ k _ ds vertex' types' below' =>
      refine .node (vertex.trans vertex') (types.trans types')
        fun i b d hb hd => ?_
      -- Between two branches that correspond there is one of the tree in the middle.
      obtain ⟨c, hc⟩ := exists_getElem?_of_length_eq (length_eq_of_map_eq types') hd
      exact ih i b c hb hc (below' i c d hc hd)

end Unfolding

namespace Plan

/-- The tree of a vertex: its node, and a branch for each of its ordered children. -/
inductive Unfolds (p : Plan) : NodeId → Unfolding → Prop
  | node {v : NodeId} {n : PlanNode} {bs : List (EdgeType × Unfolding)}
      (vertex : p.vertex? v = some n)
      (types : (p.orderedChildren v).map Prod.snd = bs.map Prod.fst)
      (below : ∀ (i : Nat) (e : NodeId × EdgeType) (b : EdgeType × Unfolding),
        (p.orderedChildren v)[i]? = some e → bs[i]? = some b → Unfolds p e.1 b.2) :
      Unfolds p v (.node n bs)

variable {p : Plan} {v : NodeId} {n : PlanNode} {bs : List (EdgeType × Unfolding)}
  {t u : Unfolding}

/-- The tree of a vertex has its node on top, and a branch for each ordered child. -/
theorem unfolds_node_iff :
    p.Unfolds v (.node n bs) ↔ p.vertex? v = some n ∧
      List.Forall₂ (fun e b => e.2 = b.1 ∧ p.Unfolds e.1 b.2) (p.orderedChildren v) bs := by
  rw [forall₂_keys_iff]
  constructor
  · rintro ⟨vertex, types, below⟩
    exact ⟨vertex, types, below⟩
  · rintro ⟨vertex, types, below⟩
    exact .node vertex types below

/-- A vertex has no more than one tree. -/
theorem Unfolds.unique (h : p.Unfolds v t) (h' : p.Unfolds v u) : t = u := by
  induction h generalizing u with
  | @node v n bs vertex types _ ih =>
    cases h' with
    | @node _ m cs vertex' types' below' =>
      obtain rfl : n = m := Option.some.inj (vertex.symm.trans vertex')
      have hbranches : List.Forall₂ (fun b c => b.1 = c.1 ∧ b.2 = c.2) bs cs := by
        refine forall₂_keys_iff.2 ⟨types.symm.trans types', fun i b c hb hc => ?_⟩
        obtain ⟨e, he⟩ := exists_getElem?_of_length_eq (length_eq_of_map_eq types) hb
        exact ih i e b he hb (below' i e c he hc)
      have hsame : bs = cs := by
        rw [← List.forall₂_eq_eq_eq]
        exact hbranches.imp fun _ _ hbc => Prod.ext hbc.1 hbc.2
      rw [hsame]

/-- Children that all have trees give branches. -/
theorem exists_branches {es : List (NodeId × EdgeType)}
    (h : ∀ e ∈ es, ∃ t, p.Unfolds e.1 t) :
    ∃ bs : List (EdgeType × Unfolding),
      List.Forall₂ (fun e b => e.2 = b.1 ∧ p.Unfolds e.1 b.2) es bs := by
  induction es with
  | nil => exact ⟨[], .nil⟩
  | cons e es ih =>
    obtain ⟨⟨t, ht⟩, hrest⟩ := List.forall_mem_cons.1 h
    obtain ⟨bs, hbs⟩ := ih hrest
    exact ⟨(e.2, t) :: bs, .cons ⟨rfl, ht⟩ hbs⟩

/-- Every vertex of a well-formed plan has a tree: the children of a vertex are vertices, and
no path goes down forever. -/
theorem WellFormed.exists_unfolds (h : p.WellFormed) (hv : p.vertices.contains v = true) :
    ∃ t, p.Unfolds v t := by
  induction v using h.acyclic.wellFounded.induction with
  | h v ih =>
    obtain ⟨n, hn⟩ := SortedMap.contains_iff.1 hv
    have hbelow : ∀ e ∈ p.orderedChildren v, ∃ t, p.Unfolds e.1 t := by
      intro e he
      have hleads := leads_of_mem_orderedChildren h.coherent he
      exact ih e.1 hleads (h.ends_vertices e.1 v hleads).1
    obtain ⟨bs, hbs⟩ := exists_branches hbelow
    exact ⟨.node n bs, unfolds_node_iff.2 ⟨hn, hbs⟩⟩

end Plan

end QueryGraph
