import Mathlib.Algebra.BigOperators.Group.Finset.Basic
import Mathlib.Data.List.Induction
import Mathlib.Data.Nat.Find
import QueryGraph.Proofs.Graph.EdgeIndex

/-!
# The history of an edge store

A store starts empty and is changed step by step.  All that it answers can be told from the
list of its changes: which edges there are and what they are labelled with, and in which
order the parents and the children of a vertex are listed.  An edge that is relabelled keeps
its place, one that was removed and is added again comes last.

Main definitions:

- {lit}`EdgeStore.Change`, {lit}`EdgeStore.after`: changes, and the store after a history of
  them.
- {lit}`EdgeStore.LastAdded`: the last change of a history that decides about an edge is
  that which adds it.
- {lit}`EdgeStore.lastAbsence`: how many changes had been made when an edge was last absent.
- {lit}`EdgeStore.Remembers`, {lit}`EdgeStore.ListsEdges`, {lit}`EdgeStore.ChangesOneEdge`:
  what a store keeps of its history, how its lists agree, and what one change does.

Main results:

- {lit}`EdgeStore.label?_after_eq_some_iff`: an edge has the label with which it was last
  added.
- {lit}`EdgeStore.parents_change`, {lit}`EdgeStore.children_change`: one change drops vertices
  from a list, or adds one at its end.
- {lit}`EdgeStore.inOrder_parents`, {lit}`EdgeStore.inOrder_children`: the lists are in the
  order in which the edges came.
- {lit}`EdgeStore.after_represents`: all that a store answers after a history.
-/

namespace QueryGraph

namespace EdgeStore

variable {ε : Type} {s : EdgeStore ε} {c p v : NodeId} {label : ε}

/-! ## Changes -/

/-- A change of an edge store. -/
inductive Change (ε : Type) where
  | add (child parent : NodeId) (label : ε)
  | remove (child parent : NodeId)
  | sortChildren (parent : NodeId)
  | clear

/-- A change that decides whether there is an edge from a child to a parent. -/
def Change.Decides (c p : NodeId) : Change ε → Prop
  | .add child parent _ | .remove child parent => child = c ∧ parent = p
  | .sortChildren _ => False
  | .clear => True

/-- The label of the edges about which a change decides, if it leaves them there. -/
def Change.label? : Change ε → Option ε
  | .add _ _ label => some label
  | _ => none

/-- The store after a change. -/
def change (s : EdgeStore ε) : Change ε → EdgeStore ε
  | .add child parent label => (s.add child parent label).2
  | .remove child parent => (s.remove child parent).2
  | .sortChildren parent => s.sortChildren parent
  | .clear => empty

/-- The store after a history of changes, the first of them made to the empty store. -/
def after (history : List (Change ε)) : EdgeStore ε :=
  history.foldl change empty

variable {history : List (Change ε)} {x : Change ε}

@[simp] theorem after_nil : after ([] : List (Change ε)) = empty :=
  rfl

@[simp] theorem after_concat (history : List (Change ε)) (x : Change ε) :
    after (history ++ [x]) = (after history).change x := by
  unfold after
  rw [List.foldl_append]
  rfl

/-- A change that leaves an edge there is the one that adds it. -/
theorem Change.add_of_decides (h : x.Decides c p) (hlabel : x.label? = some label) :
    x = .add c p label := by
  cases x with
  | add child parent l =>
    obtain ⟨rfl, rfl⟩ := h
    rw [Option.some.inj hlabel]
  | remove => contradiction
  | sortChildren => contradiction
  | clear => contradiction

/-! ## One change -/

/-- No change makes the three maps of a store disagree. -/
theorem Coherent.change (hs : s.Coherent) (x : Change ε) : (s.change x).Coherent := by
  cases x with
  | add child parent label => exact hs.insert ⟨child, parent, label⟩
  | remove child parent => exact hs.remove child parent
  | sortChildren parent => exact hs.sortChildren parent
  | clear => exact coherent_empty

/-- After any history the three maps of a store agree. -/
theorem coherent_after (history : List (Change ε)) : (after history).Coherent := by
  induction history using List.reverseRecOn with
  | nil => exact coherent_empty
  | append_singleton history x ih =>
    rw [after_concat]
    exact ih.change x

theorem label?_remove_self (s : EdgeStore ε) (c p : NodeId) :
    (s.remove c p).2.label? c p = none := by
  rw [label?_remove, if_pos ⟨rfl, rfl⟩]

/-- A change that decides about an edge leaves it with the label that the change says. -/
theorem label?_change_of_decides (s : EdgeStore ε) (h : x.Decides c p) :
    (s.change x).label? c p = x.label? := by
  cases x with
  | add child parent label =>
    exact (label?_insert s ⟨child, parent, label⟩ c p).trans (if_pos h)
  | remove child parent =>
    obtain ⟨rfl, rfl⟩ := h
    exact label?_remove_self s child parent
  | sortChildren parent => exact absurd h id
  | clear => rfl

/-- All other edges stay as they are. -/
theorem label?_change_of_not_decides (s : EdgeStore ε) (h : ¬x.Decides c p) :
    (s.change x).label? c p = s.label? c p := by
  cases x with
  | add child parent label =>
    exact (label?_insert s ⟨child, parent, label⟩ c p).trans (if_neg h)
  | remove child parent => exact (label?_remove s child parent c p).trans (if_neg h)
  | sortChildren parent => exact label?_sortChildren s parent
  | clear => exact absurd trivial h

/-- A change drops parents of a vertex, or adds one at the end that was not there. -/
theorem parents_change (hs : s.Coherent) (x : Change ε) (c : NodeId) :
    ((s.change x).parents c).Sublist (s.parents c) ∨
      ∃ p, ¬s.Leads c p ∧ (s.change x).parents c = s.parents c ++ [p] := by
  cases x with
  | add child parent label =>
    change ((s.insert ⟨child, parent, label⟩).parents c).Sublist (s.parents c) ∨
      ∃ p, ¬s.Leads c p ∧ (s.insert ⟨child, parent, label⟩).parents c = s.parents c ++ [p]
    by_cases h : s.Leads child parent
    · exact Or.inl (by rw [parents_insert_of_leads h])
    · rw [parents_insert h]
      split
      · next hc =>
        obtain rfl : child = c := hc
        exact Or.inr ⟨parent, h, rfl⟩
      · exact Or.inl (List.Sublist.refl _)
  | remove child parent =>
    refine Or.inl ?_
    change ((s.remove child parent).2.parents c).Sublist (s.parents c)
    rw [parents_remove hs]
    split
    · exact List.filter_sublist
    · exact List.Sublist.refl _
  | sortChildren parent =>
    refine Or.inl ?_
    change ((s.sortChildren parent).parents c).Sublist (s.parents c)
    rw [parents_sortChildren]
  | clear => exact Or.inl (List.nil_sublist _)

/-- A change other than sorting drops children of a vertex, or adds one at the end that was
not there. -/
theorem children_change (hs : s.Coherent) (hx : x ≠ .sortChildren p) :
    ((s.change x).children p).Sublist (s.children p) ∨
      ∃ c, ¬s.Leads c p ∧ (s.change x).children p = s.children p ++ [c] := by
  cases x with
  | add child parent label =>
    change ((s.insert ⟨child, parent, label⟩).children p).Sublist (s.children p) ∨
      ∃ c, ¬s.Leads c p ∧ (s.insert ⟨child, parent, label⟩).children p = s.children p ++ [c]
    by_cases h : s.Leads child parent
    · exact Or.inl (by rw [children_insert_of_leads h])
    · rw [children_insert h]
      split
      · next hp =>
        obtain rfl : parent = p := hp
        exact Or.inr ⟨child, h, rfl⟩
      · exact Or.inl (List.Sublist.refl _)
  | remove child parent =>
    refine Or.inl ?_
    change ((s.remove child parent).2.children p).Sublist (s.children p)
    rw [children_remove hs]
    split
    · exact List.filter_sublist
    · exact List.Sublist.refl _
  | sortChildren parent =>
    refine Or.inl ?_
    change ((s.sortChildren parent).children p).Sublist (s.children p)
    rw [children_sortChildren, if_neg fun heq => hx (congrArg Change.sortChildren heq)]
  | clear => exact Or.inl (List.nil_sublist _)

/-! ## The last word about an edge -/

/-- The last change of a history that decides about an edge adds it with a label. -/
def LastAdded (history : List (Change ε)) (c p : NodeId) (label : ε) : Prop :=
  ∃ before later, history = before ++ .add c p label :: later ∧ ∀ x ∈ later, ¬x.Decides c p

/-- A change that decides about an edge has the last word about it. -/
theorem lastAdded_concat_of_decides (h : x.Decides c p) :
    LastAdded (history ++ [x]) c p label ↔ x.label? = some label := by
  constructor
  · rintro ⟨before, later, heq, hlater⟩
    rcases List.eq_nil_or_concat' later with rfl | ⟨later, y, rfl⟩
    · obtain ⟨-, hx⟩ := List.append_inj' heq rfl
      rw [List.cons.inj hx |>.1]
      rfl
    · rw [← List.cons_append, ← List.append_assoc] at heq
      obtain ⟨-, hx⟩ := List.append_inj' heq rfl
      obtain rfl : x = y := (List.cons.inj hx).1
      exact absurd h (hlater x (by simp))
  · intro hlabel
    rw [Change.add_of_decides h hlabel]
    exact ⟨history, [], rfl, fun y hy => absurd hy List.not_mem_nil⟩

/-- Any other change leaves the last word to what was before. -/
theorem lastAdded_concat_of_not_decides (h : ¬x.Decides c p) :
    LastAdded (history ++ [x]) c p label ↔ LastAdded history c p label := by
  constructor
  · rintro ⟨before, later, heq, hlater⟩
    rcases List.eq_nil_or_concat' later with rfl | ⟨later, y, rfl⟩
    · obtain ⟨-, hx⟩ := List.append_inj' heq rfl
      rw [List.cons.inj hx |>.1] at h
      exact absurd ⟨rfl, rfl⟩ h
    · rw [← List.cons_append, ← List.append_assoc] at heq
      obtain ⟨hhistory, -⟩ := List.append_inj' heq rfl
      exact ⟨before, later, hhistory, fun z hz => hlater z (List.mem_append_left _ hz)⟩
  · rintro ⟨before, later, rfl, hlater⟩
    refine ⟨before, later ++ [x], by simp, ?_⟩
    intro y hy
    rcases List.mem_append.1 hy with hy | hy
    · exact hlater y hy
    · rw [List.mem_singleton.1 hy]
      exact h

/-- An edge has the label with which it was last added, if nothing after that removed it. -/
theorem label?_after_eq_some_iff (history : List (Change ε)) (c p : NodeId) (label : ε) :
    (after history).label? c p = some label ↔ LastAdded history c p label := by
  induction history using List.reverseRecOn with
  | nil => simp [LastAdded, EdgeStore.label?, empty]
  | append_singleton history x ih =>
    rw [after_concat]
    by_cases h : x.Decides c p
    · rw [label?_change_of_decides _ h, lastAdded_concat_of_decides h]
    · rw [label?_change_of_not_decides _ h, lastAdded_concat_of_not_decides h, ih]

/-! ## Since when an edge is there -/

/-- How many changes of a history had been made when an edge was last absent. -/
def lastAbsence (history : List (Change ε)) (c p : NodeId) : Nat :=
  Nat.findGreatest (fun n => (after (history.take n)).hasEdge c p = false) history.length

/-- An edge is looked for no later than at the end of the history. -/
theorem lastAbsence_le (history : List (Change ε)) (c p : NodeId) :
    lastAbsence history c p ≤ history.length :=
  Nat.findGreatest_le _

/-- Where an edge was last absent, it was absent. -/
theorem hasEdge_take_lastAbsence (history : List (Change ε)) (c p : NodeId) :
    (after (history.take (lastAbsence history c p))).hasEdge c p = false := by
  have hstart : (after (history.take 0)).hasEdge c p = false := rfl
  exact Nat.findGreatest_spec (P := fun n => (after (history.take n)).hasEdge c p = false)
    (Nat.zero_le _) hstart

/-- Ever since then it has been there. -/
theorem hasEdge_take_of_lastAbsence_lt {n : Nat} (hn : lastAbsence history c p < n)
    (hle : n ≤ history.length) : (after (history.take n)).hasEdge c p = true :=
  eq_true_of_ne_false (Nat.findGreatest_is_greatest hn hle)

/-- An edge that is not there now was last absent now. -/
theorem lastAbsence_of_hasEdge_eq_false (h : (after history).hasEdge c p = false) :
    lastAbsence history c p = history.length := by
  refine le_antisymm (lastAbsence_le history c p) (Nat.le_findGreatest le_rfl ?_)
  rw [List.take_length]
  exact h

/-- An edge that is there now was last absent earlier. -/
theorem lastAbsence_lt_of_hasEdge (h : (after history).hasEdge c p = true) :
    lastAbsence history c p < history.length := by
  refine lt_of_le_of_ne (lastAbsence_le history c p) fun heq => ?_
  have habsent := hasEdge_take_lastAbsence history c p
  rw [heq, List.take_length, h] at habsent
  contradiction

/-- Where an edge is there, the next change says nothing about its last absence. -/
theorem lastAbsence_concat (h : (after (history ++ [x])).hasEdge c p = true) :
    lastAbsence (history ++ [x]) c p = lastAbsence history c p := by
  have htake : ∀ n, n ≤ history.length → (history ++ [x]).take n = history.take n := fun n hn =>
    List.take_append_of_le_length hn
  have hle := lastAbsence_le history c p
  refine Nat.findGreatest_eq_iff.2 ⟨by simp; omega, fun _ => ?_, fun n hn hnLe habsent => ?_⟩
  · rw [htake _ hle]
    exact hasEdge_take_lastAbsence history c p
  · rw [List.length_append, List.length_singleton] at hnLe
    rcases Nat.lt_or_eq_of_le hnLe with hlt | rfl
    · rw [htake n (Nat.le_of_lt_succ hlt),
        hasEdge_take_of_lastAbsence_lt hn (Nat.le_of_lt_succ hlt)] at habsent
      contradiction
    · have hall : (history ++ [x]).take (history.length + 1) = history ++ [x] :=
        List.take_of_length_le (by simp)
      rw [hall, h] at habsent
      contradiction

/-- The change after its last absence adds an edge. -/
theorem exists_add_at_lastAbsence (h : (after history).hasEdge c p = true) :
    ∃ label, history[lastAbsence history c p]? = some (.add c p label) := by
  have hlt := lastAbsence_lt_of_hasEdge h
  have habsent := hasEdge_take_lastAbsence history c p
  have hpresent := hasEdge_take_of_lastAbsence_lt (Nat.lt_succ_self _) hlt
  rw [List.take_add_one, List.getElem?_eq_getElem hlt, Option.toList_some, after_concat] at hpresent
  rw [List.getElem?_eq_getElem hlt]
  generalize history[lastAbsence history c p] = x at hpresent
  obtain ⟨label, hlabel⟩ := leads_iff_exists_label?.1 hpresent
  by_cases hx : x.Decides c p
  · rw [label?_change_of_decides _ hx] at hlabel
    exact ⟨label, congrArg some (Change.add_of_decides hx hlabel)⟩
  · rw [label?_change_of_not_decides _ hx] at hlabel
    exact absurd (leads_of_label? hlabel) (hasEdge_eq_false_iff.1 habsent)

/-! ## The order of the lists -/

/-- Pairs of a child and a parent in the order in which their edges came. -/
def InOrder (history : List (Change ε)) (ends : List (NodeId × NodeId)) : Prop :=
  ends.Pairwise fun d e => lastAbsence history d.1 d.2 < lastAbsence history e.1 e.2

variable {ends ends' : List (NodeId × NodeId)} {e : NodeId × NodeId}

/-- A change that leaves some edges out, and each of the others there, keeps them in order. -/
theorem InOrder.concat_of_sublist (h : InOrder history ends) (hsublist : ends'.Sublist ends)
    (hpresent : ∀ d ∈ ends', (after (history ++ [x])).hasEdge d.1 d.2 = true) :
    InOrder (history ++ [x]) ends' := by
  refine (List.Pairwise.sublist hsublist h).imp_of_mem ?_
  intro d f hd hf hlt
  rw [lastAbsence_concat (hpresent d hd), lastAbsence_concat (hpresent f hf)]
  exact hlt

/-- An edge that was not there comes last. -/
theorem InOrder.concat_of_new (h : InOrder history ends)
    (hold : ∀ d ∈ ends, (after history).hasEdge d.1 d.2 = true)
    (hnew : (after history).hasEdge e.1 e.2 = false)
    (hpresent : ∀ d ∈ ends ++ [e], (after (history ++ [x])).hasEdge d.1 d.2 = true) :
    InOrder (history ++ [x]) (ends ++ [e]) := by
  refine List.pairwise_append.2 ⟨?_, List.pairwise_singleton _ _, ?_⟩
  · exact h.concat_of_sublist (List.Sublist.refl _) fun d hd =>
      hpresent d (List.mem_append_left _ hd)
  · intro d hd f hf
    rw [List.mem_singleton.1 hf, lastAbsence_concat (hpresent d (List.mem_append_left _ hd)),
      lastAbsence_concat (hpresent e (by simp)), lastAbsence_of_hasEdge_eq_false hnew]
    exact lastAbsence_lt_of_hasEdge (hold d hd)

/-- There is an edge to every parent that is listed. -/
theorem hasEdge_of_mem_parents (hs : s.Coherent) (c : NodeId) :
    ∀ d ∈ (s.parents c).map (c, ·), s.hasEdge d.1 d.2 = true := by
  intro d hd
  obtain ⟨p, hp, rfl⟩ := List.mem_map.1 hd
  exact (hs.mem_parents_iff c p).1 hp

/-- There is an edge from every child that is listed. -/
theorem hasEdge_of_mem_children (hs : s.Coherent) (p : NodeId) :
    ∀ d ∈ (s.children p).map (·, p), s.hasEdge d.1 d.2 = true := by
  intro d hd
  obtain ⟨c, hc, rfl⟩ := List.mem_map.1 hd
  exact (hs.mem_children_iff c p).1 hc

/-- The parents of a vertex are listed in the order in which the edges came. -/
theorem inOrder_parents (history : List (Change ε)) (c : NodeId) :
    InOrder history (((after history).parents c).map (c, ·)) := by
  induction history using List.reverseRecOn with
  | nil => exact List.Pairwise.nil
  | append_singleton history x ih =>
    have hs := coherent_after history
    have hpresent := hasEdge_of_mem_parents (coherent_after (history ++ [x])) c
    rcases parents_change hs x c with hsublist | ⟨p, hnew, hparents⟩
    · rw [← after_concat] at hsublist
      exact ih.concat_of_sublist (hsublist.map _) hpresent
    · rw [← after_concat] at hparents
      rw [hparents, List.map_append] at hpresent ⊢
      exact ih.concat_of_new (hasEdge_of_mem_parents hs c) (hasEdge_eq_false_iff.2 hnew) hpresent

/-- So are the children of a vertex, if they have not been sorted since there were none. -/
theorem inOrder_children {before later : List (Change ε)} (hnone : (after before).children p = [])
    (hsort : .sortChildren p ∉ later) :
    InOrder (before ++ later) (((after (before ++ later)).children p).map (·, p)) := by
  induction later using List.reverseRecOn with
  | nil =>
    rw [List.append_nil, hnone]
    exact List.Pairwise.nil
  | append_singleton later x ih =>
    rw [List.mem_append, List.mem_singleton, not_or] at hsort
    have ih := ih hsort.1
    have hs := coherent_after (before ++ later)
    have hpresent := hasEdge_of_mem_children (coherent_after (before ++ later ++ [x])) p
    rw [← List.append_assoc]
    rcases children_change hs (Ne.symm hsort.2) with hsublist | ⟨c, hnew, hchildren⟩
    · rw [← after_concat] at hsublist
      exact ih.concat_of_sublist (hsublist.map _) hpresent
    · rw [← after_concat] at hchildren
      rw [hchildren, List.map_append] at hpresent ⊢
      exact ih.concat_of_new (hasEdge_of_mem_children hs p) (hasEdge_eq_false_iff.2 hnew) hpresent

/-! ## All edges -/

/-- The edges are counted by their children and by their parents. -/
theorem size_eq_sum_of_filter (hs : s.Coherent) (end? : Edge ε → NodeId)
    (list : NodeId → List NodeId)
    (hlist : ∀ v, (s.edges.filter (end? · = v)).length = (list v).length) {vs : Finset NodeId}
    (hvs : ∀ e ∈ s.edges, end? e ∈ vs) : s.size = ∑ v ∈ vs, (list v).length := by
  have hcount : ∀ v, (s.edges.map end?).count v = (list v).length := by
    intro v
    rw [← hlist v, List.count, List.countP_map, List.countP_eq_length_filter]
    rfl
  calc
    s.size = Multiset.card (s.edges.map end? : Multiset NodeId) := by
      rw [size_eq_length_edges hs, Multiset.coe_card, List.length_map]
    _ = ∑ v ∈ vs, Multiset.count v (s.edges.map end? : Multiset NodeId) := by
      refine (Multiset.sum_count_eq_card fun v hv => ?_).symm
      obtain ⟨e, he, rfl⟩ := List.mem_map.1 (Multiset.mem_coe.1 hv)
      exact hvs e he
    _ = ∑ v ∈ vs, (list v).length := by simp only [Multiset.coe_count, hcount]

/-- The parents of a vertex are those of its edges in the list of all edges. -/
theorem map_parent_filter_edges (hs : s.Coherent) (c : NodeId) :
    (s.edges.filter (·.child = c)).map Edge.parent = s.parents c := by
  rw [filter_edges, List.map_map, ← map_fst_parentEdges hs]
  rfl

/-- The children of a vertex are those of its edges in the list of all edges, in some
order. -/
theorem perm_map_child_filter_edges (hs : s.Coherent) (p : NodeId) :
    ((s.edges.filter (·.parent = p)).map Edge.child).Perm (s.children p) := by
  have hnodup : ((s.edges.filter (·.parent = p)).map Edge.child).Nodup := by
    unfold List.Nodup
    rw [List.pairwise_map, List.pairwise_filter]
    refine (pairwise_edges hs).imp ?_
    rintro d e (hlt | ⟨-, hne⟩) hd he
    · exact UInt64.ne_of_lt hlt
    · rw [of_decide_eq_true hd, of_decide_eq_true he] at hne
      exact absurd rfl hne
  refine (List.perm_ext_iff_of_nodup hnodup (hs.nodup_children p)).2 fun c => ?_
  rw [hs.mem_children_iff, leads_iff hs, List.mem_map]
  constructor
  · rintro ⟨e, he, rfl⟩
    obtain ⟨hmem, hp⟩ := List.mem_filter.1 he
    exact ⟨e.label, of_decide_eq_true hp ▸ mem_edges_iff.1 hmem⟩
  · rintro ⟨label, hmem⟩
    exact ⟨⟨c, p, label⟩, List.mem_filter.2 ⟨mem_edges_iff.2 hmem, decide_eq_true rfl⟩, rfl⟩

/-- The lists of a store hold its edges, each of them once. -/
structure ListsEdges (s : EdgeStore ε) : Prop where
  mem_parents_iff : ∀ c p, p ∈ s.parents c ↔ s.hasEdge c p = true
  mem_children_iff : ∀ c p, c ∈ s.children p ↔ s.hasEdge c p = true
  nodup_parents : ∀ c, (s.parents c).Nodup
  nodup_children : ∀ p, (s.children p).Nodup
  /-- No index keeps an empty list. -/
  not_empty : ∀ v, s.outgoing.get? v ≠ some [] ∧ s.incoming.get? v ≠ some []
  mem_edges_iff : ∀ e, e ∈ s.edges ↔ s.label? e.child e.parent = some e.label
  nodup_ends : (s.edges.map Edge.ends).Nodup
  edges_ascending : s.edges.Pairwise fun d e => d.child ≤ e.child
  edges_of_child : ∀ c, (s.edges.filter (·.child = c)).map Edge.parent = s.parents c
  size_eq_sum_parents : ∀ vs : Finset NodeId, (∀ c p, s.hasEdge c p = true → c ∈ vs) →
    s.size = ∑ c ∈ vs, (s.parents c).length
  size_eq_sum_children : ∀ vs : Finset NodeId, (∀ c p, s.hasEdge c p = true → p ∈ vs) →
    s.size = ∑ p ∈ vs, (s.children p).length

/-- Where the three maps agree, all lists of a store hold the same edges, each once. -/
theorem Coherent.listsEdges (hs : s.Coherent) : s.ListsEdges where
  mem_parents_iff := hs.mem_parents_iff
  mem_children_iff := hs.mem_children_iff
  nodup_parents := hs.nodup_parents
  nodup_children := hs.nodup_children
  not_empty v := ⟨hs.tidy_outgoing v, hs.tidy_incoming v⟩
  mem_edges_iff e := mem_edges_iff.trans (label?_eq_some_iff hs).symm
  nodup_ends := nodup_map_ends_edges hs
  edges_ascending := by
    refine (pairwise_edges hs).imp ?_
    rintro d e (hlt | ⟨heq, -⟩)
    · exact UInt64.le_of_lt hlt
    · exact heq ▸ UInt64.le_refl _
  edges_of_child := map_parent_filter_edges hs
  size_eq_sum_parents vs hvs := by
    refine size_eq_sum_of_filter hs Edge.child s.parents (fun c => ?_) fun e he =>
      hvs e.child e.parent (leads_of_mem_edges he)
    rw [← map_parent_filter_edges hs, List.length_map]
  size_eq_sum_children vs hvs := by
    refine size_eq_sum_of_filter hs Edge.parent s.children (fun p => ?_) fun e he =>
      hvs e.child e.parent (leads_of_mem_edges he)
    rw [← (perm_map_child_filter_edges hs p).length_eq, List.length_map]

/-! ## What a change answers and leaves alone -/

/-- Adding an edge answers the label that was there. -/
theorem add_fst (s : EdgeStore ε) (c p : NodeId) (label : ε) :
    (s.add c p label).1 = s.label? c p := by
  unfold add label?
  cases s.labels.get? ⟨c, p⟩ with
  | none => rfl
  | some old => rfl

/-- Removing an edge answers the label that was there. -/
theorem remove_fst (s : EdgeStore ε) (c p : NodeId) : (s.remove c p).1 = s.label? c p := by
  unfold remove label?
  cases s.labels.get? ⟨c, p⟩ with
  | none => rfl
  | some old => rfl

/-- A removal takes the parent out of the list of the child; all lists keep their order. -/
theorem parents_remove_eq_filter (hs : s.Coherent) (c p v : NodeId) :
    (s.remove c p).2.parents v = (s.parents v).filter fun q => ¬(v = c ∧ q = p) := by
  rw [parents_remove hs]
  by_cases hv : c = v
  · subst hv
    simp
  · rw [if_neg hv, List.filter_eq_self.2 fun q _ => by simp [Ne.symm hv]]

/-- A removal takes the child out of the list of the parent; all lists keep their order. -/
theorem children_remove_eq_filter (hs : s.Coherent) (c p v : NodeId) :
    (s.remove c p).2.children v = (s.children v).filter fun d => ¬(d = c ∧ v = p) := by
  rw [children_remove hs]
  by_cases hv : p = v
  · subst hv
    simp
  · rw [if_neg hv, List.filter_eq_self.2 fun d _ => by simp [Ne.symm hv]]

/-- What adding and removing an edge answer, and what they leave as it was. -/
structure ChangesOneEdge (s : EdgeStore ε) : Prop where
  add_answer : ∀ c p label, (s.add c p label).1 = s.label? c p
  remove_answer : ∀ c p, (s.remove c p).1 = s.label? c p
  /-- An edge that is there is replaced in place. -/
  add_in_place : ∀ c p label, s.hasEdge c p = true → ∀ v,
    (s.add c p label).2.parents v = s.parents v ∧ (s.add c p label).2.children v = s.children v
  remove_others : ∀ c p d q, ¬(c = d ∧ p = q) →
    (s.remove c p).2.label? d q = s.label? d q
  remove_parents : ∀ c p v,
    (s.remove c p).2.parents v = (s.parents v).filter fun q => ¬(v = c ∧ q = p)
  remove_children : ∀ c p v,
    (s.remove c p).2.children v = (s.children v).filter fun d => ¬(d = c ∧ v = p)
  remove_failing : ∀ c p, s.hasEdge c p = false → s.remove c p = (none, s)

/-- Where the three maps agree, adding and removing change the edge they are asked for and no
other. -/
theorem Coherent.changesOneEdge (hs : s.Coherent) : s.ChangesOneEdge where
  add_answer := add_fst s
  remove_answer := remove_fst s
  add_in_place c p label h v :=
    ⟨parents_insert_of_leads (e := ⟨c, p, label⟩) h v,
      children_insert_of_leads (e := ⟨c, p, label⟩) h v⟩
  remove_others c p d q h := (label?_remove s c p d q).trans (if_neg h)
  remove_parents := parents_remove_eq_filter hs
  remove_children := children_remove_eq_filter hs
  remove_failing _ _ h := remove_of_not_leads (hasEdge_eq_false_iff.1 h)

/-! ## Histories -/

/-- What a store keeps of its history. -/
structure Remembers (s : EdgeStore ε) (history : List (Change ε)) : Prop where
  label?_iff : ∀ c p label, s.label? c p = some label ↔ LastAdded history c p label
  /-- An edge that is there was brought in by the change after its last absence. -/
  added : ∀ c p, s.hasEdge c p = true →
    ∃ label, history[lastAbsence history c p]? = some (.add c p label)
  /-- The parents of a vertex are in the order in which the edges came. -/
  parents_order : ∀ c, (s.parents c).Pairwise fun p q =>
    lastAbsence history c p < lastAbsence history c q
  /-- So are the children of a vertex, if they have not been sorted since there were none. -/
  children_order : ∀ before later p, history = before ++ later → (after before).children p = [] →
    .sortChildren p ∉ later → (s.children p).Pairwise fun c d =>
      lastAbsence history c p < lastAbsence history d p

/-- A store remembers its history: the labels by the last word, the lists by the order in which
the edges came. -/
theorem remembers_after (history : List (Change ε)) : (after history).Remembers history where
  label?_iff := label?_after_eq_some_iff history
  added _ _ := exists_add_at_lastAbsence
  parents_order c := by
    have hpairs := inOrder_parents history c
    rwa [InOrder, List.pairwise_map] at hpairs
  children_order := by
    rintro before later p rfl hnone hsort
    have hpairs := inOrder_children hnone hsort
    rwa [InOrder, List.pairwise_map] at hpairs

/-- After any history of changes, a store knows each edge by the label with which it was last
added; both lists, the list of all edges and the count hold the same edges, in the order in
which they came; and the next change answers what was there and touches only its edge. -/
theorem after_represents (history : List (Change ε)) :
    (after history).Remembers history ∧ (after history).ListsEdges ∧
      (after history).ChangesOneEdge :=
  ⟨remembers_after history, (coherent_after history).listsEdges,
    (coherent_after history).changesOneEdge⟩

/-- An edge that is relabelled keeps its place, one that is added again comes last. -/
example :
    (after [.add 2 1 "a", .add 2 3 "b", .add 2 4 "c", .remove 2 1, .add 2 3 "d",
      .add 2 1 "e"]).parentEdges 2 = [(3, "d"), (4, "c"), (1, "e")] := by decide

end EdgeStore

end QueryGraph
