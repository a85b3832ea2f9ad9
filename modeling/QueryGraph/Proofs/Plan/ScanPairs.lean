import Mathlib.Data.List.Forall2
import Mathlib.Data.List.Perm.Basic
import QueryGraph.Plan.InputScans
import QueryGraph.Proofs.Node.SameTree

/-!
# Pairing nodes by content

Taking the first partner that is left finds a pairing whenever there is one.  Whatever the
partner, it has the same content as all the others that could have been taken, so the rest
still has as many nodes of every content on both sides.  Taking a partner out changes the
order of the others, but not what is left.

Main definitions:

- {lit}`InputScans.Paired`: the nodes of two lists can be paired by content.

Main results:

- {lit}`perm_swapRemove`: an item is taken out and all others are kept.
- {lit}`InputScans.pairsUp_cons`: what is done with one node.
- {lit}`InputScans.pairsUp_of_countP_eq`: nodes are paired up if both sides have as many of
  every content.
- {lit}`InputScans.sameContent_iff_paired`: scans have the same content if and only if their
  nodes can be paired.
- {lit}`InputScans.Paired.symm`, {lit}`InputScans.Paired.trans`: pairing is symmetric and
  transitive.
-/

namespace QueryGraph

/-- Taking out an item keeps all others, in some order. -/
theorem perm_swapRemove {α : Type} {items : List α} {index : Nat} (h : index < items.length) :
    (items[index] :: swapRemove items index).Perm items := by
  obtain ⟨front, last, rfl⟩ : ∃ front last, items = front ++ [last] :=
    List.eq_nil_or_concat' items |>.resolve_left (List.ne_nil_of_length_pos (by omega))
  have hswap : swapRemove (front ++ [last]) index =
      ((front ++ [last]).set index last).dropLast := by
    rw [swapRemove, List.getLast?_concat]
  rw [hswap]
  by_cases hfront : index < front.length
  · rw [List.set_append_left _ _ hfront, List.dropLast_concat, List.getElem_append_left hfront]
    calc
      (front[index] :: front.set index last).Perm
          (front[index] :: last :: front.eraseIdx index) :=
        (List.set_perm_cons_eraseIdx hfront last).cons _
      _ |>.Perm (last :: front[index] :: front.eraseIdx index) := List.Perm.swap _ _ _
      _ |>.Perm (last :: front) := (List.getElem_cons_eraseIdx_perm hfront).cons _
      _ |>.Perm (front ++ [last]) := (List.perm_append_singleton last front).symm
  · -- The last item itself is taken.
    have hlast : index = front.length := by
      rw [List.length_append, List.length_singleton] at h
      omega
    subst hlast
    simpa using (List.perm_append_singleton last front).symm

namespace PlanNode

/-- Nodes of the same content match the same nodes. -/
theorem sameContent_congr {a b : PlanNode} (h : a.sameContent b = true) (x : PlanNode) :
    a.sameContent x = b.sameContent x := by
  have hback : b.sameContent a = true := by
    rw [sameContent_comm]
    exact h
  rw [Bool.eq_iff_iff]
  exact ⟨sameContent_trans hback, sameContent_trans h⟩

/-- What has the same content as anything has the same content as itself. -/
theorem sameContent_self_of_sameContent {a b : PlanNode} (h : a.sameContent b = true) :
    a.sameContent a = true := by
  rw [sameContent_congr h, sameContent_comm]
  exact h

end PlanNode

namespace InputScans

variable {as bs cs : List PlanNode}

/-- Nodes that match some node match themselves. -/
theorem sameContent_self_of_forall₂
    (h : List.Forall₂ (fun a b => a.sameContent b = true) as bs) :
    ∀ a ∈ as, a.sameContent a = true := by
  induction h with
  | nil => simp
  | cons hab _ ih =>
    rw [List.forall_mem_cons]
    exact ⟨PlanNode.sameContent_self_of_sameContent hab, ih⟩

/-- Lists that agree item by item have as many nodes of every content. -/
theorem countP_eq_of_forall₂ (h : List.Forall₂ (fun a b => a.sameContent b = true) as bs)
    (x : PlanNode) : as.countP (·.sameContent x) = bs.countP (·.sameContent x) := by
  induction h with
  | nil => rfl
  | cons hab _ ih => simp [List.countP_cons, ih, PlanNode.sameContent_congr hab x]

/-- A node takes a partner out of the others if there is one, and the rest are paired. -/
theorem pairsUp_cons (a : PlanNode) (as bs : List PlanNode) :
    (∃ b rest, b.sameContent a = true ∧ (b :: rest).Perm bs
      ∧ pairsUp (a :: as) bs = pairsUp as rest) ∨
    ((∀ b ∈ bs, b.sameContent a = false) ∧ pairsUp (a :: as) bs = false) := by
  rw [pairsUp]
  cases hfind : bs.findIdx? (·.sameContent a) with
  | none => exact Or.inr ⟨List.findIdx?_eq_none_iff.1 hfind, rfl⟩
  | some index =>
    obtain ⟨hindex, hsame, -⟩ := List.findIdx?_eq_some_iff_getElem.1 hfind
    exact Or.inl ⟨bs[index], swapRemove bs index, hsame, perm_swapRemove hindex, rfl⟩

/-- Nodes that equal themselves are paired up if there are as many of every content on the
other side. -/
theorem pairsUp_of_countP_eq (hself : ∀ a ∈ as, a.sameContent a = true)
    (hcount : ∀ x : PlanNode, as.countP (·.sameContent x) = bs.countP (·.sameContent x)) :
    pairsUp as bs = true := by
  induction as generalizing bs with
  | nil => rfl
  | cons a as ih =>
    have ha : a.sameContent a = true := hself a List.mem_cons_self
    rcases pairsUp_cons a as bs with ⟨b, rest, hba, hperm, hstep⟩ | ⟨hnone, -⟩
    · rw [hstep]
      refine ih (fun d hd => hself d (List.mem_cons_of_mem a hd)) fun x => ?_
      -- The partner that is taken counts for the same contents as the node.
      have hx := hcount x
      rw [← hperm.countP_eq, List.countP_cons, List.countP_cons,
        PlanNode.sameContent_congr hba x] at hx
      exact Nat.add_right_cancel hx
    · have hpos : 0 < bs.countP (·.sameContent a) := by
        rw [← hcount a]
        exact List.countP_pos_iff.2 ⟨a, List.mem_cons_self, ha⟩
      obtain ⟨c, hc, hca⟩ := List.countP_pos_iff.1 hpos
      rw [hnone c hc] at hca
      cases hca

/-- Whether the nodes of two lists can be paired: there is an order of the others in which
they agree one by one. -/
def Paired (as bs : List PlanNode) : Prop :=
  ∃ cs, List.Forall₂ (fun a c => a.sameContent c = true) as cs ∧ cs.Perm bs

/-- Nodes that can be paired are as many on both sides. -/
theorem Paired.length_eq (h : Paired as bs) : as.length = bs.length := by
  obtain ⟨cs, hagree, hperm⟩ := h
  exact hagree.length_eq.trans hperm.length_eq

/-- Where nodes are paired up and none is left, they can be paired. -/
theorem paired_of_pairsUp (hlength : as.length = bs.length) (h : pairsUp as bs = true) :
    Paired as bs := by
  induction as generalizing bs with
  | nil =>
    obtain rfl : bs = [] := List.eq_nil_of_length_eq_zero hlength.symm
    exact ⟨[], .nil, List.Perm.refl []⟩
  | cons a as ih =>
    rcases pairsUp_cons a as bs with ⟨b, rest, hba, hperm, hstep⟩ | ⟨-, hfails⟩
    · have hlengths : as.length = rest.length :=
        Nat.succ.inj (hlength.trans hperm.length_eq.symm)
      obtain ⟨cs, hagree, hrest⟩ := ih hlengths (hstep.symm.trans h)
      have hab : a.sameContent b = true := (PlanNode.sameContent_comm a b).trans hba
      exact ⟨b :: cs, .cons hab hagree, (hrest.cons b).trans hperm⟩
    · rw [hfails] at h
      cases h

/-- If the nodes can be paired at all, taking the first match each time pairs them. -/
theorem pairsUp_of_paired (h : Paired as bs) : pairsUp as bs = true := by
  obtain ⟨cs, hagree, hperm⟩ := h
  refine pairsUp_of_countP_eq (sameContent_self_of_forall₂ hagree) fun x => ?_
  rw [countP_eq_of_forall₂ hagree x, hperm.countP_eq]

/-- There are as many nodes as scans. -/
theorem length_nodes (s : InputScans) : s.nodes.length = s.size :=
  List.length_map _

/-- Scans have the same content if and only if their nodes can be paired. -/
theorem sameContent_iff_paired {s t : InputScans} :
    s.sameContent t = true ↔ Paired s.nodes t.nodes := by
  unfold sameContent
  rw [Bool.and_eq_true, beq_iff_eq, ← length_nodes, ← length_nodes]
  exact ⟨fun h => paired_of_pairsUp h.1 h.2, fun h => ⟨h.length_eq, pairsUp_of_paired h⟩⟩

theorem Paired.refl (h : ∀ a ∈ as, a.sameContent a = true) : Paired as as :=
  ⟨as, List.forall₂_same.2 h, List.Perm.refl as⟩

theorem Paired.symm (h : Paired as bs) : Paired bs as := by
  obtain ⟨cs, hagree, hperm⟩ := h
  have hback : List.Forall₂ (fun c a => c.sameContent a = true) cs as :=
    hagree.flip.imp fun c a hac => (PlanNode.sameContent_comm c a).trans hac
  exact List.perm_comp_forall₂ hperm.symm hback

theorem Paired.trans (h : Paired as bs) (h' : Paired bs cs) : Paired as cs := by
  obtain ⟨bs', hagree, hperm⟩ := h
  obtain ⟨cs', hagree', hperm'⟩ := h'
  obtain ⟨ds, hmiddle, hperm''⟩ := List.perm_comp_forall₂ hperm hagree'
  have hends := agreesAll_trans (agreesAll_eq_true_iff.2 hagree) (agreesAll_eq_true_iff.2 hmiddle)
    fun _ _ _ => PlanNode.sameContent_trans
  exact ⟨ds, agreesAll_eq_true_iff.1 hends, hperm''.trans hperm'⟩

end InputScans

end QueryGraph
