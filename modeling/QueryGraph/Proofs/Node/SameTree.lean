import Mathlib.Data.List.Forall2
import QueryGraph.Node.Content
import QueryGraph.Proofs.Node.Inputs

/-!
# Trees with the same content

Trees are compared slot by slot.  Seen through their inputs, two trees have the same content
if their top nodes have, and their inputs agree one by one in edge type and content.  So
their nodes, taken parents first, agree one by one.

Main results:

- {lit}`agreesAll_eq_true_iff`: agreement of lists, item by item.
- {lit}`PlanNode.sameTree_eq`: comparing trees input by input.
- {lit}`PlanNode.forall₂_preorder`: the nodes of trees with the same content agree.
- {lit}`PlanNode.kind_eq_of_sameContent`: what has the same content is of the same kind.
-/

namespace QueryGraph

/-! ## Agreement of lists -/

section Agreement

variable {α β : Type}

/-- Lists agree if they do item by item. -/
theorem agreesAll_eq_true_iff {same : α → α → Bool} {as bs : List α} :
    agreesAll same as bs = true ↔ List.Forall₂ (fun a b => same a b = true) as bs := by
  induction as generalizing bs with
  | nil => cases bs <;> simp [agreesAll]
  | cons a as ih =>
    cases bs with
    | nil => simp [agreesAll]
    | cons b bs => simp [agreesAll, ih]

/-- To compare mapped lists is to compare the items by what they are mapped to. -/
theorem agreesAll_map (same : β → β → Bool) (f g : α → β) (as bs : List α) :
    agreesAll same (as.map f) (bs.map g) = agreesAll (fun a b => same (f a) (g b)) as bs := by
  induction as generalizing bs with
  | nil => cases bs <;> rfl
  | cons a as ih =>
    cases bs with
    | nil => rfl
    | cons b bs => simp [agreesAll, ih]

/-- Agreement depends on how the items of the two lists compare, and on nothing else. -/
theorem agreesAll_congr {same same' : α → α → Bool} {as bs : List α}
    (h : ∀ a ∈ as, ∀ b ∈ bs, same a b = same' a b) :
    agreesAll same as bs = agreesAll same' as bs := by
  induction as generalizing bs with
  | nil => cases bs <;> rfl
  | cons a as ih =>
    cases bs with
    | nil => rfl
    | cons b bs =>
      have hhead : same a b = same' a b := h a List.mem_cons_self b List.mem_cons_self
      have hrest := ih fun c hc d hd =>
        h c (List.mem_cons_of_mem a hc) d (List.mem_cons_of_mem b hd)
      simp [agreesAll, hhead, hrest]

end Agreement

namespace PlanNode

variable {n m : PlanNode}

/-- Trees are compared at the top and then input by input. -/
theorem sameTree_eq (n m : PlanNode) :
    n.sameTree m =
      (n.sameContent m &&
        agreesAll (fun i j => i.1 == j.1 && i.2.sameTree j.2) n.inputs m.inputs) := by
  cases n with
  | leaf i s op =>
    cases m <;> simp [sameTree, sameContent_eq, sameOperator, schema, inputs, agreesAll]
  | unary i s op child =>
    cases m with
    | unary j s' op' child' =>
      cases child <;> cases child' <;>
        simp [sameTree, sameContent_eq, sameOperator, schema, inputs, agreesAll]
    | _ => simp [sameTree, sameContent_eq, sameOperator]
  | binary i s op left right =>
    cases m with
    | binary j s' op' left' right' =>
      cases left <;> cases left' <;> cases right <;> cases right' <;>
        simp [sameTree, sameContent_eq, sameOperator, schema, inputs, agreesAll, Bool.and_assoc]
    | _ => simp [sameTree, sameContent_eq, sameOperator]

/-- Nodes with the same content are of the same kind. -/
theorem kind_eq_of_sameContent (h : n.sameContent m = true) : n.kind = m.kind := by
  rw [sameContent_eq, Bool.and_eq_true] at h
  exact kind_eq_of_sameOperator h.2

/-- The nodes of trees with the same content agree one by one. -/
theorem forall₂_preorder (h : n.sameTree m = true) :
    List.Forall₂ (fun a b => a.sameContent b = true) n.preorder m.preorder := by
  induction n using induct_inputs generalizing m with
  | node n ih =>
    rw [sameTree_eq, Bool.and_eq_true] at h
    have htop : n.detached.sameContent m.detached = true := by
      rw [sameContent_detached]
      exact h.1
    have hinputs : List.Forall₂ (fun i j => List.Forall₂ (fun a b => a.sameContent b = true)
        i.2.preorder j.2.preorder) n.inputs m.inputs := by
      have hagree := agreesAll_eq_true_iff.1 h.2
      rw [List.forall₂_iff_zip] at hagree ⊢
      refine ⟨hagree.1, fun {i j} hij => ?_⟩
      have hsame := hagree.2 hij
      rw [Bool.and_eq_true] at hsame
      exact ih i (List.of_mem_zip hij).1 hsame.2
    rw [preorder_eq n, preorder_eq m]
    exact .cons htop (List.rel_flatMap hinputs fun _ _ hpreorder => hpreorder)

end PlanNode

end QueryGraph
