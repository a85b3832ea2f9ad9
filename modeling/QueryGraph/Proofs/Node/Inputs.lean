import Mathlib.Data.List.Flatten
import Mathlib.Data.List.Nodup
import QueryGraph.Plan.Basic

/-!
# The inputs of a node and the links of a tree

A node has at most one input of each edge type.  Seen through the list of its
inputs, a tree needs no distinction between operators with one and with two
slots: whatever is gathered from a tree is gathered from a node and then from its
inputs in order.

Main definitions:

- {lit}`PlanNode.inputs`: the trees in the slots of a node, with their edge types.
- {lit}`PlanNode.subtrees`: all nodes of a tree with what is below them.
- {lit}`PlanNode.ids`: the identifiers of a tree.
- {lit}`PlanNode.links`: the edges of a tree.

Main results:

- {lit}`PlanNode.induct_inputs`: induction on trees, input by input.
- {lit}`PlanNode.ids_eq_cons_links`: every node but the top one is the child of one
  link.
- {lit}`PlanNode.mem_links_iff`: the links are what the slots hold.
- {lit}`PlanNode.filter_links_parent`: the links to one node are its inputs.
-/

namespace QueryGraph

/-- Where only one item of a list holds a mark, only that item contributes to what
is gathered for the mark. -/
theorem flatMap_eq_of_nodup {α β γ : Type} {list : List α} {f : α → List β}
    {marks : α → List γ} (hnodup : (list.flatMap marks).Nodup) {x : γ} {j : α} (hj : j ∈ list)
    (hx : x ∈ marks j) (hother : ∀ i ∈ list, x ∉ marks i → f i = []) :
    list.flatMap f = f j := by
  induction list with
  | nil => simp at hj
  | cons i list ih =>
    rw [List.flatMap_cons, List.nodup_append'] at hnodup
    rcases hnodup with ⟨_, hrest, hdisjoint⟩
    rw [List.flatMap_cons]
    rcases List.mem_cons.1 hj with rfl | hj
    · have hnone : list.flatMap f = [] := by
        rw [List.flatMap_eq_nil_iff]
        intro k hk
        apply hother k (List.mem_cons_of_mem _ hk)
        intro hxk
        exact hdisjoint hx (List.mem_flatMap.2 ⟨k, hk, hxk⟩)
      rw [hnone, List.append_nil]
    · have hxi : x ∉ marks i := fun hxi =>
        hdisjoint hxi (List.mem_flatMap.2 ⟨j, hj, hx⟩)
      rw [hother i List.mem_cons_self hxi, List.nil_append]
      exact ih hrest hj fun k hk => hother k (List.mem_cons_of_mem _ hk)

namespace PlanNode

/-- The trees in the slots of a node in order, with the types of their edges. -/
def inputs : PlanNode → List (EdgeType × PlanNode)
  | .leaf .. => []
  | .unary _ _ _ child => child.toList.map (EdgeType.single, ·)
  | .binary _ _ _ left right =>
    left.toList.map (EdgeType.left, ·) ++ right.toList.map (EdgeType.right, ·)

/-- Induction on trees: a node has a property if all its inputs have it. -/
theorem induct_inputs {motive : PlanNode → Prop}
    (node : ∀ n, (∀ i ∈ n.inputs, motive i.2) → motive n) (n : PlanNode) : motive n := by
  induction n with
  | leaf i s op => exact node _ (by simp [inputs])
  | unary i s op child ih =>
    apply node
    cases child with
    | none => simp [inputs]
    | some c => simpa [inputs] using ih c rfl
  | binary i s op left right ihl ihr =>
    apply node
    rintro ⟨type, c⟩ hc
    rcases List.mem_append.1 hc with hc | hc
    · rcases List.mem_map.1 hc with ⟨l, hl, heq⟩
      cases heq
      exact ihl c (Option.mem_toList.1 hl)
    · rcases List.mem_map.1 hc with ⟨r, hr, heq⟩
      cases heq
      exact ihr c (Option.mem_toList.1 hr)

/-- A node has at most one input of each type. -/
theorem nodup_types (n : PlanNode) : (n.inputs.map Prod.fst).Nodup := by
  cases n with
  | leaf => exact List.nodup_nil
  | unary i s op child => cases child <;> simp [inputs]
  | binary i s op left right => cases left <;> cases right <;> simp [inputs]

/-! ## What is gathered from a tree -/

/-- All nodes of a tree with what is below them, parents first. -/
def subtrees : PlanNode → List PlanNode
  | n@(.leaf ..) => [n]
  | n@(.unary _ _ _ child) =>
    n ::
      match child with
      | none => []
      | some c => c.subtrees
  | n@(.binary _ _ _ left right) =>
    n ::
      ((match left with
        | none => []
        | some c => c.subtrees) ++
      (match right with
        | none => []
        | some c => c.subtrees))

/-- The edges of a tree, those to a node before those below its inputs. -/
def links : PlanNode → List (Edge EdgeType)
  | .leaf .. => []
  | .unary i _ _ child =>
    match child with
    | none => []
    | some c => ⟨c.id, i, .single⟩ :: c.links
  | .binary i _ _ left right =>
    (match left with
      | none => []
      | some c => ⟨c.id, i, .left⟩ :: c.links) ++
    (match right with
      | none => []
      | some c => ⟨c.id, i, .right⟩ :: c.links)

/-- The identifiers of the nodes of a tree, parents first. -/
def ids (n : PlanNode) : List NodeId :=
  n.preorder.map id

/-- The nodes of a tree are its top and those of its inputs, in this order. -/
theorem subtrees_eq (n : PlanNode) :
    n.subtrees = n :: n.inputs.flatMap fun i => i.2.subtrees := by
  cases n with
  | leaf => rfl
  | unary i s op child => cases child <;> simp [subtrees, inputs]
  | binary i s op left right => cases left <;> cases right <;> simp [subtrees, inputs]

/-- Taken apart, the top comes first, alone, and then its inputs. -/
theorem preorder_eq (n : PlanNode) :
    n.preorder = n.detached :: n.inputs.flatMap fun i => i.2.preorder := by
  cases n with
  | leaf => rfl
  | unary i s op child => cases child <;> simp [preorder, inputs, detached]
  | binary i s op left right =>
    cases left <;> cases right <;> simp [preorder, inputs, detached]

/-- Each input gives a link to the top, and then its own links. -/
theorem links_eq (n : PlanNode) :
    n.links = n.inputs.flatMap fun i => ⟨i.2.id, n.id, i.1⟩ :: i.2.links := by
  cases n with
  | leaf => rfl
  | unary i s op child => cases child <;> simp [links, inputs, id]
  | binary i s op left right => cases left <;> cases right <;> simp [links, inputs, id]

/-- The identifier of the top comes first. -/
theorem ids_eq (n : PlanNode) : n.ids = n.id :: n.inputs.flatMap fun i => i.2.ids := by
  unfold ids
  rw [preorder_eq, List.map_cons, id_detached, List.map_flatMap]

/-- The nodes of a tree alone are its nodes without what is below them. -/
theorem preorder_eq_map_detached (n : PlanNode) : n.preorder = n.subtrees.map detached := by
  induction n using induct_inputs with
  | node n ih =>
    rw [preorder_eq, subtrees_eq, List.map_cons, List.map_flatMap]
    congr 1
    exact List.flatMap_congr ih

theorem self_mem_subtrees (n : PlanNode) : n ∈ n.subtrees := by
  rw [subtrees_eq]
  exact List.mem_cons_self

/-- A node of a tree is the top or a node of an input. -/
theorem mem_subtrees_iff {n t : PlanNode} :
    n ∈ t.subtrees ↔ n = t ∨ ∃ i ∈ t.inputs, n ∈ i.2.subtrees := by
  rw [subtrees_eq, List.mem_cons, List.mem_flatMap]

theorem mem_ids_iff {t : PlanNode} {i : NodeId} : i ∈ t.ids ↔ ∃ n ∈ t.subtrees, n.id = i := by
  unfold ids
  rw [preorder_eq_map_detached, List.map_map, List.mem_map]
  simp only [Function.comp_apply, id_detached]

/-- There is one identifier for each node, in the same order. -/
theorem ids_eq_map_subtrees (t : PlanNode) : t.ids = t.subtrees.map id := by
  unfold ids
  rw [preorder_eq_map_detached, List.map_map]
  exact List.map_congr_left fun n _ => id_detached n

theorem id_mem_ids {n t : PlanNode} (h : n ∈ t.subtrees) : n.id ∈ t.ids :=
  mem_ids_iff.2 ⟨n, h, rfl⟩

theorem root_id_mem_ids (t : PlanNode) : t.id ∈ t.ids :=
  id_mem_ids t.self_mem_subtrees

/-- The nodes taken apart are the nodes of the tree without their inputs. -/
theorem mem_preorder_iff {m t : PlanNode} :
    m ∈ t.preorder ↔ ∃ n ∈ t.subtrees, n.detached = m := by
  rw [preorder_eq_map_detached, List.mem_map]

/-- A node of a tree has its inputs in the tree. -/
theorem input_mem_subtrees {n t : PlanNode} (hn : n ∈ t.subtrees) {i : EdgeType × PlanNode}
    (hi : i ∈ n.inputs) : i.2 ∈ t.subtrees := by
  induction t using induct_inputs with
  | node t ih =>
    rcases mem_subtrees_iff.1 hn with rfl | ⟨j, hj, hn⟩
    · exact mem_subtrees_iff.2 (Or.inr ⟨i, hi, self_mem_subtrees i.2⟩)
    · exact mem_subtrees_iff.2 (Or.inr ⟨j, hj, ih j hj hn⟩)

/-- An input has fewer nodes than what it is an input of. -/
theorem length_subtrees_input_lt {n : PlanNode} {i : EdgeType × PlanNode} (hi : i ∈ n.inputs) :
    i.2.subtrees.length < n.subtrees.length := by
  have hsublist : (i.2.subtrees).Sublist (n.inputs.flatMap fun i => i.2.subtrees) :=
    List.sublist_flatten_of_mem (List.mem_map_of_mem (f := fun i => i.2.subtrees) hi)
  rw [subtrees_eq n, List.length_cons]
  exact Nat.lt_succ_of_le hsublist.length_le

/-- Where no identifier is used twice, it stands for one node. -/
theorem eq_of_id_eq {t : PlanNode} (hnodup : t.ids.Nodup) {m n : PlanNode} (hm : m ∈ t.subtrees)
    (hn : n ∈ t.subtrees) (h : m.id = n.id) : m = n := by
  rw [ids_eq_map_subtrees] at hnodup
  exact List.inj_on_of_nodup_map hnodup hm hn h

/-! ## Links -/

/-- Every node but the top one is the child of one link, in the same order. -/
theorem ids_eq_cons_links (n : PlanNode) : n.ids = n.id :: n.links.map Edge.child := by
  induction n using induct_inputs with
  | node n ih =>
    rw [ids_eq, links_eq, List.map_flatMap]
    congr 1
    apply List.flatMap_congr
    intro i hi
    rw [List.map_cons, ← ih i hi]

/-- The links of a tree are what the slots of its nodes hold. -/
theorem mem_links_iff {t : PlanNode} {e : Edge EdgeType} :
    e ∈ t.links ↔
      ∃ n ∈ t.subtrees, ∃ i ∈ n.inputs, e = ⟨i.2.id, n.id, i.1⟩ := by
  induction t using induct_inputs with
  | node t ih =>
    rw [links_eq, List.mem_flatMap]
    constructor
    · rintro ⟨j, hj, he⟩
      rcases List.mem_cons.1 he with rfl | he
      · exact ⟨t, self_mem_subtrees t, j, hj, rfl⟩
      · rcases (ih j hj).1 he with ⟨n, hn, i, hi, rfl⟩
        exact ⟨n, mem_subtrees_iff.2 (Or.inr ⟨j, hj, hn⟩), i, hi, rfl⟩
    · rintro ⟨n, hn, i, hi, rfl⟩
      rcases mem_subtrees_iff.1 hn with rfl | ⟨j, hj, hn⟩
      · exact ⟨i, hi, List.mem_cons_self⟩
      · exact ⟨j, hj, List.mem_cons_of_mem _ ((ih j hj).2 ⟨n, hn, i, hi, rfl⟩)⟩

/-- Links lead up to nodes of the tree. -/
theorem parent_mem_ids {t : PlanNode} {e : Edge EdgeType} (h : e ∈ t.links) :
    e.parent ∈ t.ids := by
  rcases mem_links_iff.1 h with ⟨n, hn, i, hi, rfl⟩
  exact id_mem_ids hn

/-- Links start at nodes of the tree. -/
theorem child_mem_ids {t : PlanNode} {e : Edge EdgeType} (h : e ∈ t.links) :
    e.child ∈ t.ids := by
  rw [ids_eq_cons_links]
  exact List.mem_cons_of_mem _ (List.mem_map_of_mem h)

theorem filter_links_eq_nil {t : PlanNode} {i : NodeId} (h : i ∉ t.ids) :
    t.links.filter (·.parent = i) = [] := by
  rw [List.filter_eq_nil_iff]
  intro e he
  rw [decide_eq_true_eq]
  rintro rfl
  exact h (parent_mem_ids he)

/-- Where no identifier is used twice, the links to one node are its inputs. -/
theorem filter_links_parent {t : PlanNode} (hnodup : t.ids.Nodup) {n : PlanNode}
    (hn : n ∈ t.subtrees) :
    t.links.filter (·.parent = n.id) = n.inputs.map fun i => ⟨i.2.id, n.id, i.1⟩ := by
  induction t using induct_inputs with
  | node t ih =>
    rw [ids_eq, List.nodup_cons] at hnodup
    rcases hnodup with ⟨htop, hnodup⟩
    have hbelow : ∀ i ∈ t.inputs, i.2.ids.Nodup := (List.nodup_flatMap.1 hnodup).1
    rw [links_eq, List.filter_flatMap]
    rcases mem_subtrees_iff.1 hn with rfl | ⟨j, hj, hn⟩
    · -- No link below an input leads to the top.
      have htopLinks : ∀ i ∈ n.inputs, List.filter (fun e : Edge EdgeType => e.parent = n.id)
          (⟨i.2.id, n.id, i.1⟩ :: i.2.links) = [⟨i.2.id, n.id, i.1⟩] := by
        intro i hi
        have hnot : n.id ∉ i.2.ids := fun hmem => htop (List.mem_flatMap.2 ⟨i, hi, hmem⟩)
        rw [List.filter_cons_of_pos (by simp), filter_links_eq_nil hnot]
      rw [List.flatMap_congr htopLinks, List.map_eq_flatMap]
    · -- All links to the node are below one input.
      have hne : t.id ≠ n.id := fun heq =>
        htop (List.mem_flatMap.2 ⟨j, hj, heq ▸ id_mem_ids hn⟩)
      have hdrop : ∀ i ∈ t.inputs, List.filter (fun e : Edge EdgeType => e.parent = n.id)
          (⟨i.2.id, t.id, i.1⟩ :: i.2.links) = i.2.links.filter (·.parent = n.id) := by
        intro i _
        rw [List.filter_cons_of_neg (by simpa using hne)]
      rw [List.flatMap_congr hdrop,
        flatMap_eq_of_nodup hnodup hj (id_mem_ids hn) fun i _ hnot => filter_links_eq_nil hnot]
      exact ih j hj (hbelow j hj) hn

end PlanNode

end QueryGraph
