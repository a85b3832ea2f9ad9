import QueryGraph.Plan.Lowering
import QueryGraph.Proofs.Node.ChildViews
import QueryGraph.Proofs.Node.Inputs

/-!
# The first node that cannot become a vertex

Walking a tree goes through its nodes one by one, parents first, and stops at the
first that is a root or whose identifier is taken.  A walk that comes to its end
has made every node a vertex and every slot that is in use an edge.

Main definitions:

- {lit}`PlanNode.clash?`: why a node cannot follow others into the graph.
- {lit}`firstClash`: the first such node of a list.
- {lit}`PlanNode.Lowerable`: a tree without a root inside, whose identifiers differ
  and are free.

Main results:

- {lit}`PlanNode.walk_eq_detachChildren`: a walk goes on with what it took out of the slots.
- {lit}`PlanNode.walk_eq_firstClash`: what a walk comes to.
- {lit}`firstClash_eq_none_iff`, {lit}`firstClash_eq_some_iff`: where a walk stops.
-/

namespace QueryGraph

variable {inUse : NodeId → Bool} {before nodes : List PlanNode}

/-- Why a node cannot become a vertex after others of its fragment, if it
cannot. -/
def PlanNode.clash? (inUse : NodeId → Bool) (before : List PlanNode) (n : PlanNode) :
    Option LoweringCause :=
  if n.kind = .root then some .nestedRoot
  else if inUse n.id || before.any (·.id = n.id) then some .usedIdentifier
  else none

/-- Whether a node can become a vertex does not depend on its inputs. -/
@[simp] theorem PlanNode.clash?_detached (n : PlanNode) :
    n.detached.clash? inUse before = n.clash? inUse before := by
  unfold clash?
  rw [kind_detached, id_detached]

/-- A node can become a vertex if it is no root and its identifier is free. -/
theorem PlanNode.clash?_eq_none_iff {n : PlanNode} :
    n.clash? inUse before = none ↔
      n.kind ≠ .root ∧ inUse n.id = false ∧ n.id ∉ before.map PlanNode.id := by
  unfold clash?
  by_cases hkind : n.kind = .root
  · simp [hkind]
  · simp [hkind]

/-- The first node of a list that cannot become a vertex after the others, as the
failure of a walk that comes to it. -/
def firstClash (inUse : NodeId → Bool) : List PlanNode → List PlanNode → Option LoweringFailure
  | _, [] => none
  | before, n :: rest =>
    match n.clash? inUse before with
    | some cause => some ⟨before, n.kind, n.id, cause⟩
    | none => firstClash inUse (before ++ [n]) rest

/-- The search goes through the first nodes, and only then through the others. -/
theorem firstClash_append (xs ys : List PlanNode) :
    firstClash inUse before (xs ++ ys) =
      match firstClash inUse before xs with
      | some failure => some failure
      | none => firstClash inUse (before ++ xs) ys := by
  induction xs generalizing before with
  | nil => simp [firstClash]
  | cons n xs ih =>
    rw [List.cons_append, firstClash, firstClash]
    cases n.clash? inUse before with
    | some cause => rfl
    | none => simp [ih]

/-- The search stops at a node that cannot become a vertex while all before it
can. -/
theorem firstClash_eq_some_iff {failure : LoweringFailure} :
    firstClash inUse before nodes = some failure ↔
      ∃ front n back cause, nodes = front ++ n :: back ∧
        n.clash? inUse (before ++ front) = some cause ∧
        firstClash inUse before front = none ∧
        failure = ⟨before ++ front, n.kind, n.id, cause⟩ := by
  induction nodes generalizing before with
  | nil => simp [firstClash]
  | cons m nodes ih =>
    rw [firstClash]
    constructor
    · intro h
      cases hm : m.clash? inUse before with
      | some cause =>
        rw [hm] at h
        refine ⟨[], m, nodes, cause, rfl, ?_, rfl, ?_⟩
        · rw [List.append_nil, hm]
        · rw [List.append_nil]
          exact (Option.some.inj h).symm
      | none =>
        rw [hm] at h
        rcases ih.1 h with ⟨front, n, back, cause, rfl, hn, hfront, rfl⟩
        rw [List.append_assoc] at hn
        refine ⟨m :: front, n, back, cause, rfl, hn, ?_, by simp⟩
        rw [firstClash, hm]
        exact hfront
    · rintro ⟨front, n, back, cause, heq, hn, hfront, rfl⟩
      cases front with
      | nil =>
        rw [List.nil_append, List.cons.injEq] at heq
        rcases heq with ⟨rfl, rfl⟩
        rw [List.append_nil] at hn
        simp [hn]
      | cons k front =>
        rw [List.cons_append, List.cons.injEq] at heq
        rcases heq with ⟨rfl, rfl⟩
        rw [firstClash] at hfront
        cases hm : m.clash? inUse before with
        | some cause =>
          rw [hm] at hfront
          contradiction
        | none =>
          rw [hm] at hfront
          refine ih.2 ⟨front, n, back, cause, rfl, ?_, hfront, by simp⟩
          rw [List.append_assoc]
          exact hn

/-- Nothing stops the search if there is no root, and no identifier is used or comes twice. -/
theorem firstClash_eq_none_iff :
    firstClash inUse before nodes = none ↔
      (∀ n ∈ nodes, n.kind ≠ .root ∧ inUse n.id = false ∧ n.id ∉ before.map PlanNode.id) ∧
        (nodes.map PlanNode.id).Nodup := by
  induction nodes generalizing before with
  | nil => simp [firstClash]
  | cons m nodes ih =>
    rw [firstClash]
    cases hm : m.clash? inUse before with
    | some cause =>
      simp only [reduceCtorEq, false_iff]
      rintro ⟨hall, -⟩
      have hnone := PlanNode.clash?_eq_none_iff.2 (hall m List.mem_cons_self)
      rw [hm] at hnone
      contradiction
    | none =>
      have hfree := PlanNode.clash?_eq_none_iff.1 hm
      have hids : (before ++ [m]).map PlanNode.id = before.map PlanNode.id ++ [m.id] := by simp
      simp only [ih, hids, List.mem_append, List.mem_singleton, not_or, List.map_cons,
        List.forall_mem_cons, List.nodup_cons]
      constructor
      · rintro ⟨hall, hnodup⟩
        refine ⟨⟨hfree, fun n hn => ?_⟩, ?_, hnodup⟩
        · exact ⟨(hall n hn).1, (hall n hn).2.1, (hall n hn).2.2.1⟩
        · rw [List.mem_map]
          rintro ⟨n, hn, heq⟩
          exact (hall n hn).2.2.2 heq
      · rintro ⟨⟨-, hall⟩, hnot, hnodup⟩
        refine ⟨fun n hn => ?_, hnodup⟩
        refine ⟨(hall n hn).1, (hall n hn).2.1, (hall n hn).2.2, fun heq => hnot ?_⟩
        exact heq ▸ List.mem_map_of_mem hn

/-! ## Walking a tree -/

/-- A node becomes a vertex without its inputs, unless it clashes. -/
theorem Lowered.accept_eq (l : Lowered) (n : PlanNode) :
    l.accept inUse n =
      match n.clash? inUse l.nodes with
      | some cause => .error ⟨l.nodes, n.kind, n.id, cause⟩
      | none => .ok { l with nodes := l.nodes ++ [n.detached] } := by
  unfold accept PlanNode.clash? uses
  rw [PlanNode.detachChildren_fst]
  split
  · rfl
  · split <;> rfl

namespace PlanNode

/-- A walk goes on with what a slot held. -/
def walkSlot (inUse : NodeId → Bool) (parent : NodeId) (type : EdgeType) (l : Lowered) :
    Option PlanNode → Except LoweringFailure Lowered
  | none => .ok l
  | some c => c.walk inUse (l.connect c.id parent type)

/-- A walk makes the top node a vertex, empties its slots, and goes on with what they held, in
the form that the arity of the node calls for. -/
theorem walk_eq_detachChildren (n : PlanNode) (l : Lowered) :
    n.walk inUse l =
      l.accept inUse n >>= fun l =>
        match n.detachChildren.2 with
        | .leaf => .ok l
        | .unary child | .subPlan child => walkSlot inUse n.id .single l child
        | .binary left right =>
          walkSlot inUse n.id .left l left >>= fun l => walkSlot inUse n.id .right l right := by
  cases n with
  | leaf i s op =>
    rw [walk, detachChildren_leaf]
    exact (bind_pure _).symm
  | unary i s op child =>
    rw [walk]
    rcases detachChildren_unary i s op child with htaken | htaken
    · rw [htaken]
      cases child <;> rfl
    · rw [htaken]
      cases child <;> rfl
  | binary i s op left right =>
    rw [walk, detachChildren_binary]
    cases left <;> cases right <;> rfl

/-- A slot that is in use is one input. -/
theorem foldlM_slot (parent : NodeId) (type : EdgeType) (l : Lowered) (slot : Option PlanNode) :
    (slot.toList.map (type, ·)).foldlM
        (fun l i => i.2.walk inUse (l.connect i.2.id parent i.1)) l =
      walkSlot inUse parent type l slot := by
  cases slot with
  | none => rfl
  | some c => simp [walkSlot]

/-- To walk the inputs is to walk what was taken out of the slots. -/
theorem foldlM_inputs (n : PlanNode) (l : Lowered) :
    n.inputs.foldlM (fun l i => i.2.walk inUse (l.connect i.2.id n.id i.1)) l =
      match n.detachChildren.2 with
      | .leaf => .ok l
      | .unary child | .subPlan child => walkSlot inUse n.id .single l child
      | .binary left right =>
        walkSlot inUse n.id .left l left >>= fun l => walkSlot inUse n.id .right l right := by
  cases n with
  | leaf i s op =>
    rw [detachChildren_leaf]
    rfl
  | unary i s op child =>
    rw [inputs, foldlM_slot]
    rcases detachChildren_unary i s op child with htaken | htaken
    · rw [htaken]
    · rw [htaken]
  | binary i s op left right =>
    rw [inputs, List.foldlM_append, foldlM_slot, detachChildren_binary]
    exact congrArg (_ >>= ·) (funext fun l => foldlM_slot _ _ l right)

/-- A walk makes the top node a vertex and goes on with its inputs. -/
theorem walk_eq (n : PlanNode) (l : Lowered) :
    n.walk inUse l =
      l.accept inUse n >>= fun l =>
        n.inputs.foldlM (fun l i => i.2.walk inUse (l.connect i.2.id n.id i.1)) l := by
  rw [walk_eq_detachChildren]
  exact congrArg (_ >>= ·) (funext fun l => (foldlM_inputs n l).symm)

/-- What a walk has come to at its end: every node and every link of the tree. -/
def afterWalk (l : Lowered) (nodes : List PlanNode) (edges : List (Edge EdgeType)) : Lowered :=
  ⟨l.nodes ++ nodes, l.edges ++ edges⟩

/-- A walk stops at the first node that cannot become a vertex, or comes to its end
with all nodes and links of the tree. -/
theorem walk_eq_firstClash (n : PlanNode) (l : Lowered) :
    n.walk inUse l =
      match firstClash inUse l.nodes n.preorder with
      | some failure => .error failure
      | none => .ok (afterWalk l n.preorder n.links) := by
  induction n using induct_inputs generalizing l with
  | node n ih =>
    -- The same for the part of the inputs that is still to be walked.
    have hinputs : ∀ (is : List (EdgeType × PlanNode)) (_ : ∀ i ∈ is, i ∈ n.inputs) (l : Lowered),
        is.foldlM (fun l i => i.2.walk inUse (l.connect i.2.id n.id i.1)) l =
          match firstClash inUse l.nodes (is.flatMap fun i => i.2.preorder) with
          | some failure => .error failure
          | none => .ok (afterWalk l (is.flatMap fun i => i.2.preorder)
              (is.flatMap fun i => ⟨i.2.id, n.id, i.1⟩ :: i.2.links)) := by
      intro is his
      induction is with
      | nil =>
        intro l
        simp [firstClash, afterWalk]
        rfl
      | cons i is ihis =>
        intro l
        rw [List.foldlM_cons, ih i (his i List.mem_cons_self), List.flatMap_cons,
          firstClash_append]
        change (match firstClash inUse l.nodes i.2.preorder with
          | some failure => Except.error failure
          | none => Except.ok _) >>= _ = _
        cases firstClash inUse l.nodes i.2.preorder with
        | some failure => rfl
        | none =>
          change List.foldlM _ _ is = _
          rw [ihis fun j hj => his j (List.mem_cons_of_mem i hj)]
          simp [afterWalk, Lowered.connect]
    rw [walk_eq, Lowered.accept_eq, preorder_eq, firstClash, links_eq, clash?_detached,
      kind_detached, id_detached]
    cases n.clash? inUse l.nodes with
    | some cause => rfl
    | none =>
      change List.foldlM _ _ n.inputs = _
      rw [hinputs n.inputs fun i hi => hi]
      simp [afterWalk]

/-- A tree without a root inside, whose identifiers differ from each other and are
free. -/
structure Lowerable (inUse : NodeId → Bool) (t : PlanNode) : Prop where
  kind_ne_root : ∀ n ∈ t.preorder, n.kind ≠ .root
  nodup_ids : t.ids.Nodup
  free_ids : ∀ i ∈ t.ids, inUse i = false

/-- A tree can be lowered if no node of it clashes. -/
theorem lowerable_iff {t : PlanNode} :
    t.Lowerable inUse ↔ firstClash inUse [] t.preorder = none := by
  rw [firstClash_eq_none_iff]
  constructor
  · rintro ⟨hkind, hnodup, hfree⟩
    refine ⟨fun n hn => ⟨hkind n hn, hfree n.id (List.mem_map_of_mem hn), ?_⟩, hnodup⟩
    exact List.not_mem_nil
  · rintro ⟨hall, hnodup⟩
    refine ⟨fun n hn => (hall n hn).1, hnodup, fun i hi => ?_⟩
    rcases List.mem_map.1 hi with ⟨n, hn, rfl⟩
    exact (hall n hn).2.1

/-- A tree that can be lowered is lowered to all its nodes and links. -/
theorem Lowerable.lower_eq {t : PlanNode} (h : t.Lowerable inUse) :
    t.lower inUse = .ok ⟨t.preorder, t.links⟩ := by
  unfold lower
  rw [walk_eq_firstClash]
  change (match firstClash inUse [] t.preorder with
    | some failure => Except.error failure
    | none => Except.ok _) = _
  rw [lowerable_iff.1 h]
  rfl

/-- Any other tree fails at its first node that cannot become a vertex. -/
theorem lower_eq_error_of_firstClash {t : PlanNode} {failure : LoweringFailure}
    (h : firstClash inUse [] t.preorder = some failure) : t.lower inUse = .error failure := by
  unfold lower
  rw [walk_eq_firstClash]
  change (match firstClash inUse [] t.preorder with
    | some failure => Except.error failure
    | none => Except.ok _) = _
  rw [h]

end PlanNode

end QueryGraph
