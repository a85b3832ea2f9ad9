import QueryGraph.Node.Content

/-!
# Views of the inputs of a node

What a node has in its slots can be seen in several ways: by asking for one input, by
listing the slots, by asking whether any is in use, and by taking the inputs out.  Which
kind of node has which slots is written down for each of these ways anew.  They agree: what
is taken out has the form that the arity of the kind calls for, and each slot holds what
asking for it showed before.  What is left is the node alone.

Contents are compared in two ways, of nodes as they are or of the nodes alone, and these
agree as well.  So neither identifiers nor inputs matter for them.

Main definitions:

- {lit}`PlanNode.withId`: a node under another identifier.
- {lit}`PlanNode.SameBesides`: two nodes differ in identifiers and inputs at most.

Main results:

- {lit}`PlanNode.detachChildren_fst`, {lit}`PlanNode.arity_detachChildren` and
  {lit}`PlanNode.views_detachChildren`: what taking the inputs out leaves, and what it gives.
- {lit}`PlanNode.sameContent_of_sameBesides`: contents depend on nothing but schemas and
  operators.
- {lit}`PlanNode.childViews_agree`: all views of the inputs agree.
-/

namespace QueryGraph

namespace PlanNode

variable {a a' b b' : PlanNode}

/-! ## Taking the inputs out -/

namespace Detached

/-- What was taken from an operator with one input; a nested plan is none. -/
def child? : Detached → Option PlanNode
  | .unary c => c
  | _ => none

/-- What was taken from the left of an operator with two inputs. -/
def left? : Detached → Option PlanNode
  | .binary l _ => l
  | _ => none

/-- What was taken from the right of an operator with two inputs. -/
def right? : Detached → Option PlanNode
  | .binary _ r => r
  | _ => none

/-- The nested plan that was taken. -/
def subQuery? : Detached → Option PlanNode
  | .subPlan c => c
  | _ => none

theorem arity_ofSlots (arity : Arity) (taken : List (Option PlanNode)) :
    (ofSlots arity taken).arity = arity := by
  cases arity <;> rfl

end Detached

/-- What is left when the slots are emptied is the node alone, and what is taken is what they
held. -/
theorem takeSlots_eq (n : PlanNode) : n.takeSlots = (n.detached, n.slots) := by
  cases n <;> rfl

/-- What is left is the node alone. -/
theorem detachChildren_fst (n : PlanNode) : n.detachChildren.1 = n.detached := by
  rw [detachChildren, takeSlots_eq]

/-- The inputs are given in the form that the arity of the node calls for. -/
theorem arity_detachChildren (n : PlanNode) : n.detachChildren.2.arity = n.arity :=
  Detached.arity_ofSlots n.arity n.takeSlots.2

/-- The arity of a kind fits the slots of its operators, so no input is lost and none changes
its place. -/
theorem slots_detachChildren (n : PlanNode) : n.detachChildren.2.slots = n.slots := by
  cases n with
  | leaf i s op => cases op <;> rfl
  | unary i s op child => cases op <;> rfl
  | binary i s op left right => cases op <;> rfl

/-- Nothing is taken from an operator without inputs. -/
theorem detachChildren_leaf (i : NodeId) (s : Schema) (op : LeafOp) :
    (leaf i s op).detachChildren.2 = .leaf := by
  cases op <;> rfl

/-- What is taken from the only slot is an input, or a nested plan. -/
theorem detachChildren_unary (i : NodeId) (s : Schema) (op : UnaryOp) (c : Option PlanNode) :
    (unary i s op c).detachChildren.2 = .unary c ∨
      (unary i s op c).detachChildren.2 = .subPlan c := by
  cases op with
  | tableSubQuery a => exact Or.inr rfl
  | _ => exact Or.inl rfl

/-- The left input is taken before the right one. -/
theorem detachChildren_binary (i : NodeId) (s : Schema) (op : BinaryOp) (l r : Option PlanNode) :
    (binary i s op l r).detachChildren.2 = .binary l r := by
  cases op <;> rfl

/-- Each slot held what asking for it showed, and asking for any other slot showed nothing. -/
theorem views_detachChildren (n : PlanNode) :
    n.detachChildren.2.child? = n.child? ∧ n.detachChildren.2.left? = n.left?
      ∧ n.detachChildren.2.right? = n.right? ∧ n.detachChildren.2.subQuery? = n.subQuery? := by
  cases n with
  | leaf i s op => cases op <;> exact ⟨rfl, rfl, rfl, rfl⟩
  | unary i s op child => cases op <;> exact ⟨rfl, rfl, rfl, rfl⟩
  | binary i s op left right => cases op <;> exact ⟨rfl, rfl, rfl, rfl⟩

/-- A slot is in use if asking for one of them shows something. -/
theorem hasChildren_eq_views (n : PlanNode) :
    n.hasChildren =
      (n.child?.isSome || n.left?.isSome || n.right?.isSome || n.subQuery?.isSome) := by
  cases n with
  | leaf i s op => rfl
  | unary i s op child =>
    cases op <;> simp [hasChildren, slots, child?, left?, right?, subQuery?]
  | binary i s op left right => simp [hasChildren, slots, child?, left?, right?, subQuery?]

/-! ## Contents -/

/-- A node under another identifier. -/
def withId (i : NodeId) : PlanNode → PlanNode
  | .leaf _ s op => .leaf i s op
  | .unary _ s op c => .unary i s op c
  | .binary _ s op l r => .binary i s op l r

/-- Whether two nodes are the same besides their identifiers and inputs: alone, one is the
other under another identifier. -/
def SameBesides (a a' : PlanNode) : Prop :=
  ∃ i, a'.detached = a.detached.withId i

theorem SameBesides.refl (a : PlanNode) : a.SameBesides a :=
  ⟨a.id, by cases a <;> rfl⟩

/-- Contents do not depend on identifiers. -/
theorem sameContent_withId (i j : NodeId) (a b : PlanNode) :
    (a.withId i).sameContent (b.withId j) = a.sameContent b := by
  rw [sameContent_eq, sameContent_eq]
  cases a <;> cases b <;> rfl

/-- Nodes that are the same besides identifiers and inputs have the same contents. -/
theorem sameContent_of_sameBesides (ha : a.SameBesides a') (hb : b.SameBesides b') :
    a'.sameContent b' = a.sameContent b := by
  obtain ⟨i, ha'⟩ := ha
  obtain ⟨j, hb'⟩ := hb
  rw [← sameContent_detached a' b', ha', hb', sameContent_withId, sameContent_detached]

/-! ## All views -/

/-- All views of the inputs of a node agree.  Taking them out leaves the node alone, with no
slot in use, and gives them in the form of the node's arity, in each slot what asking for it
showed before.  Contents are the same whether nodes are compared as they are or alone, and do
not depend on identifiers or on which slots are in use. -/
theorem childViews_agree :
    (∀ n : PlanNode, n.detachChildren.1 = n.detached
      ∧ n.detachChildren.1.hasChildren = false
      ∧ n.detachChildren.2.arity = n.arity
      ∧ n.detachChildren.2.slots = n.slots
      ∧ n.detachChildren.2.child? = n.child?
      ∧ n.detachChildren.2.left? = n.left?
      ∧ n.detachChildren.2.right? = n.right?
      ∧ n.detachChildren.2.subQuery? = n.subQuery?
      ∧ n.hasChildren =
        (n.child?.isSome || n.left?.isSome || n.right?.isSome || n.subQuery?.isSome))
    ∧ (∀ a b : PlanNode, a.sameContent b = a.detached.sameContent b.detached)
    ∧ (∀ a b : PlanNode, a.hasChildren = false → b.hasChildren = false →
      a.samePayload b = a.detached.samePayload b.detached)
    ∧ ∀ a a' b b' : PlanNode, a.SameBesides a' → b.SameBesides b' →
      a'.sameContent b' = a.sameContent b := by
  refine ⟨fun n => ?_, fun a b => (sameContent_detached a b).symm,
    fun _ _ => samePayload_eq_detached, fun _ _ _ _ => sameContent_of_sameBesides⟩
  obtain ⟨hchild, hleft, hright, hsubQuery⟩ := n.views_detachChildren
  have halone : n.detachChildren.1.hasChildren = false := by
    rw [detachChildren_fst, hasChildren_detached]
  exact ⟨n.detachChildren_fst, halone, n.arity_detachChildren, n.slots_detachChildren, hchild,
    hleft, hright, hsubQuery, n.hasChildren_eq_views⟩

/-- A join of which only the left input is there. -/
def leftJoin : PlanNode :=
  .binary 3 ⟨[⟨"x", .int4⟩]⟩ (.join .inner (some (.const (.boolean true))))
    (some (.leaf 1 ⟨[]⟩ (.scan "a" none))) none

/-- The same join under another identifier, of which only the right input is there. -/
def rightJoin : PlanNode :=
  .binary 8 ⟨[⟨"x", .int4⟩]⟩ (.join .inner (some (.const (.boolean true)))) none
    (some (.leaf 2 ⟨[]⟩ (.scan "b" none)))

/-- Two joins that differ in their inputs and identifiers have the same content. -/
theorem childViews_agree_joins :
    leftJoin.SameBesides rightJoin ∧ leftJoin.SameBesides leftJoin.detached
      ∧ leftJoin.detached.hasChildren = false
      ∧ leftJoin.detached.samePayload leftJoin.detached =
        leftJoin.detached.detached.samePayload leftJoin.detached.detached
      ∧ rightJoin.sameContent leftJoin.detached = leftJoin.sameContent leftJoin
      ∧ leftJoin.sameContent leftJoin = true := by
  have hother : leftJoin.SameBesides rightJoin := ⟨8, rfl⟩
  have halone : leftJoin.SameBesides leftJoin.detached := ⟨3, rfl⟩
  have hnone : leftJoin.detached.hasChildren = false := hasChildren_detached leftJoin
  obtain ⟨-, -, hpayload, hbesides⟩ := childViews_agree
  exact ⟨hother, halone, hnone, hpayload _ _ hnone hnone, hbesides _ _ _ _ hother halone,
    by decide⟩

end PlanNode

end QueryGraph
