import QueryGraph.Graph.Id
import QueryGraph.Node.Payload

/-!
# Plan nodes

A logical plan is a tree of nodes.  A node has an identifier, the schema of the
rows it makes, an operator, and the slots for the operator's inputs, each of
which may be empty.

Main definitions:

- {lit}`PlanNode`: the trees.
- {lit}`PlanNode.slots`: the inputs in order.
- {lit}`PlanNode.detached`: the node alone, with all slots empty.
- {lit}`PlanNode.detachChildren`: empties the slots, and tells what they held.
- {lit}`PlanNode.preorder`: all nodes of the tree, each alone, parents first.
- {lit}`PlanNode.render`: one line about a node.

Main results:

- {lit}`PlanNode.induct`: induction on trees, slot by slot.
-/

namespace QueryGraph

/-- A node of a logical plan with the plans in its slots. -/
inductive PlanNode where
  | leaf (id : NodeId) (schema : Schema) (op : LeafOp)
  | unary (id : NodeId) (schema : Schema) (op : UnaryOp) (child : Option PlanNode)
  | binary (id : NodeId) (schema : Schema) (op : BinaryOp) (left right : Option PlanNode)
deriving Repr

namespace PlanNode

/-- Induction on trees: a node has a property if all inputs in its slots have
it. -/
@[induction_eliminator]
theorem induct {motive : PlanNode → Prop}
    (leaf : ∀ id schema op, motive (.leaf id schema op))
    (unary : ∀ id schema op child, (∀ c ∈ child, motive c) →
      motive (.unary id schema op child))
    (binary : ∀ id schema op left right, (∀ c ∈ left, motive c) → (∀ c ∈ right, motive c) →
      motive (.binary id schema op left right))
    (n : PlanNode) : motive n := by
  refine PlanNode.rec (motive_1 := motive) (motive_2 := fun slot => ∀ c ∈ slot, motive c)
    leaf unary binary ?_ ?_ n
  · simp
  · intro c hc d hd
    cases hd
    exact hc

/-! ## Parts of a node -/

/-- The identifier. -/
def id : PlanNode → NodeId
  | .leaf i _ _ | .unary i _ _ _ | .binary i _ _ _ _ => i

/-- The schema of the rows that the node makes. -/
def schema : PlanNode → Schema
  | .leaf _ s _ | .unary _ s _ _ | .binary _ s _ _ _ => s

/-- The kind of the operator. -/
def kind : PlanNode → NodeKind
  | .leaf _ _ op => op.kind
  | .unary _ _ op _ => op.kind
  | .binary _ _ op _ _ => op.kind

/-- The slots that the operator has. -/
def arity (n : PlanNode) : Arity :=
  n.kind.arity

/-- The inputs in order: the only one, or left before right. -/
def slots : PlanNode → List (Option PlanNode)
  | .leaf .. => []
  | .unary _ _ _ c => [c]
  | .binary _ _ _ l r => [l, r]

/-- Whether a slot is in use. -/
def hasChildren (n : PlanNode) : Bool :=
  n.slots.any Option.isSome

/-- The input of an operator with one input; a nested plan is none. -/
def child? : PlanNode → Option PlanNode
  | .unary _ _ (.tableSubQuery _) _ => none
  | .unary _ _ _ c => c
  | _ => none

/-- The left input of an operator with two inputs. -/
def left? : PlanNode → Option PlanNode
  | .binary _ _ _ l _ => l
  | _ => none

/-- The right input of an operator with two inputs. -/
def right? : PlanNode → Option PlanNode
  | .binary _ _ _ _ r => r
  | _ => none

/-- The nested plan. -/
def subQuery? : PlanNode → Option PlanNode
  | .unary _ _ (.tableSubQuery _) c => c
  | _ => none

/-- The table that the node reads or writes. -/
def tableName? : PlanNode → Option String
  | .leaf _ _ (.scan t _) => some t
  | .unary _ _ (.createTable t) _ => some t
  | .unary _ _ (.insert t _) _ => some t
  | _ => none

/-! ## Taking nodes apart -/

/-- The node alone, with empty slots. -/
def detached : PlanNode → PlanNode
  | .leaf i s op => .leaf i s op
  | .unary i s op _ => .unary i s op none
  | .binary i s op _ _ => .binary i s op none none

/-- A node that is taken out alone keeps its identifier. -/
@[simp] theorem id_detached (n : PlanNode) : n.detached.id = n.id := by
  cases n <;> rfl

@[simp] theorem schema_detached (n : PlanNode) : n.detached.schema = n.schema := by
  cases n <;> rfl

@[simp] theorem kind_detached (n : PlanNode) : n.detached.kind = n.kind := by
  cases n <;> rfl

/-- A node alone has nothing more to lose. -/
@[simp] theorem detached_detached (n : PlanNode) : n.detached.detached = n.detached := by
  cases n <;> rfl

/-- A node alone has no inputs. -/
@[simp] theorem hasChildren_detached (n : PlanNode) : n.detached.hasChildren = false := by
  cases n <;> rfl

/-- A node has no inputs if and only if it is alone. -/
theorem hasChildren_eq_false_iff {n : PlanNode} : n.hasChildren = false ↔ n.detached = n := by
  cases n with
  | leaf => simp [hasChildren, slots, detached]
  | unary i s op c => cases c <;> simp [hasChildren, slots, detached]
  | binary i s op l r => cases l <;> cases r <;> simp [hasChildren, slots, detached]

/-- What the slots of a node held. -/
inductive Detached where
  | leaf
  | unary (child : Option PlanNode)
  | binary (left right : Option PlanNode)
  | subPlan (child : Option PlanNode)
deriving Repr

namespace Detached

/-- The arity of the node that the inputs were taken from. -/
def arity : Detached → Arity
  | .leaf => .leaf
  | .unary _ => .unary
  | .binary .. => .binary
  | .subPlan _ => .subPlan

/-- The inputs in order. -/
def slots : Detached → List (Option PlanNode)
  | .leaf => []
  | .unary c | .subPlan c => [c]
  | .binary l r => [l, r]

/-- What the slots of a node held, given its arity and the slots in order. -/
def ofSlots (arity : Arity) (taken : List (Option PlanNode)) : Detached :=
  match arity with
  | .leaf => .leaf
  | .unary => .unary taken[0]?.join
  | .binary => .binary taken[0]?.join taken[1]?.join
  | .subPlan => .subPlan taken[0]?.join

end Detached

/-- Takes what the slots of a node hold, in order, and leaves them empty. -/
def takeSlots : PlanNode → PlanNode × List (Option PlanNode)
  | .leaf i s op => (.leaf i s op, [])
  | .unary i s op c => (.unary i s op none, [c])
  | .binary i s op l r => (.binary i s op none none, [l, r])

/-- Empties the slots of a node: the node that is left, and what they held, put in
the form that its arity calls for. -/
def detachChildren (n : PlanNode) : PlanNode × Detached :=
  (n.takeSlots.1, .ofSlots n.arity n.takeSlots.2)

/-- All nodes of a tree, each alone: a node, then its inputs in order. -/
def preorder : PlanNode → List PlanNode
  | .leaf i s op => [.leaf i s op]
  | .unary i s op child =>
    .unary i s op none ::
      match child with
      | none => []
      | some c => c.preorder
  | .binary i s op left right =>
    .binary i s op none none ::
      ((match left with
        | none => []
        | some c => c.preorder) ++
      (match right with
        | none => []
        | some c => c.preorder))

/-! ## Text -/

/-- What the line about a node says after its kind and identifier.  Where the
operator has nothing to tell, it is the schema. -/
def details : PlanNode → String
  | .leaf _ _ (.scan t none) => " table: " ++ t
  | .leaf _ _ (.scan t (some a)) => " table: " ++ t ++ " as " ++ a
  | .binary _ _ (.join t none) _ _ => " type: " ++ Enumeration.tag t
  | .binary _ _ (.join t (some p)) _ _ => " type: " ++ Enumeration.tag t ++ " on: " ++ p.render
  | .unary _ _ (.selection p) _ | .unary _ _ (.having p) _ => " predicate: " ++ p.render
  | .unary _ _ (.limit n) _ => " count: " ++ toString n
  | .unary _ _ (.tableSubQuery a) _ => " alias: " ++ a
  | .unary _ _ (.createTable t) _ | .unary _ _ (.insert t _) _ => " table: " ++ t
  | n => " out: " ++ n.schema.render

/-- The line about a node. -/
def render (n : PlanNode) : String :=
  n.kind.name ++ "(" ++ toString n.id ++ ")" ++ n.details

/-- The text of a node does not show its inputs. -/
@[simp] theorem render_detached (n : PlanNode) : n.detached.render = n.render := by
  cases n with
  | leaf => rfl
  | unary i s op c => cases op <;> rfl
  | binary i s op l r =>
    cases op with
    | join t p => cases p <;> rfl
    | _ => rfl

end PlanNode

end QueryGraph
