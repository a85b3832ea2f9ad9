import QueryGraph.Node.Basic

/-!
# Comparing plan nodes

Nodes are compared in three ways: as values, with identifiers and inputs; by
content, which is kind, schema and operator alone; and by the content of whole
trees.

Main definitions:

- {lit}`PlanNode.sameValue`: equality of trees up to equal constants.
- {lit}`PlanNode.sameContent`: equality of schema and operator.
- {lit}`PlanNode.sameTree`: content, node by node.
- {lit}`PlanNode.Matches`: nodes of the same kind, schema and operator.

Main results:

- {lit}`PlanNode.sameContent_eq`: contents are compared by schema and operator alone,
  whichever way is taken.
- {lit}`PlanNode.sameContent_iff_matches`: contents are the same where the nodes match.
- {lit}`PlanNode.sameContent_detached`: it does not depend on the inputs.
- {lit}`PlanNode.sameContent_comm`, {lit}`PlanNode.sameContent_trans`: comparing
  contents is symmetric and transitive.
-/

namespace QueryGraph

namespace PlanNode

/-- Equality of trees, identifiers included, up to equal constants. -/
def sameValue : PlanNode → PlanNode → Bool
  | .leaf i s op, .leaf i' s' op' => i == i' && s == s' && op.sameValue op'
  | .unary i s op c, .unary i' s' op' c' =>
    i == i' && s == s' && op.sameValue op' &&
      match c, c' with
      | none, none => true
      | some a, some b => a.sameValue b
      | _, _ => false
  | .binary i s op l r, .binary i' s' op' l' r' =>
    i == i' && s == s' && op.sameValue op' &&
      (match l, l' with
        | none, none => true
        | some a, some b => a.sameValue b
        | _, _ => false) &&
      (match r, r' with
        | none, none => true
        | some a, some b => a.sameValue b
        | _, _ => false)
  | _, _ => false

/-- Equality of what two nodes hold besides identifier and schema: operators up to
equal constants, and the trees in their slots. -/
def samePayload (a b : PlanNode) : Bool :=
  match a, b with
  | .leaf _ _ op, .leaf _ _ op' => op.sameValue op'
  | .unary _ _ op c, .unary _ _ op' c' => op.sameValue op' && agreesOption sameValue c c'
  | .binary _ _ op l r, .binary _ _ op' l' r' =>
    op.sameValue op' && agreesOption sameValue l l' && agreesOption sameValue r r'
  | _, _ => false

/-- Equality of operators up to equal constants, whatever is in the slots. -/
def sameOperator (a b : PlanNode) : Bool :=
  match a, b with
  | .leaf _ _ op, .leaf _ _ op' => op.sameValue op'
  | .unary _ _ op _, .unary _ _ op' _ => op.sameValue op'
  | .binary _ _ op _ _, .binary _ _ op' _ _ => op.sameValue op'
  | _, _ => false

/-- Equality of schema and operator, whatever the identifiers and inputs.  Nodes
without inputs are compared as they are; otherwise the nodes alone are. -/
def sameContent (a b : PlanNode) : Bool :=
  if a.schema ≠ b.schema ∨ a.kind ≠ b.kind then false
  else if !a.hasChildren && !b.hasChildren then a.samePayload b
  else a.detached.samePayload b.detached

/-- Equality of whole trees by content. -/
def sameTree : PlanNode → PlanNode → Bool
  | .leaf _ s op, .leaf _ s' op' => s == s' && op.sameValue op'
  | .unary _ s op c, .unary _ s' op' c' =>
    s == s' && op.sameValue op' &&
      match c, c' with
      | none, none => true
      | some a, some b => a.sameTree b
      | _, _ => false
  | .binary _ s op l r, .binary _ s' op' l' r' =>
    s == s' && op.sameValue op' &&
      (match l, l' with
        | none, none => true
        | some a, some b => a.sameTree b
        | _, _ => false) &&
      (match r, r' with
        | none, none => true
        | some a, some b => a.sameTree b
        | _, _ => false)
  | _, _ => false

/-! ## Contents -/

/-- Nodes alone hold nothing but their operators. -/
theorem samePayload_detached (a b : PlanNode) :
    a.detached.samePayload b.detached = a.sameOperator b := by
  cases a <;> cases b <;> simp [detached, samePayload, sameOperator, agreesOption]

/-- The same operator makes the same kind. -/
theorem kind_eq_of_sameOperator {a b : PlanNode} (h : a.sameOperator b = true) :
    a.kind = b.kind := by
  cases a <;> cases b <;> simp only [sameOperator, Bool.false_eq_true] at h
  · exact LeafOp.kind_eq_of_sameValue h
  · exact UnaryOp.kind_eq_of_sameValue h
  · exact BinaryOp.kind_eq_of_sameValue h

/-- Nodes without inputs may be compared as they are, or alone. -/
theorem samePayload_eq_detached {a b : PlanNode} (ha : a.hasChildren = false)
    (hb : b.hasChildren = false) : a.samePayload b = a.detached.samePayload b.detached := by
  rw [hasChildren_eq_false_iff.1 ha, hasChildren_eq_false_iff.1 hb]

/-- Both ways of comparing contents come to the same, equality of schemas and operators. -/
theorem sameContent_eq (a b : PlanNode) :
    a.sameContent b = (a.schema == b.schema && a.sameOperator b) := by
  have hways : (if !a.hasChildren && !b.hasChildren then a.samePayload b
      else a.detached.samePayload b.detached) = a.sameOperator b := by
    rw [← samePayload_detached]
    split
    case isTrue h =>
      rw [Bool.and_eq_true, Bool.not_eq_true', Bool.not_eq_true'] at h
      exact samePayload_eq_detached h.1 h.2
    case isFalse => rfl
  unfold sameContent
  rw [hways]
  split
  case isTrue h =>
    -- Operators of different kinds differ, so asking for the kind changes nothing.
    rcases h with hschema | hkind
    · simp [hschema]
    · have hop : a.sameOperator b = false :=
        Bool.eq_false_iff.2 fun h => hkind (kind_eq_of_sameOperator h)
      simp [hop]
  case isFalse h =>
    have hschema : a.schema = b.schema := Decidable.not_not.1 fun h' => h (Or.inl h')
    simp [hschema]

/-- Nodes of the same kind, with the same schema and the same operator up to equal
constants, whatever their identifiers and inputs. -/
structure Matches (a b : PlanNode) : Prop where
  kind : a.kind = b.kind
  schema : a.schema = b.schema
  operator : a.sameOperator b = true

/-- Comparing contents finds out whether two nodes match. -/
theorem sameContent_iff_matches {a b : PlanNode} : a.sameContent b = true ↔ a.Matches b := by
  rw [sameContent_eq, Bool.and_eq_true, beq_iff_eq]
  constructor
  · rintro ⟨schema, operator⟩
    exact ⟨kind_eq_of_sameOperator operator, schema, operator⟩
  · rintro ⟨-, schema, operator⟩
    exact ⟨schema, operator⟩

/-- Comparing contents does not depend on the inputs. -/
@[simp] theorem sameContent_detached (a b : PlanNode) :
    a.detached.sameContent b.detached = a.sameContent b := by
  rw [sameContent_eq, sameContent_eq, schema_detached, schema_detached,
    ← samePayload_detached a b, ← samePayload_detached a.detached, detached_detached,
    detached_detached]

theorem sameOperator_comm (a b : PlanNode) : a.sameOperator b = b.sameOperator a := by
  cases a <;> cases b <;>
    simp only [sameOperator, LeafOp.sameValue_comm, UnaryOp.sameValue_comm,
      BinaryOp.sameValue_comm]

/-- Operators that are the same as a third one are the same. -/
theorem sameOperator_trans {a b c : PlanNode} (hab : a.sameOperator b = true)
    (hbc : b.sameOperator c = true) : a.sameOperator c = true := by
  cases a <;> cases b <;> simp only [sameOperator, Bool.false_eq_true] at hab <;>
    cases c <;> simp only [sameOperator, Bool.false_eq_true] at hbc
  · exact LeafOp.sameValue_trans hab hbc
  · exact UnaryOp.sameValue_trans hab hbc
  · exact BinaryOp.sameValue_trans hab hbc

/-- It does not matter which of two nodes is compared with which. -/
theorem sameContent_comm (a b : PlanNode) : a.sameContent b = b.sameContent a := by
  rw [sameContent_eq, sameContent_eq, sameOperator_comm, BEq.comm]

/-- Nodes of the same content as a third one have the same content. -/
theorem sameContent_trans {a b c : PlanNode} (hab : a.sameContent b = true)
    (hbc : b.sameContent c = true) : a.sameContent c = true := by
  rw [sameContent_eq, Bool.and_eq_true] at hab hbc ⊢
  exact ⟨BEq.trans hab.1 hbc.1, sameOperator_trans hab.2 hbc.2⟩

theorem Matches.symm {a b : PlanNode} (h : a.Matches b) : b.Matches a where
  kind := h.kind.symm
  schema := h.schema.symm
  operator := (sameOperator_comm b a).trans h.operator

/-- Nodes that match a third one match each other. -/
theorem Matches.trans {a b c : PlanNode} (hab : a.Matches b) (hbc : b.Matches c) :
    a.Matches c where
  kind := hab.kind.trans hbc.kind
  schema := hab.schema.trans hbc.schema
  operator := sameOperator_trans hab.operator hbc.operator

end PlanNode

end QueryGraph
