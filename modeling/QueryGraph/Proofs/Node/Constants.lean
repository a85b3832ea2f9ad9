import QueryGraph.Proofs.Plan.ScanPairs

/-!
# Constants that equal themselves

What is no number equals nothing, itself included.  Everything else equals itself, so
equality up to equal constants holds between a thing and itself wherever no constant is
such a value.

Main definitions:

- {lit}`Datum.isNaN`: a floating point number that is no number.
- {lit}`PlanNode.constants`: the constants in a tree.

Main results:

- {lit}`PlanNode.sameValue_self`, {lit}`PlanNode.sameContent_self`: a node without such
  a constant equals itself.
- {lit}`InputScans.sameContent_self`: scans without such a constant pair up with
  themselves.
-/

namespace QueryGraph

theorem agreesAll_self {α : Type} {same : α → α → Bool} {as : List α}
    (h : ∀ a ∈ as, same a a = true) : agreesAll same as as = true := by
  induction as with
  | nil => rfl
  | cons a as ih =>
    rw [agreesAll, h a List.mem_cons_self, ih fun b hb => h b (List.mem_cons_of_mem a hb)]
    rfl

theorem agreesOption_self {α : Type} {same : α → α → Bool} {a : Option α}
    (h : ∀ b ∈ a, same b b = true) : agreesOption same a a = true := by
  cases a with
  | none => rfl
  | some a => exact h a rfl

/-! ## Values and expressions -/

/-- A floating point number is equal to itself, unless it is no number. -/
theorem BinaryFloat.sameValue_self {f : BinaryFormat} {x : BinaryFloat f} (h : x.isNaN = false) :
    x.sameValue x = true := by
  rw [sameValue_eq_true_iff]
  unfold orderKey
  rw [if_neg (by rw [h]; exact Bool.false_ne_true)]
  exact ⟨_, rfl, rfl⟩

/-- Whether a value is a floating point number that is no number. -/
def Datum.isNaN : Datum → Bool
  | .float4 x => x.isNaN
  | .float8 x => x.isNaN
  | _ => false

/-- A value is equal to itself, unless it is no number. -/
theorem Datum.sameValue_self {d : Datum} (h : d.isNaN = false) : d.sameValue d = true := by
  cases d with
  | float4 x => exact BinaryFloat.sameValue_self h
  | float8 x => exact BinaryFloat.sameValue_self h
  | _ => simp [sameValue]

/-- The constants in an expression. -/
def Expr.constants : Expr → List Datum
  | .const d => [d]
  | .field _ => []
  | .binary _ l r _ => l.constants ++ r.constants

/-- An expression is equal to itself if its constants are. -/
theorem Expr.sameValue_self {e : Expr} (h : ∀ d ∈ e.constants, d.isNaN = false) :
    e.sameValue e = true := by
  induction e with
  | const d => exact Datum.sameValue_self (h d (List.mem_singleton.2 rfl))
  | field c => simp [sameValue]
  | binary k l r t ihl ihr =>
    rw [constants, List.forall_mem_append] at h
    simp [sameValue, ihl h.1, ihr h.2]

/-! ## Operators -/

/-- The constants in some output expressions. -/
def targetConstants (targets : List Target) : List Datum :=
  targets.flatMap fun t => t.expr.constants

/-- Targets are equal to themselves if the constants of their expressions are. -/
theorem agreesAll_targets_self {targets : List Target}
    (h : ∀ d ∈ targetConstants targets, d.isNaN = false) :
    agreesAll Target.sameValue targets targets = true := by
  apply agreesAll_self
  intro t ht
  have hexpr : t.expr.sameValue t.expr = true :=
    Expr.sameValue_self fun d hd => h d (List.mem_flatMap.2 ⟨t, ht, hd⟩)
  simp [Target.sameValue, hexpr]

/-- The constants in an operator without inputs. -/
def LeafOp.constants : LeafOp → List Datum
  | .scan .. => []
  | .exprs targets => targetConstants targets

/-- The constants in an operator with one input. -/
def UnaryOp.constants : UnaryOp → List Datum
  | .projection targets | .groupBy _ targets => targetConstants targets
  | .selection predicate | .having predicate => predicate.constants
  | _ => []

/-- The constants in an operator with two inputs. -/
def BinaryOp.constants : BinaryOp → List Datum
  | .join _ (some predicate) => predicate.constants
  | _ => []

/-- An operator without inputs is equal to itself if its constants are. -/
theorem LeafOp.sameValue_self {op : LeafOp} (h : ∀ d ∈ op.constants, d.isNaN = false) :
    op.sameValue op = true := by
  cases op with
  | scan t a => simp [sameValue]
  | exprs targets => exact agreesAll_targets_self h

/-- An operator with one input is equal to itself if its constants are. -/
theorem UnaryOp.sameValue_self {op : UnaryOp} (h : ∀ d ∈ op.constants, d.isNaN = false) :
    op.sameValue op = true := by
  cases op with
  | projection targets => exact agreesAll_targets_self h
  | groupBy keys targets => simp [sameValue, agreesAll_targets_self h]
  | selection predicate => exact Expr.sameValue_self h
  | having predicate => exact Expr.sameValue_self h
  | _ => simp [sameValue]

/-- An operator with two inputs is equal to itself if its constants are. -/
theorem BinaryOp.sameValue_self {op : BinaryOp} (h : ∀ d ∈ op.constants, d.isNaN = false) :
    op.sameValue op = true := by
  cases op with
  | join t predicate =>
    cases predicate with
    | none => simp [sameValue, agreesOption]
    | some predicate => simp [sameValue, agreesOption, Expr.sameValue_self h]
  | _ => simp [sameValue]

/-! ## Nodes -/

namespace PlanNode

/-- The constants in the operator of a node. -/
def ownConstants : PlanNode → List Datum
  | .leaf _ _ op => op.constants
  | .unary _ _ op _ => op.constants
  | .binary _ _ op _ _ => op.constants

/-- The constants in a tree. -/
def constants (n : PlanNode) : List Datum :=
  n.subtrees.flatMap ownConstants

/-- The constants of a tree are those of its top and those of its inputs. -/
theorem constants_eq (n : PlanNode) :
    n.constants = n.ownConstants ++ n.inputs.flatMap fun i => i.2.constants := by
  unfold constants
  rw [subtrees_eq, List.flatMap_cons, List.flatMap_assoc]

/-- A node without a constant that is no number has the same content as itself. -/
theorem sameContent_self {n : PlanNode} (h : ∀ d ∈ n.constants, d.isNaN = false) :
    n.sameContent n = true := by
  rw [constants_eq, List.forall_mem_append] at h
  cases n with
  | leaf i s op => simp [sameContent_eq, sameOperator, LeafOp.sameValue_self h.1]
  | unary i s op child => simp [sameContent_eq, sameOperator, UnaryOp.sameValue_self h.1]
  | binary i s op left right => simp [sameContent_eq, sameOperator, BinaryOp.sameValue_self h.1]

/-- A tree without a constant that is no number is the same value as itself. -/
theorem sameValue_self {n : PlanNode} (h : ∀ d ∈ n.constants, d.isNaN = false) :
    n.sameValue n = true := by
  induction n with
  | leaf i s op =>
    rw [constants_eq, List.forall_mem_append] at h
    simp [sameValue, LeafOp.sameValue_self h.1]
  | unary i s op child ih =>
    rw [constants_eq, List.forall_mem_append] at h
    have hop := UnaryOp.sameValue_self h.1
    cases child with
    | none => simp [sameValue, hop]
    | some c =>
      have hc : c.sameValue c = true := ih c rfl (by simpa [inputs] using h.2)
      simp [sameValue, hop, hc]
  | binary i s op left right ihl ihr =>
    rw [constants_eq, List.forall_mem_append] at h
    have hop := BinaryOp.sameValue_self h.1
    have hleft : ∀ l ∈ left, l.sameValue l = true := by
      intro l hl
      refine ihl l hl fun d hd => h.2 d (List.mem_flatMap.2 ⟨(.left, l), ?_, hd⟩)
      exact List.mem_append_left _ (List.mem_map_of_mem (Option.mem_toList.2 hl))
    have hright : ∀ r ∈ right, r.sameValue r = true := by
      intro r hr
      refine ihr r hr fun d hd => h.2 d (List.mem_flatMap.2 ⟨(.right, r), ?_, hd⟩)
      exact List.mem_append_right _ (List.mem_map_of_mem (Option.mem_toList.2 hr))
    cases left <;> cases right <;> simp_all [sameValue]

end PlanNode

/-! ## Scans -/

namespace InputScans

/-- The constants in the scans. -/
def constants (s : InputScans) : List Datum :=
  s.nodes.flatMap PlanNode.constants

/-- Recorded scans match themselves in content. -/
theorem sameContent_self {s : InputScans} (h : ∀ d ∈ s.constants, d.isNaN = false) :
    s.sameContent s = true :=
  sameContent_iff_paired.2 <| .refl fun n hn => PlanNode.sameContent_self fun d hd =>
    h d (List.mem_flatMap.2 ⟨n, hn, hd⟩)

/-- Recorded scans match themselves as values. -/
theorem sameValue_self {s : InputScans} (h : ∀ d ∈ s.constants, d.isNaN = false) :
    s.sameValue s = true := by
  apply agreesAll_self
  intro e he
  have hnode : e.2.sameValue e.2 = true := PlanNode.sameValue_self fun d hd =>
    h d (List.mem_flatMap.2 ⟨e.2, List.mem_map_of_mem he, hd⟩)
  simp [hnode]

end InputScans

end QueryGraph
