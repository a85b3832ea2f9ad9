import Mathlib.Data.Option.Basic
import QueryGraph.Proofs.Json.Values
import QueryGraph.Wire.Json

/-!
# Reading plans back from JSON

Records and variants are read field by field and level by level, so the law of a type
follows from the laws of its parts.  Every level that the writer opens is one that the
reader counts, and none is ignored: a value is read if and only if its parts are, on the
levels that are left for them.

Main definitions:

- {lit}`LawfulJson.ofRecord`: the law for a record.
- {lit}`Expr.reread`, {lit}`PlanNode.reread`, {lit}`Wire.reread`: what is read of
  expressions, trees and wires.

Main results:

- {lit}`Expr.readJson?_writeJson`, {lit}`PlanNode.readJson?_writeJson`: what expressions
  and trees are read as.
- {lit}`JsonFormat.parse?_render`: what the text of a value is read as.
-/

namespace QueryGraph

open Json

/-! ## Records -/

section

-- Each part of a record is read on a condition of its own.  These equations gather the
-- conditions in front, in the order of the parts.

variable {α β : Type} {p q : Prop} [Decidable p] [Decidable q]

/-- A condition on the first part is a condition on what is read with it. -/
theorem ite_none_bind (x : Option α) (f : α → Option β) :
    (if p then x else none).bind f = if p then x.bind f else none := by
  split <;> rfl

/-- A condition on a later part can be asked first. -/
theorem bind_ite_none (x : Option α) (f : α → Option β) :
    (x.bind fun a => if p then f a else none) = if p then x.bind f else none := by
  split
  · rfl
  · exact Option.bind_fun_none x

theorem ite_none_map (x : Option α) (f : α → β) :
    (if p then x else none).map f = if p then x.map f else none := by
  split <;> rfl

theorem ite_none_ite (x : Option α) :
    (if p then if q then x else none else none) = if q ∧ p then x else none := by
  rw [← ite_and]
  exact if_congr and_comm rfl rfl

end

/-- The law for a record: its fields are what is written, and where they are read, what is
read of the record is made of what is read of them. -/
@[reducible] def LawfulJson.ofRecord {α : Type} [JsonFormat α] (fields : α → List (String × Json))
    (names : List String) (build : Nat × List (Option Json) → Option α) (reread : α → Option α)
    (hnames : ∀ a, (fields a).map Prod.fst = names) (hnodup : names.Nodup)
    (hwrite : ∀ a : α, toJson a = .ofRecord (fields a))
    (hread : ∀ levels j, (ofJson? levels j : Option α) = (j.record? levels names).bind build)
    (hspelled : ∀ a, ∀ f ∈ fields a, f.2.Spelled)
    (hbuild : ∀ levels a, build (levels, (fields a).map fun f => some f.2) =
      if ∀ f ∈ fields a, f.2.depth ≤ levels then reread a else none) : LawfulJson α where
  reread := reread
  spelled a := by
    rw [hwrite]
    exact spelled_ofRecord (hspelled a)
  ofJson?_toJson levels a := by
    rw [hread, hwrite]
    cases levels with
    | zero =>
      rw [record?_zero, Option.bind_none, if_neg (Nat.not_le_of_lt (depth_ofRecord_pos _))]
    | succ levels =>
      rw [record?_ofRecord (hnames a) hnodup, Option.bind_some, hbuild,
        if_congr depth_ofRecord_le_iff rfl rfl]

attribute [local simp] required? ofJson?_toJson reread_eq spelled ite_none_bind bind_ite_none
  ite_none_map ite_none_ite

instance : LawfulJson Column :=
  .ofRecord (fun c => [("name", toJson c.name), ("data_type", toJson c.dataType)])
    ["name", "data_type"] _ some (fun _ => rfl) (by decide) (fun _ => rfl) (fun _ _ => rfl)
    (fun c => by simp) fun levels c => by simp

instance : ExactJson Column := ⟨fun _ => rfl⟩

instance : LawfulJson Schema :=
  .ofRecord (fun s => [("columns", toJson s.columns)]) ["columns"] _ some (fun _ => rfl)
    (by decide) (fun _ => rfl) (fun _ _ => rfl) (fun s => by simp) fun levels s => by simp

instance : ExactJson Schema := ⟨fun _ => rfl⟩

/-! ## Values and expressions -/

/-- A reader of variants reads a payload one level below the name of the variant. -/
theorem read_ofVariant {α β : Type} [JsonFormat α] [LawfulJson α]
    (read : Nat → Json → Option β) (name : String) (wrap : α → β)
    (hzero : ∀ j, read 0 (ofVariant name j) = none)
    (hsucc : ∀ levels j, read (levels + 1) (ofVariant name j) = (ofJson? levels j).map wrap)
    (levels : Nat) (a : α) :
    read levels (ofVariant name (toJson a)) =
      if (ofVariant name (toJson a)).depth ≤ levels then (reread a).map wrap else none := by
  cases levels with
  | zero =>
    have hpos : 0 < (ofVariant name (toJson a)).depth := depth_ofRecord_pos _
    rw [hzero, if_neg (Nat.not_le_of_lt hpos)]
  | succ levels => rw [hsucc, ofJson?_toJson, ite_none_map, if_congr depth_ofVariant_le_iff rfl rfl]

namespace Datum

/-- What is read of a value: floating point numbers may change. -/
def reread : Datum → Option Datum
  | .float4 v => (LawfulJson.reread v).map .float4
  | .float8 v => (LawfulJson.reread v).map .float8
  | d => some d

instance : LawfulJson Datum where
  reread := reread
  spelled d := by
    cases d with
    | null => exact JsonText.spelling_encode _
    | _ => exact spelled_ofVariant (spelled _)
  ofJson?_toJson levels d := by
    cases d with
    | null =>
      show readJson? levels (ofText "Null") = some .null
      simp [readJson?, variant?_ofText, isUnit]
    | boolean v =>
      refine read_ofVariant readJson? _ .boolean (fun _ => rfl) (fun levels j => ?_) levels v
      simp [readJson?, variant?_ofVariant]
    | int2 v =>
      refine read_ofVariant readJson? _ .int2 (fun _ => rfl) (fun levels j => ?_) levels v
      simp [readJson?, variant?_ofVariant]
    | int4 v =>
      refine read_ofVariant readJson? _ .int4 (fun _ => rfl) (fun levels j => ?_) levels v
      simp [readJson?, variant?_ofVariant]
    | int8 v =>
      refine read_ofVariant readJson? _ .int8 (fun _ => rfl) (fun levels j => ?_) levels v
      simp [readJson?, variant?_ofVariant]
    | float4 v =>
      refine read_ofVariant readJson? _ .float4 (fun _ => rfl) (fun levels j => ?_) levels v
      simp [readJson?, variant?_ofVariant]
    | float8 v =>
      refine read_ofVariant readJson? _ .float8 (fun _ => rfl) (fun levels j => ?_) levels v
      simp [readJson?, variant?_ofVariant]
    | text v =>
      refine read_ofVariant readJson? _ .text (fun _ => rfl) (fun levels j => ?_) levels v
      simp [readJson?, variant?_ofVariant]

end Datum

namespace Expr

/-- What is read of an expression: the constants may change. -/
def reread : Expr → Option Expr
  | .const d => (LawfulJson.reread d).map .const
  | .field c => some (.field c)
  | .binary k l r t =>
    l.reread.bind fun l => r.reread.bind fun r => some (.binary k l r t)

/-- The members of an operator. -/
def operatorFields (k : ExprKind) (l r : Expr) (t : DataType) : List (String × Json) :=
  [("eval_type", toJson k), ("left", l.writeJson), ("right", r.writeJson),
    ("return_type", toJson t)]

/-- An operator is a record with four fields. -/
theorem map_fst_operatorFields (k : ExprKind) (l r : Expr) (t : DataType) :
    (operatorFields k l r t).map Prod.fst = ["eval_type", "left", "right", "return_type"] :=
  rfl

/-- An expression is never written as null, so an absent predicate can be. -/
theorem writeJson_ne_null (e : Expr) : e.writeJson ≠ .null := by
  cases e <;> exact fun h => by contradiction

theorem spelled_writeJson (e : Expr) : e.writeJson.Spelled := by
  induction e with
  | const d => exact spelled_ofVariant (spelled d)
  | field c => exact spelled_ofVariant (spelled c)
  | binary k l r t ihl ihr =>
    exact spelled_ofVariant (spelled_ofRecord (by simp [ihl, ihr]))

/-- Operands stand two levels below their operator. -/
theorem depth_writeJson_binary_le_iff {k : ExprKind} {l r : Expr} {t : DataType} {levels : Nat} :
    (binary k l r t).writeJson.depth ≤ levels + 2 ↔
      l.writeJson.depth ≤ levels ∧ r.writeJson.depth ≤ levels := by
  have hk : (toJson k).depth = 0 := rfl
  have ht : (toJson t).depth = 0 := rfl
  rw [writeJson, depth_ofVariant_le_iff, depth_ofRecord_le_iff]
  simp [hk, ht]

theorem readJson?_const (levels : Nat) (j : Json) :
    readJson? (levels + 1) (ofVariant "Const" j) = (ofJson? levels j).map .const := by
  cases levels <;> simp [readJson?, readVariant?, variant?_ofVariant]

theorem readJson?_field (levels : Nat) (j : Json) :
    readJson? (levels + 1) (ofVariant "Field" j) = (ofJson? levels j).map .field := by
  cases levels <;> simp [readJson?, readVariant?, variant?_ofVariant]

/-- An operator opens two levels, its variant and its record. -/
theorem readJson?_binary (levels : Nat) (fields : List (String × Json)) :
    readJson? (levels + 2) (ofVariant "Binary" (.ofRecord fields)) =
      readOperator? (readJson? levels) (levels + 1) (.ofRecord fields) := by
  simp [readJson?, readVariant?, variant?_ofVariant]

/-- An expression is read two levels at a time. -/
theorem readJson?_writeJson (levels : Nat) (e : Expr) :
    readJson? levels e.writeJson = if e.writeJson.depth ≤ levels then e.reread else none := by
  induction e generalizing levels with
  | const d => exact read_ofVariant readJson? _ .const (fun _ => rfl) readJson?_const levels d
  | field c => exact read_ofVariant readJson? _ .field (fun _ => rfl) readJson?_field levels c
  | binary k l r t ihl ihr =>
    match levels with
    | 0 => rfl
    | 1 =>
      have hdepth : ¬(binary k l r t).writeJson.depth ≤ 0 + 1 := by
        rw [writeJson, depth_ofVariant_le_iff]
        exact Nat.not_le_of_lt (depth_ofRecord_pos _)
      rw [if_neg hdepth, writeJson]
      simp [readJson?, readVariant?, variant?_ofVariant, readOperator?]
    | levels + 2 =>
      have hrecord : (ofRecord (operatorFields k l r t)).record? (levels + 1)
          ["eval_type", "left", "right", "return_type"] =
            some (levels, (operatorFields k l r t).map fun f => some f.2) :=
        record?_ofRecord (map_fst_operatorFields k l r t) (by decide) levels
      have hk : (toJson k).depth = 0 := rfl
      have ht : (toJson t).depth = 0 := rfl
      rw [if_congr depth_writeJson_binary_le_iff rfl rfl, writeJson, readJson?_binary,
        readOperator?, ← operatorFields, hrecord]
      simp [operatorFields, ihl, ihr, hk, ht, reread]

instance : LawfulJson Expr where
  reread := reread
  spelled := spelled_writeJson
  ofJson?_toJson := readJson?_writeJson

instance : NonNull Expr := ⟨writeJson_ne_null⟩

end Expr

/-! ## Operators -/

/-- A field that may be missing is read as what may stand in it. -/
@[local simp] theorem optional?_some {α : Type} [JsonFormat α] (levels : Nat) (j : Json) :
    optional? (ofJson? levels) (some j) = (ofJson? levels j : Option (Option α)) :=
  rfl

instance : LawfulJson Target :=
  .ofRecord (fun t => [("expr", toJson t.expr), ("alias", toJson t.aliasName)])
    ["expr", "alias"] _ (fun t => (reread t.expr).bind fun e => some ⟨e, t.aliasName⟩)
    (fun _ => rfl) (by decide) (fun _ => rfl) (fun _ _ => rfl) (fun t => by simp)
    fun levels t => by simp

instance : LawfulJson SortKey :=
  .ofRecord (fun k => [("column", toJson k.column), ("ascending", toJson k.ascending),
      ("nulls_first", toJson k.nullsFirst)])
    ["column", "ascending", "nulls_first"] _ some (fun _ => rfl) (by decide) (fun _ => rfl)
    (fun _ _ => rfl) (fun k => by simp) fun levels k => by simp

instance : ExactJson SortKey := ⟨fun _ => rfl⟩

/-- What is read of an operator: the constants may change. -/
def LeafOp.reread : LeafOp → Option LeafOp
  | .exprs targets => (LawfulJson.reread targets).map .exprs
  | op => some op

/-- What is read of an operator: the constants may change. -/
def UnaryOp.reread : UnaryOp → Option UnaryOp
  | .projection targets => (LawfulJson.reread targets).map .projection
  | .selection predicate => (LawfulJson.reread predicate).map .selection
  | .groupBy keys targets => (LawfulJson.reread targets).map (.groupBy keys)
  | .having predicate => (LawfulJson.reread predicate).map .having
  | op => some op

/-- What is read of an operator: the constants may change. -/
def BinaryOp.reread : BinaryOp → Option BinaryOp
  | .join joinType predicate => (LawfulJson.reread predicate).map (.join joinType)
  | op => some op

theorem LeafOp.spelled_fields (op : LeafOp) : ∀ f ∈ op.fields, f.2.Spelled := by
  cases op <;> simp [fields]

theorem UnaryOp.spelled_fields (op : UnaryOp) : ∀ f ∈ op.fields, f.2.Spelled := by
  cases op <;> simp [fields]

theorem BinaryOp.spelled_fields (op : BinaryOp) : ∀ f ∈ op.fields, f.2.Spelled := by
  cases op <;> simp [fields]

namespace PlanNode

/-- The fields of an operator are the members that the reader of its kind asks for. -/
theorem memberNames_leaf (op : LeafOp) : op.fields.map Prod.fst = memberNames op.kind := by
  cases op <;> rfl

/-- With one input, the slot is the last member. -/
theorem memberNames_unary (op : UnaryOp) (slot : Json) :
    (op.fields ++ [(op.slotName, slot)]).map Prod.fst = memberNames op.kind := by
  cases op <;> rfl

/-- With two inputs, the left slot comes before the right one. -/
theorem memberNames_binary (op : BinaryOp) (left right : Json) :
    (op.fields ++ [("left", left), ("right", right)]).map Prod.fst = memberNames op.kind := by
  cases op <;> rfl

/-- No member of a kind is asked for twice. -/
theorem nodup_memberNames (kind : NodeKind) : (memberNames kind).Nodup := by
  cases kind <;> decide

section

variable (readTree : Json → Option PlanNode) (levels : Nat) (i : NodeId) (s : Schema)

/-- Members are read as what their operator is read as, if their levels suffice. -/
theorem readMembers?_leaf (op : LeafOp) :
    readMembers? readTree levels i s op.kind (op.fields.map fun f => some f.2) =
      if ∀ f ∈ op.fields, f.2.depth ≤ levels then op.reread.bind fun op => some (leaf i s op)
      else none := by
  cases op <;> simp [LeafOp.kind, LeafOp.fields, LeafOp.reread, readMembers?, Option.bind_map]

/-- Behind the fields of an operator, its input is read with the reader of trees. -/
theorem readMembers?_unary (op : UnaryOp) (slot : Json) :
    readMembers? readTree levels i s op.kind
        ((op.fields ++ [(op.slotName, slot)]).map fun f => some f.2) =
      if ∀ f ∈ op.fields, f.2.depth ≤ levels then
        op.reread.bind fun op => (optional? readTree (some slot)).bind fun child =>
          some (unary i s op child)
      else none := by
  cases op <;> simp [UnaryOp.kind, UnaryOp.fields, UnaryOp.reread, readMembers?, Option.bind_map]

/-- The left input is read before the right one. -/
theorem readMembers?_binary (op : BinaryOp) (left right : Json) :
    readMembers? readTree levels i s op.kind
        ((op.fields ++ [("left", left), ("right", right)]).map fun f => some f.2) =
      if ∀ f ∈ op.fields, f.2.depth ≤ levels then
        op.reread.bind fun op => (optional? readTree (some left)).bind fun left =>
          (optional? readTree (some right)).bind fun right => some (binary i s op left right)
      else none := by
  cases op <;> simp [BinaryOp.kind, BinaryOp.fields, BinaryOp.reread, readMembers?, Option.bind_map]

end

/-! ## Trees -/

/-- What is read of a tree: the constants may change. -/
def reread : PlanNode → Option PlanNode
  | .leaf i s op => op.reread.bind fun op => some (.leaf i s op)
  | .unary i s op child =>
    op.reread.bind fun op =>
      (match child with
        | none => some none
        | some c => c.reread.map some).bind fun child => some (.unary i s op child)
  | .binary i s op left right =>
    op.reread.bind fun op =>
      (match left with
        | none => some none
        | some c => c.reread.map some).bind fun left =>
          (match right with
            | none => some none
            | some c => c.reread.map some).bind fun right => some (.binary i s op left right)

/-- What is read of a slot. -/
def rereadSlot : Option PlanNode → Option (Option PlanNode)
  | none => some none
  | some c => c.reread.map some

/-- What is read of a node is what is read of its operator and of its input. -/
theorem reread_unary (i : NodeId) (s : Schema) (op : UnaryOp) (child : Option PlanNode) :
    (unary i s op child).reread =
      op.reread.bind fun op => (rereadSlot child).bind fun child => some (unary i s op child) := by
  cases child <;> rfl

theorem reread_binary (i : NodeId) (s : Schema) (op : BinaryOp) (left right : Option PlanNode) :
    (binary i s op left right).reread =
      op.reread.bind fun op => (rereadSlot left).bind fun left =>
        (rereadSlot right).bind fun right => some (binary i s op left right) := by
  cases left <;> cases right <;> rfl

/-- The slots of a node are written as options. -/
theorem writeJson_unary (i : NodeId) (s : Schema) (op : UnaryOp) (child : Option PlanNode) :
    (unary i s op child).writeJson =
      recordOf i s op.kind (op.fields ++ [(op.slotName, toJson child)]) := by
  cases child <;> rfl

/-- A node with two inputs is written as the record of its fields and slots. -/
theorem writeJson_binary (i : NodeId) (s : Schema) (op : BinaryOp)
    (left right : Option PlanNode) :
    (binary i s op left right).writeJson =
      recordOf i s op.kind (op.fields ++ [("left", toJson left), ("right", toJson right)]) := by
  cases left <;> cases right <;> rfl

theorem recordOf_ne_null (i : NodeId) (s : Schema) (kind : NodeKind)
    (fields : List (String × Json)) : recordOf i s kind fields ≠ .null :=
  fun h => by contradiction

/-- A tree is never written as null, so an empty slot can be. -/
theorem writeJson_ne_null (n : PlanNode) : n.writeJson ≠ .null := by
  cases n with
  | leaf i s op => exact recordOf_ne_null i s op.kind op.fields
  | unary i s op child =>
    rw [writeJson_unary]
    exact recordOf_ne_null _ _ _ _
  | binary i s op left right =>
    rw [writeJson_binary]
    exact recordOf_ne_null _ _ _ _

instance : NonNull PlanNode := ⟨writeJson_ne_null⟩

/-- The members of the operator stand three levels below a node. -/
theorem depth_recordOf_le_iff {i : NodeId} {s : Schema} {kind : NodeKind}
    {fields : List (String × Json)} {levels : Nat} :
    (recordOf i s kind fields).depth ≤ levels + 3 ↔
      (toJson s).depth ≤ levels + 2 ∧ ∀ f ∈ fields, f.2.depth ≤ levels := by
  have hid : (toJson i).depth = 0 := rfl
  rw [recordOf, depth_ofRecord_le_iff]
  simp [hid, depth_ofVariant_le_iff, depth_ofRecord_le_iff]

/-- The record of a node nests three levels deep or more. -/
theorem not_depth_recordOf_le_two (i : NodeId) (s : Schema) (kind : NodeKind)
    (fields : List (String × Json)) : ¬(recordOf i s kind fields).depth ≤ 2 := by
  intro h
  rw [recordOf, depth_ofRecord_le_iff] at h
  have hop := h ("op", ofVariant (Enumeration.tag kind) (.ofRecord fields)) (by simp)
  rw [depth_ofVariant_le_iff] at hop
  exact absurd hop (Nat.not_le_of_lt (depth_ofRecord_pos fields))

/-- The record of a node keeps every string its fields hold. -/
theorem spelled_recordOf (i : NodeId) (s : Schema) (kind : NodeKind)
    {fields : List (String × Json)} (h : ∀ f ∈ fields, f.2.Spelled) :
    (recordOf i s kind fields).Spelled :=
  spelled_ofRecord (by simp [spelled_ofVariant (spelled_ofRecord h)])

/-- A record of a node is taken apart down to the members of the operator. -/
theorem readRecord?_recordOf (readTree : Json → Option PlanNode) (levels : Nat) (i : NodeId)
    (s : Schema) {kind : NodeKind} {fields : List (String × Json)}
    (hnames : fields.map Prod.fst = memberNames kind) :
    readRecord? readTree (levels + 3) (recordOf i s kind fields) =
      if (toJson s).depth ≤ levels + 2 then
        readMembers? readTree levels i s kind (fields.map fun f => some f.2)
      else none := by
  have hrecord : (recordOf i s kind fields).record? (levels + 3) ["id", "output_schema", "op"] =
      some (levels + 2, [some (toJson i), some (toJson s),
        some (ofVariant (Enumeration.tag kind) (.ofRecord fields))]) :=
    record?_ofRecord rfl (by simp) (levels + 2)
  have hid : (toJson i).depth = 0 := rfl
  rw [readRecord?, hrecord]
  simp [hid, variant?_ofVariant, record?_ofRecord hnames (nodup_memberNames kind)]

/-- A node is read if its members are, three levels below it. -/
theorem readJson?_recordOf (levels : Nat) (i : NodeId) (s : Schema) {kind : NodeKind}
    {fields : List (String × Json)} (hnames : fields.map Prod.fst = memberNames kind)
    {n : Option PlanNode}
    (h : ∀ levels, readMembers? (readJson? levels) levels i s kind (fields.map fun f => some f.2) =
      if ∀ f ∈ fields, f.2.depth ≤ levels then n else none) :
    readJson? levels (recordOf i s kind fields) =
      if (recordOf i s kind fields).depth ≤ levels then n else none := by
  match levels with
  | levels + 3 =>
    rw [readJson?, readRecord?_recordOf _ _ _ _ hnames, h, ite_none_ite,
      if_congr (depth_recordOf_le_iff.trans and_comm) rfl rfl]
  | 0 | 1 | 2 =>
    rw [readJson?, if_neg fun hle =>
      not_depth_recordOf_le_two i s kind fields (Nat.le_trans hle (by decide))]
    exact fun _ h => by omega

/-- A slot is read if the tree in it is. -/
theorem optional?_slot {readTree : Json → Option PlanNode} {levels : Nat}
    {slot : Option PlanNode} (h : ∀ c ∈ slot, readTree c.writeJson =
      if c.writeJson.depth ≤ levels then c.reread else none) :
    optional? readTree (some (toJson slot)) =
      if (toJson slot).depth ≤ levels then rereadSlot slot else none := by
  cases slot with
  | none => rfl
  | some c =>
    show nullable? readTree (toJson c) =
      if c.writeJson.depth ≤ levels then c.reread.map some else none
    rw [nullable?_toJson c.writeJson_ne_null, ← ite_none_map, ← h c rfl]
    rfl

theorem spelled_slot {slot : Option PlanNode} (h : ∀ c ∈ slot, c.writeJson.Spelled) :
    (toJson slot).Spelled := by
  cases slot with
  | none => trivial
  | some c => exact h c rfl

/-- The text of a tree keeps every string it holds. -/
theorem spelled_writeJson (n : PlanNode) : n.writeJson.Spelled := by
  induction n with
  | leaf i s op => exact spelled_recordOf i s op.kind op.spelled_fields
  | unary i s op child ih =>
    rw [writeJson_unary]
    refine spelled_recordOf i s op.kind (List.forall_mem_append.2 ⟨op.spelled_fields, ?_⟩)
    simpa using spelled_slot ih
  | binary i s op left right ihl ihr =>
    rw [writeJson_binary]
    refine spelled_recordOf i s op.kind (List.forall_mem_append.2 ⟨op.spelled_fields, ?_⟩)
    simpa using ⟨spelled_slot ihl, spelled_slot ihr⟩

/-- A tree is read three levels at a time. -/
theorem readJson?_writeJson (levels : Nat) (n : PlanNode) :
    readJson? levels n.writeJson = if n.writeJson.depth ≤ levels then n.reread else none := by
  induction n generalizing levels with
  | leaf i s op =>
    exact readJson?_recordOf levels i s (memberNames_leaf op) fun levels =>
      readMembers?_leaf (readJson? levels) levels i s op
  | unary i s op child ih =>
    rw [writeJson_unary, reread_unary]
    refine readJson?_recordOf levels i s (memberNames_unary op _) fun levels => ?_
    have hdepth : (∀ f ∈ op.fields ++ [(op.slotName, toJson child)], f.2.depth ≤ levels) ↔
        (toJson child).depth ≤ levels ∧ ∀ f ∈ op.fields, f.2.depth ≤ levels := by
      rw [List.forall_mem_append, List.forall_mem_singleton, and_comm]
    rw [readMembers?_unary, optional?_slot fun c hc => ih c hc levels, if_congr hdepth rfl rfl]
    simp
  | binary i s op left right ihl ihr =>
    rw [writeJson_binary, reread_binary]
    refine readJson?_recordOf levels i s (memberNames_binary op _ _) fun levels => ?_
    have hdepth :
        (∀ f ∈ op.fields ++ [("left", toJson left), ("right", toJson right)],
          f.2.depth ≤ levels) ↔
        ((toJson left).depth ≤ levels ∧ (toJson right).depth ≤ levels) ∧
          ∀ f ∈ op.fields, f.2.depth ≤ levels := by
      rw [List.forall_mem_append, List.forall_mem_cons, List.forall_mem_singleton, and_comm]
    rw [readMembers?_binary, optional?_slot fun c hc => ihl c hc levels,
      optional?_slot fun c hc => ihr c hc levels, if_congr hdepth rfl rfl]
    simp

instance : LawfulJson PlanNode where
  reread := reread
  spelled := spelled_writeJson
  ofJson?_toJson := readJson?_writeJson

end PlanNode

/-! ## Wires -/

instance : LawfulJson InputScans :=
  .ofRecord (fun s => [("scans", toJson s.scans)]) ["scans"] _
    (fun s => (reread s.scans).bind fun scans => some ⟨scans⟩) (fun _ => rfl) (by decide)
    (fun _ => rfl) (fun _ _ => rfl) (fun s => by simp) fun levels s => by simp

instance : NonNull InputScans := ⟨fun _ h => by contradiction⟩

instance : LawfulJson ParentRef :=
  .ofRecord (fun p => [("parent_id", toJson p.parent), ("edge_type", toJson p.edgeType)])
    ["parent_id", "edge_type"] _ some (fun _ => rfl) (by decide) (fun _ => rfl) (fun _ _ => rfl)
    (fun p => by simp) fun levels p => by simp

instance : ExactJson ParentRef := ⟨fun _ => rfl⟩

/-- What is read of a wire: the constants of its nodes may change. -/
def Wire.reread (w : Wire) : Option Wire :=
  (LawfulJson.reread w.inputs).bind fun inputs =>
    (LawfulJson.reread w.terminal).bind fun terminal =>
      (LawfulJson.reread w.vertices).bind fun vertices =>
        some { w with inputs, terminal, vertices }

instance : LawfulJson Wire :=
  .ofRecord
    (fun w => [("allocator_state", toJson w.supplyState), ("has_join", toJson w.hasJoin),
      ("has_union", toJson w.hasUnion), ("input_context", toJson w.inputs),
      ("terminal", toJson w.terminal), ("vertices", toJson w.vertices),
      ("adjacency", toJson w.adjacency)])
    Wire.memberNames _ Wire.reread (fun _ => rfl) (by decide) (fun _ => rfl) (fun _ _ => rfl)
    (fun w => by simp) fun levels w => by simp [Wire.reread]

/-- A text that was written is read where it does not nest too deep. -/
theorem JsonFormat.parse?_render {α : Type} [JsonFormat α] [LawfulJson α] (a : α) :
    JsonFormat.parse? (JsonFormat.render a) =
      if (toJson a).depth ≤ nestingLimit then reread a else none := by
  rw [JsonFormat.parse?, JsonFormat.render, Json.render, String.toList_ofList,
    Json.parse?_print (spelled a), Option.bind_some, ofJson?_toJson]

end QueryGraph
