import QueryGraph.Proofs.Octets.Values
import QueryGraph.Wire.Octets

/-!
# Reading plans back from octets

Expressions and trees are read with a bound on their height.  Every level of them takes
octets, so the length of what is written is bound enough.

Main results:

- {lit}`Expr.readOctetsWithin_writeOctets`, {lit}`PlanNode.readOctetsWithin_writeOctets`:
  expressions and trees are read back.
- {lit}`Wire.ofOctets?_octets`: a wire is read back, whatever follows it.
-/

namespace QueryGraph

-- Powers mean the same whatever else is imported.
attribute [local instance (high)] instPowNat

instance : LawfulOctets DataType := .ofEnumeration (by decide)

instance : LawfulOctets ExprKind := .ofEnumeration (by decide)

instance : LawfulOctets JoinType := .ofEnumeration (by decide)

instance : LawfulOctets NodeKind := .ofEnumeration (by decide)

instance : LawfulOctets EdgeType := .ofEnumeration (by decide)

/-! ## Values and expressions -/

/-- What starts with the position of a variant is not empty. -/
theorem length_pos_of_variant (position : Nat) (list : List UInt8) :
    0 < (variantOctets position ++ list).length := by
  rw [List.length_append, length_variantOctets]
  exact Nat.add_pos_left (by decide) _

/-- A variant with a payload that is read back. -/
theorem read_variant {α β : Type} [OctetFormat α] [LawfulOctets α] {wrap : α → β}
    {f : Nat → OctetReader β} {position : Nat} (hposition : position < 256 ^ variantWidth)
    (hf : f position = do return wrap (← readOctets)) {a : α}
    (h : (variantOctets position ++ octets a).length < sizeBound) (rest : List UInt8) :
    (readNat variantWidth >>= f) (variantOctets position ++ octets a ++ rest) =
      some (wrap a, rest) := by
  rw [List.append_assoc, bind_variantOctets hposition, hf,
    OctetReader.bind_of_eq_some (LawfulOctets.read a rest (lt_sizeBound_of_append h).2),
    OctetReader.pure_apply]

instance : LawfulOctets Datum where
  length_pos d := by cases d <;> exact length_pos_of_variant _ _
  read d rest h := by
    cases d with
    | null => exact bind_variantOctets (by decide) rest
    | boolean v => exact read_variant (by decide) rfl h rest
    | int2 v => exact read_variant (by decide) rfl h rest
    | int4 v => exact read_variant (by decide) rfl h rest
    | int8 v => exact read_variant (by decide) rfl h rest
    | float4 v => exact read_variant (by decide) rfl h rest
    | float8 v => exact read_variant (by decide) rfl h rest
    | text v => exact read_variant (by decide) rfl h rest

/-- The form of a pair of parts, which starts with the form of the first. -/
theorem length_pos_of_part {α : Type} [OctetFormat α] [LawfulOctets α] (a : α)
    (list : List UInt8) : 0 < (octets a ++ list).length := by
  rw [List.length_append]
  exact Nat.add_pos_left (length_pos a) _

/-- A reader goes on behind a part. -/
theorem bind_octets {α β : Type} [OctetFormat α] [LawfulOctets α] {f : α → OctetReader β} {a : α}
    (h : (octets a).length < sizeBound) (rest : List UInt8) :
    (readOctets >>= f) (octets a ++ rest) = f a rest :=
  OctetReader.bind_of_eq_some (LawfulOctets.read a rest h)

/-- A reader goes on behind two parts. -/
theorem bind_two_octets {α β γ : Type} [OctetFormat α] [LawfulOctets α] [OctetFormat β]
    [LawfulOctets β] {f : α → β → OctetReader γ} {a : α} {b : β}
    (h : (octets a ++ octets b).length < sizeBound) (rest : List UInt8) :
    (readOctets >>= fun a => readOctets >>= f a) (octets a ++ octets b ++ rest) = f a b rest := by
  rcases lt_sizeBound_of_append h with ⟨ha, hb⟩
  rw [List.append_assoc, bind_octets ha, bind_octets hb]

instance : LawfulOctets Column where
  length_pos c := length_pos_of_part c.name _
  read _ rest h := bind_two_octets h rest

instance : LawfulOctets Schema where
  length_pos s := length_pos s.columns
  read s rest h := bind_octets (a := s.columns) h rest

namespace Expr

theorem length_writeOctets_pos (e : Expr) : 0 < e.writeOctets.length := by
  cases e with
  | const d => exact length_pos_of_variant _ _
  | field c => exact length_pos_of_variant _ _
  | binary k l r t =>
    simp only [writeOctets, List.append_assoc]
    exact length_pos_of_variant _ _

/-- An expression is read back with any bound that its octets stay below. -/
theorem readOctetsWithin_writeOctets (e : Expr) {bound : Nat}
    (hbound : e.writeOctets.length ≤ bound) (hsize : e.writeOctets.length < sizeBound)
    (rest : List UInt8) : readOctetsWithin bound (e.writeOctets ++ rest) = some (e, rest) := by
  induction e generalizing bound rest with
  | const d =>
    cases bound with
    | zero => exact absurd hbound (Nat.not_le_of_lt (length_writeOctets_pos _))
    | succ bound => exact read_variant (by decide) rfl hsize rest
  | field c =>
    cases bound with
    | zero => exact absurd hbound (Nat.not_le_of_lt (length_writeOctets_pos _))
    | succ bound => exact read_variant (by decide) rfl hsize rest
  | binary k l r t ihl ihr =>
    cases bound with
    | zero => exact absurd hbound (Nat.not_le_of_lt (length_writeOctets_pos _))
    | succ bound =>
      simp only [writeOctets, List.append_assoc, List.length_append, length_variantOctets]
        at hbound hsize ⊢
      have hwidth : 0 < variantWidth := by decide
      have hleft : ∀ rest, readOctetsWithin bound (l.writeOctets ++ rest) = some (l, rest) :=
        ihl (by omega) (by omega)
      have hright : ∀ rest, readOctetsWithin bound (r.writeOctets ++ rest) = some (r, rest) :=
        ihr (by omega) (by omega)
      rw [readOctetsWithin, bind_variantOctets (by decide)]
      show (readOctets >>= _) _ = _
      rw [bind_octets (by omega), OctetReader.bind_of_eq_some (hleft _),
        OctetReader.bind_of_eq_some (hright _), bind_octets (by omega), OctetReader.pure_apply]

instance : LawfulOctets Expr where
  length_pos := length_writeOctets_pos
  read e rest h := by
    have hbound : e.writeOctets.length ≤ (e.writeOctets ++ rest).length + 1 := by
      rw [List.length_append]
      omega
    exact e.readOctetsWithin_writeOctets hbound h rest

end Expr

/-! ## Operators -/

instance : LawfulOctets Target where
  length_pos t := length_pos_of_part t.expr _
  read _ rest h := bind_two_octets h rest

/-- Three parts are shorter than the sizes that they are shorter than together. -/
theorem lt_sizeBound_of_three {front middle back : List UInt8}
    (h : (front ++ middle ++ back).length < sizeBound) :
    front.length < sizeBound ∧ middle.length < sizeBound ∧ back.length < sizeBound := by
  have houter := lt_sizeBound_of_append h
  have hinner := lt_sizeBound_of_append houter.1
  exact ⟨hinner.1, hinner.2, houter.2⟩

instance : LawfulOctets SortKey where
  length_pos k := by
    show 0 < (octets k.column ++ octets k.ascending ++ octets k.nullsFirst).length
    rw [List.append_assoc]
    exact length_pos_of_part k.column _
  read k rest h := by
    rcases lt_sizeBound_of_three h with ⟨hcolumn, hascending, hnulls⟩
    show (readOctets >>= _)
      (octets k.column ++ octets k.ascending ++ octets k.nullsFirst ++ rest) = _
    rw [List.append_assoc, List.append_assoc, bind_octets hcolumn, bind_octets hascending,
      bind_octets hnulls, OctetReader.pure_apply]

namespace PlanNode

/-! ## Trees -/

/-- The slots of a node are written as options. -/
theorem writeOctets_unary (i : NodeId) (s : Schema) (op : UnaryOp) (child : Option PlanNode) :
    (unary i s op child).writeOctets = headOctets i s op.kind op.payloadOctets ++ octets child := by
  cases child <;> rfl

/-- A node with two inputs is written as its head and its slots, the left one first. -/
theorem writeOctets_binary (i : NodeId) (s : Schema) (op : BinaryOp)
    (left right : Option PlanNode) :
    (binary i s op left right).writeOctets =
      headOctets i s op.kind op.payloadOctets ++ octets left ++ octets right := by
  cases left <;> cases right <;> rfl

/-- Whether a tree is read back with any bound that its octets stay below. -/
def ReadBack (n : PlanNode) : Prop :=
  ∀ {bound : Nat}, n.writeOctets.length ≤ bound → n.writeOctets.length < sizeBound →
    ∀ rest, readOctetsWithin bound (n.writeOctets ++ rest) = some (n, rest)

/-- A slot is read back if the tree in it is.  The mark of the slot makes up for the level
that is taken off the bound. -/
theorem readSlot_octets {slot : Option PlanNode} (h : ∀ c ∈ slot, c.ReadBack) {bound : Nat}
    (hbound : (octets slot).length ≤ bound + 1) (hsize : (octets slot).length < sizeBound)
    (rest : List UInt8) :
    readSlot (readOctetsWithin bound) (octets slot ++ rest) = some (slot, rest) := by
  cases slot with
  | none => rfl
  | some c =>
    have hlength : (octets (some c)).length = c.writeOctets.length + 1 := rfl
    exact OctetReader.map_of_eq_some some (h c rfl (by omega) (by omega) rest)

section

variable {readTree : OctetReader PlanNode} {i : NodeId} {s : Schema}

/-- What an operator without inputs says is read back. -/
theorem readPayload_leaf {op : LeafOp} (h : op.payloadOctets.length < sizeBound)
    (rest : List UInt8) :
    readPayload readTree i s op.kind (op.payloadOctets ++ rest) = some (leaf i s op, rest) := by
  cases op with
  | scan table aliasName => exact bind_two_octets h rest
  | exprs targets => exact bind_octets h rest

/-- What an operator with one input says is read back, before the slot. -/
theorem readPayload_unary {op : UnaryOp} (h : op.payloadOctets.length < sizeBound)
    (rest : List UInt8) :
    readPayload readTree i s op.kind (op.payloadOctets ++ rest) =
      (do return unary i s op (← readSlot readTree) : OctetReader PlanNode) rest := by
  cases op with
  | root => rfl
  | groupBy keys targets => exact bind_two_octets h rest
  | insert table overwrite => exact bind_two_octets h rest
  | projection targets => exact bind_octets h rest
  | selection predicate => exact bind_octets h rest
  | having predicate => exact bind_octets h rest
  | sort keys => exact bind_octets h rest
  | limit count => exact bind_octets h rest
  | tableSubQuery aliasName => exact bind_octets h rest
  | createTable table => exact bind_octets h rest

/-- What an operator with two inputs says is read back, before the slots. -/
theorem readPayload_binary {op : BinaryOp} (h : op.payloadOctets.length < sizeBound)
    (rest : List UInt8) :
    readPayload readTree i s op.kind (op.payloadOctets ++ rest) =
      (do
        let left ← readSlot readTree
        return binary i s op left (← readSlot readTree) : OctetReader PlanNode) rest := by
  cases op with
  | join joinType predicate => exact bind_two_octets h rest
  | union all => exact bind_octets h rest
  | except all => exact bind_octets h rest
  | intersect all => exact bind_octets h rest

end

/-- The head of a node is read back. -/
theorem readOctetsWithin_head {i : NodeId} {s : Schema} {kind : NodeKind} {payload : List UInt8}
    (h : (headOctets i s kind payload).length < sizeBound) (bound : Nat) (rest : List UInt8) :
    readOctetsWithin (bound + 1) (headOctets i s kind payload ++ rest) =
      readPayload (readOctetsWithin bound) i s kind (payload ++ rest) := by
  rcases lt_sizeBound_of_three (lt_sizeBound_of_append h).1 with ⟨hid, hschema, hkind⟩
  simp only [headOctets, List.append_assoc, readOctetsWithin]
  rw [bind_octets hid, bind_octets hschema, bind_octets hkind]

theorem length_headOctets_pos (i : NodeId) (s : Schema) (kind : NodeKind)
    (payload : List UInt8) : 0 < (headOctets i s kind payload).length := by
  simp only [headOctets, List.append_assoc]
  exact length_pos_of_part i _

theorem length_writeOctets_pos (n : PlanNode) : 0 < n.writeOctets.length := by
  cases n with
  | leaf i s op => exact length_headOctets_pos _ _ _ _
  | unary i s op child =>
    rw [writeOctets_unary, List.length_append]
    exact Nat.add_pos_left (length_headOctets_pos _ _ _ _) _
  | binary i s op left right =>
    rw [writeOctets_binary, List.append_assoc, List.length_append]
    exact Nat.add_pos_left (length_headOctets_pos _ _ _ _) _

/-- A tree is read back with any bound that its octets stay below. -/
theorem readOctetsWithin_writeOctets (n : PlanNode) : n.ReadBack := by
  induction n with
  | leaf i s op =>
    intro bound hbound hsize rest
    cases bound with
    | zero => exact absurd hbound (Nat.not_le_of_lt (length_writeOctets_pos _))
    | succ bound =>
      exact (readOctetsWithin_head hsize bound rest).trans
        (readPayload_leaf (lt_sizeBound_of_append hsize).2 rest)
  | unary i s op child ih =>
    intro bound hbound hsize rest
    cases bound with
    | zero => exact absurd hbound (Nat.not_le_of_lt (length_writeOctets_pos _))
    | succ bound =>
      have hpos := length_headOctets_pos i s op.kind op.payloadOctets
      rw [writeOctets_unary] at hbound hsize ⊢
      rcases lt_sizeBound_of_append hsize with ⟨hhead, hchild⟩
      rw [List.length_append] at hbound
      rw [List.append_assoc, readOctetsWithin_head hhead,
        readPayload_unary (lt_sizeBound_of_append hhead).2,
        OctetReader.bind_of_eq_some (readSlot_octets ih (by omega) hchild rest),
        OctetReader.pure_apply]
  | binary i s op left right ihl ihr =>
    intro bound hbound hsize rest
    cases bound with
    | zero => exact absurd hbound (Nat.not_le_of_lt (length_writeOctets_pos _))
    | succ bound =>
      have hpos := length_headOctets_pos i s op.kind op.payloadOctets
      rw [writeOctets_binary] at hbound hsize ⊢
      rcases lt_sizeBound_of_three hsize with ⟨hhead, hleft, hright⟩
      rw [List.length_append, List.length_append] at hbound
      rw [List.append_assoc, List.append_assoc, readOctetsWithin_head hhead,
        readPayload_binary (lt_sizeBound_of_append hhead).2,
        OctetReader.bind_of_eq_some (readSlot_octets ihl (by omega) hleft _),
        OctetReader.bind_of_eq_some (readSlot_octets ihr (by omega) hright rest),
        OctetReader.pure_apply]

instance : LawfulOctets PlanNode where
  length_pos := length_writeOctets_pos
  read n rest h := by
    have hbound : n.writeOctets.length ≤ (n.writeOctets ++ rest).length + 1 := by
      rw [List.length_append]
      omega
    exact n.readOctetsWithin_writeOctets hbound h rest

end PlanNode

/-! ## Wires -/

instance : LawfulOctets InputScans where
  length_pos s := length_pos s.scans
  read s rest h := bind_octets (a := s.scans) h rest

instance : LawfulOctets ParentRef where
  length_pos p := length_pos_of_part p.parent _
  read _ rest h := bind_two_octets h rest

instance : LawfulOctets Wire where
  length_pos w := by
    show 0 < (octets w.supplyState ++ _ ++ _ ++ _ ++ _ ++ _ ++ _).length
    simp only [List.append_assoc]
    exact length_pos_of_part w.supplyState _
  read w rest h := by
    rcases lt_sizeBound_of_append h with ⟨h, hadjacency⟩
    rcases lt_sizeBound_of_append h with ⟨h, hvertices⟩
    rcases lt_sizeBound_of_append h with ⟨h, hterminal⟩
    rcases lt_sizeBound_of_append h with ⟨h, hinputs⟩
    rcases lt_sizeBound_of_three h with ⟨hstate, hjoin, hunion⟩
    show (readOctets >>= _)
      (octets w.supplyState ++ octets w.hasJoin ++ octets w.hasUnion ++ octets w.inputs ++
        octets w.terminal ++ octets w.vertices ++ octets w.adjacency ++ rest) = _
    simp only [List.append_assoc]
    rw [bind_octets hstate, bind_octets hjoin, bind_octets hunion, bind_octets hinputs,
      bind_octets hterminal, bind_octets hvertices, bind_octets hadjacency,
      OctetReader.pure_apply]

/-- The wire that was written is read back, whatever follows it. -/
theorem Wire.ofOctets?_octets {w : Wire} (h : (octets w).length < sizeBound)
    (rest : List UInt8) : ofOctets? (octets w ++ rest) = some w := by
  have hread : (readOctets : OctetReader Wire) (octets w ++ rest) = some (w, rest) :=
    LawfulOctets.read w rest h
  unfold ofOctets?
  rw [StateT.run, hread, Option.map_some]

end QueryGraph
