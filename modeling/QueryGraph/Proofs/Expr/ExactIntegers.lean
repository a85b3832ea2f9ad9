import QueryGraph.Proofs.Expr.IntegerArithmetic

/-!
# Exact integer expressions

Nested arithmetic on integers is exact.  Every operator widens its operands, computes, and
takes the result into the type that the two values call for, so the types of intermediate
results are found anew at every level; yet what is left at the top is the value of the
whole tree on unbounded integers, in the widest type of a leaf.

Main definitions:

- {lit}`Expr.exactValue?`: the value of a tree of operators on unbounded integers.
- {lit}`Expr.IsIntegerTree`: arithmetic over leaves that hold integers, or nothing.
- {lit}`Expr.IsWidestLeafType`: the widest type among the values of the leaves.
- {lit}`Expr.IsExact`: what is said of a present value.

Main results:

- {lit}`Expr.eval_exact`: a present value is exact and of the widest type.
-/

namespace QueryGraph

namespace Expr

/-- The constants and columns of an expression, from left to right. -/
def leaves : Expr → List Expr
  | .binary _ l r _ => l.leaves ++ r.leaves
  | e => [e]

/-- The operators of an expression. -/
def operators : Expr → List ExprKind
  | .binary k l r _ => k :: (l.operators ++ r.operators)
  | _ => []

/-- The value of an expression on unbounded integers, if its leaves hold integers and
nothing is divided by zero. -/
def exactValue? (schema : Schema) (row : Row) : Expr → Option Int
  | .binary k l r _ => do k.onIntegers? (← l.exactValue? schema row) (← r.exactValue? schema row)
  | e => (e.eval schema row).toOption.bind Datum.integer?

/-- Arithmetic over leaves that hold integers on a row, or are missing there. -/
structure IsIntegerTree (schema : Schema) (row : Row) (e : Expr) : Prop where
  operators : ∀ k ∈ e.operators, k.isArithmetic = true
  leaves : ∀ leaf ∈ e.leaves, ∃ d, leaf.eval schema row = .ok d
    ∧ (d = .null ∨ d.dataType.isInteger = true)

/-- The widest type among the values of the leaves. -/
structure IsWidestLeafType (schema : Schema) (row : Row) (e : Expr) (t : DataType) : Prop where
  attained : ∃ leaf ∈ e.leaves, ∃ d, leaf.eval schema row = .ok d ∧ d.dataType = t
  bound : ∀ leaf ∈ e.leaves, ∀ d, leaf.eval schema row = .ok d →
    d.dataType.integerBits ≤ t.integerBits

variable {schema : Schema} {row : Row} {e l r : Expr} {k : ExprKind} {s t u : DataType}
  {d : Datum} {v : Int}

/-- The operands of an operator over integers are over integers. -/
theorem IsIntegerTree.of_binary (h : (binary k l r t).IsIntegerTree schema row) :
    k.isArithmetic = true ∧ l.IsIntegerTree schema row ∧ r.IsIntegerTree schema row := by
  obtain ⟨hk, hoperators⟩ := List.forall_mem_cons.1 h.operators
  obtain ⟨hlOperators, hrOperators⟩ := List.forall_mem_append.1 hoperators
  obtain ⟨hlLeaves, hrLeaves⟩ := List.forall_mem_append.1 h.leaves
  exact ⟨hk, ⟨hlOperators, hlLeaves⟩, ⟨hrOperators, hrLeaves⟩⟩

/-- The value of a leaf has the widest type there. -/
theorem isWidestLeafType_of_leaf (hleaf : e.leaves = [e]) (hd : e.eval schema row = .ok d) :
    e.IsWidestLeafType schema row d.dataType := by
  constructor
  · exact ⟨e, hleaf ▸ List.mem_singleton.2 rfl, d, hd, rfl⟩
  · intro leaf hmem d' hd'
    rw [hleaf, List.mem_singleton] at hmem
    rw [hmem, hd] at hd'
    obtain rfl := Except.ok.inj hd'
    exact Nat.le_refl _

/-- The widest type of all leaves is one of the widest types on both sides. -/
theorem IsWidestLeafType.binary (hl : l.IsWidestLeafType schema row s)
    (hr : r.IsWidestLeafType schema row t) (hu : u = s ∨ u = t)
    (hs : s.integerBits ≤ u.integerBits) (ht : t.integerBits ≤ u.integerBits)
    (announced : DataType) : (binary k l r announced).IsWidestLeafType schema row u := by
  constructor
  · rcases hu with rfl | rfl
    · obtain ⟨leaf, hmem, hvalue⟩ := hl.attained
      exact ⟨leaf, List.mem_append_left _ hmem, hvalue⟩
    · obtain ⟨leaf, hmem, hvalue⟩ := hr.attained
      exact ⟨leaf, List.mem_append_right _ hmem, hvalue⟩
  · intro leaf hmem d hd
    rcases List.mem_append.1 hmem with hmem | hmem
    · exact Nat.le_trans (hl.bound leaf hmem d hd) hs
    · exact Nat.le_trans (hr.bound leaf hmem d hd) ht

/-- A value of an expression is an integer, the value of the expression on unbounded
integers.  It fits its type, which is the widest type of a leaf. -/
structure IsExact (schema : Schema) (row : Row) (e : Expr) (d : Datum) (v : Int) : Prop where
  integer : d.integer? = some v
  exact : e.exactValue? schema row = some v
  fits : FitsBits d.dataType.integerBits v
  widest : e.IsWidestLeafType schema row d.dataType

/-- The value of a leaf is exact. -/
theorem IsIntegerTree.isExact_leaf (h : e.IsIntegerTree schema row) (hleaf : e.leaves = [e])
    (hexact : e.exactValue? schema row = (e.eval schema row).toOption.bind Datum.integer?)
    (hd : e.eval schema row = .ok d) (hpresent : d ≠ .null) :
    ∃ v, e.IsExact schema row d v := by
  obtain ⟨d', hd', htype⟩ := h.leaves e (hleaf ▸ List.mem_singleton.2 rfl)
  obtain rfl : d = d' := Except.ok.inj (hd.symm.trans hd')
  have hinteger : d.integer?.isSome = true := by
    rw [Datum.integer?_isSome]
    exact htype.resolve_left hpresent
  obtain ⟨v, hv⟩ := Option.isSome_iff_exists.1 hinteger
  have hvalue : e.exactValue? schema row = some v := by
    rw [hexact, hd]
    exact hv
  exact ⟨v, hv, hvalue, Datum.fitsBits_of_integer? hv, isWidestLeafType_of_leaf hleaf hd⟩

/-- A present result had present operands. -/
theorem operands_ne_null (hk : k.isArithmetic = true) {a b : Datum}
    (h : Datum.apply k a b = .ok d) (hpresent : d ≠ .null) : a ≠ .null ∧ b ≠ .null := by
  rw [Datum.apply_of_isArithmetic hk] at h
  constructor
  · rintro rfl
    rw [Datum.arithmetic_null_left] at h
    exact hpresent (Except.ok.inj h).symm
  · rintro rfl
    rw [Datum.arithmetic_null_right] at h
    exact hpresent (Except.ok.inj h).symm

/-- What an operator makes of exact values is exact. -/
theorem IsExact.binary {a b : Datum} {x y : Int} (hk : k.isArithmetic = true)
    (hx : l.IsExact schema row a x) (hy : r.IsExact schema row b y)
    (hd : Datum.apply k a b = .ok d) (announced : DataType) :
    ∃ v, (binary k l r announced).IsExact schema row d v := by
  obtain ⟨v, hv, hinteger, htype, hleft, hright⟩ :=
    Datum.integer?_of_apply_eq_ok hk hx.integer hy.integer hd
  have hvalue : (Expr.binary k l r announced).exactValue? schema row = some v := by
    rw [exactValue?, hx.exact, hy.exact]
    exact hv
  exact ⟨v, hinteger, hvalue, Datum.fitsBits_of_integer? hinteger,
    hx.widest.binary hy.widest htype hleft hright announced⟩

/-- A present value of arithmetic on integers is exact. -/
theorem eval_exact (h : e.IsIntegerTree schema row) (hd : e.eval schema row = .ok d)
    (hpresent : d ≠ .null) : ∃ v, e.IsExact schema row d v := by
  induction e generalizing d with
  | const c => exact h.isExact_leaf rfl rfl hd hpresent
  | field c => exact h.isExact_leaf rfl rfl hd hpresent
  | binary k l r t ihl ihr =>
    obtain ⟨hk, hl, hr⟩ := h.of_binary
    obtain ⟨a, ha, hd⟩ := bind_eq_ok_iff.1 hd
    obtain ⟨b, hb, hd⟩ := bind_eq_ok_iff.1 hd
    obtain ⟨haPresent, hbPresent⟩ := operands_ne_null hk hd hpresent
    obtain ⟨x, hx⟩ := ihl hl ha haPresent
    obtain ⟨y, hy⟩ := ihr hr hb hbPresent
    exact hx.binary hk hy hd t

/-- Arithmetic on all three integer types. -/
def mixedWidths : Expr :=
  .binary .minus
    (.binary .multiply (.field ⟨"a", .int2⟩) (.const (.int4 100000)) .int4)
    (.binary .modulo (.field ⟨"b", .int8⟩) (.const (.int2 5)) .int8) .int8

/-- The columns that {lit}`mixedWidths` reads. -/
def shortAndLong : Schema :=
  ⟨[⟨"a", .int2⟩, ⟨"b", .int8⟩]⟩

/-- The row holds integers for all leaves of that expression. -/
theorem mixedWidths_isIntegerTree :
    mixedWidths.IsIntegerTree shortAndLong [.int2 (-7), .int8 (-13)] := by
  constructor
  · decide
  · intro leaf hleaf
    simp only [mixedWidths, leaves, List.cons_append, List.nil_append, List.mem_cons,
      List.not_mem_nil, or_false] at hleaf
    rcases hleaf with rfl | rfl | rfl | rfl
    · exact ⟨.int2 (-7), rfl, .inr rfl⟩
    · exact ⟨.int4 100000, rfl, .inr rfl⟩
    · exact ⟨.int8 (-13), rfl, .inr rfl⟩
    · exact ⟨.int2 5, rfl, .inr rfl⟩

/-- The value is exact, and of the wider of the two types. -/
theorem eval_exact_mixedWidths :
    mixedWidths.IsIntegerTree shortAndLong [.int2 (-7), .int8 (-13)]
      ∧ mixedWidths.eval shortAndLong [.int2 (-7), .int8 (-13)] = .ok (.int8 (-699997))
      ∧ ∃ v, mixedWidths.IsExact shortAndLong [.int2 (-7), .int8 (-13)] (.int8 (-699997)) v := by
  have hvalue : mixedWidths.eval shortAndLong [.int2 (-7), .int8 (-13)]
      = .ok (.int8 (-699997)) := rfl
  exact ⟨mixedWidths_isIntegerTree, hvalue, eval_exact mixedWidths_isIntegerTree hvalue nofun⟩

end Expr

end QueryGraph
