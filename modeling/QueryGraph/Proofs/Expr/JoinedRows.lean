import QueryGraph.Proofs.Expr.Typing

/-!
# Expressions on joined rows

A join lays the columns of its right input behind those of its left one, in the schema and
in the row alike.  Names may repeat on both sides, also in another case, and the first match
wins: what a name means on the joined row is what it means on the left, if it is known
there, and what it means on the right otherwise.  An expression depends on a row through
the columns it names only, so one that names columns of one side alone has on the joined
row the value, or the error, that it has on that side.

Main definitions:

- {lit}`Schema.HasName`: a column matches a name.

Main results:

- {lit}`Row.lookup?_merge`: the meaning of a name on a joined row.
- {lit}`Expr.eval_congr`: an expression depends on the columns it names.
- {lit}`Expr.eval_joined`: evaluation on a joined row.
-/

namespace QueryGraph

/-! ## Names on joined rows -/

/-- Whether the name of a column matches, the case of ASCII letters aside. -/
def Schema.HasName (s : Schema) (name : String) : Prop :=
  ∃ c ∈ s.columns, sameName c.name name = true

instance (s : Schema) (name : String) : Decidable (s.HasName name) :=
  inferInstanceAs (Decidable (∃ c ∈ s.columns, sameName c.name name = true))

variable {s t : Schema} {u v : Row} {name : String}

/-- A column is found if the schema has its name. -/
theorem Schema.columnIndex?_isSome_iff : (s.columnIndex? name).isSome = true ↔ s.HasName name := by
  unfold columnIndex? HasName
  rw [List.findIdx?_isSome, List.any_eq_true]

/-- None is found if the schema does not. -/
theorem Schema.columnIndex?_eq_none_iff : s.columnIndex? name = none ↔ ¬ s.HasName name := by
  rw [← columnIndex?_isSome_iff, Bool.not_eq_true, Option.isSome_eq_false_iff,
    Option.isNone_iff_eq_none]

/-- A column that is found is one of the schema. -/
theorem Schema.lt_size_of_columnIndex? {i : Nat} (h : s.columnIndex? name = some i) :
    i < s.size :=
  (List.findIdx?_eq_some_iff_getElem.1 h).1

/-- The first match is on the left, if there is one, and else the first on the right. -/
theorem Schema.columnIndex?_merge (s t : Schema) (name : String) :
    (s.merge t).columnIndex? name =
      (s.columnIndex? name).or ((t.columnIndex? name).map (· + s.size)) := by
  unfold columnIndex? size
  rw [columns_merge, List.findIdx?_append]

/-- A name means on a joined row what it means on the left, if it is known there, and else
what it means on the right. -/
theorem Row.lookup?_merge (hu : u.length = s.size) (v : Row) (t : Schema) (name : String) :
    Row.lookup? (s.merge t) (u ++ v) name =
      if s.HasName name then u.lookup? s name else v.lookup? t name := by
  unfold Row.lookup?
  rw [Schema.columnIndex?_merge]
  split
  case isTrue hname =>
    obtain ⟨i, hi⟩ := Option.isSome_iff_exists.1 (Schema.columnIndex?_isSome_iff.2 hname)
    have hlt : i < u.length := hu ▸ Schema.lt_size_of_columnIndex? hi
    rw [hi, Option.some_or, Option.bind_some, Option.bind_some, List.getElem?_append_left hlt]
  case isFalse hname =>
    rw [Schema.columnIndex?_eq_none_iff.2 hname, Option.none_or, Option.bind_map]
    congr 1
    funext i
    -- The places on the right are shifted by the width of the left row.
    rw [Function.comp_apply, List.getElem?_append_right (by omega), hu, Nat.add_sub_cancel]

/-! ## Expressions -/

namespace Expr

/-- An expression has the same value, or the same error, on rows that give the columns it
names the same meaning. -/
theorem eval_congr {e : Expr}
    (h : ∀ c ∈ e.columns, u.lookup? s c.name = v.lookup? t c.name) :
    e.eval s u = e.eval t v := by
  induction e with
  | const d => rfl
  | field c =>
    unfold eval
    rw [h c (List.mem_singleton.2 rfl)]
  | binary k l r _ ihl ihr =>
    obtain ⟨hl, hr⟩ := List.forall_mem_append.1 h
    unfold eval
    rw [ihl hl, ihr hr]

/-- On a joined row, an expression whose columns are all known on the left has the value or
the error that it has there, and an expression of which no column is known on the left has
what it has on the right. -/
theorem eval_joined (hu : u.length = s.size) (v : Row) (t : Schema) (e : Expr) :
    ((∀ c ∈ e.columns, s.HasName c.name) → e.eval (s.merge t) (u ++ v) = e.eval s u) ∧
      ((∀ c ∈ e.columns, ¬ s.HasName c.name) → e.eval (s.merge t) (u ++ v) = e.eval t v) := by
  constructor
  · intro hknown
    apply eval_congr
    intro c hc
    rw [Row.lookup?_merge hu, if_pos (hknown c hc)]
  · intro hunknown
    apply eval_congr
    intro c hc
    rw [Row.lookup?_merge hu, if_neg (hunknown c hc)]

/-- The columns of a stock of goods. -/
def stock : Schema :=
  ⟨[⟨"item", .text⟩, ⟨"Count", .int4⟩, ⟨"COUNT", .int8⟩]⟩

/-- The columns of an order. -/
def order : Schema :=
  ⟨[⟨"count", .int2⟩, ⟨"Price", .int4⟩]⟩

/-- The count of what is left, whichever it is. -/
def doubled : Expr :=
  .binary .multiply (.field ⟨"cOUNT", .int4⟩) (.const (.int4 2)) .int4

/-- A price with an addition that nobody knows. -/
def surcharged : Expr :=
  .binary .plus (.field ⟨"PRICE", .int4⟩) (.field ⟨"tax", .int4⟩) .int4

/-- On the joined row one expression reads the left columns, and the other fails as it did on
the right row. -/
theorem eval_joined_stock :
    [Datum.text "nail", .int4 30, .int8 7].length = stock.size
      ∧ (∀ c ∈ doubled.columns, stock.HasName c.name)
      ∧ doubled.eval (stock.merge order) [.text "nail", .int4 30, .int8 7, .int2 4, .int4 9]
        = .ok (.int4 60)
      ∧ (∀ c ∈ surcharged.columns, ¬ stock.HasName c.name)
      ∧ surcharged.eval (stock.merge order) [.text "nail", .int4 30, .int8 7, .int2 4, .int4 9]
        = .error (.columnNotFound "tax") := by
  have hlength : [Datum.text "nail", .int4 30, .int8 7].length = stock.size := rfl
  have hknown : ∀ c ∈ doubled.columns, stock.HasName c.name := by decide
  have hunknown : ∀ c ∈ surcharged.columns, ¬ stock.HasName c.name := by decide
  refine ⟨hlength, hknown, ?_, hunknown, ?_⟩
  · exact (eval_joined hlength [.int2 4, .int4 9] order doubled).1 hknown
  · exact (eval_joined hlength [.int2 4, .int4 9] order surcharged).2 hunknown

end Expr

end QueryGraph
