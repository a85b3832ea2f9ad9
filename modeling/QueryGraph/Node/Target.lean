import QueryGraph.Expr.Basic

/-!
# Output expressions and sort keys

Main definitions:

- {lit}`Target`: an output expression, with the column that it makes.
- {lit}`SortKey`: a column to sort by.

Main results:

- {lit}`Target.sameValue_comm`, {lit}`Target.sameValue_trans`: equality up to equal
  constants is symmetric and transitive.
-/

namespace QueryGraph

/-- An output expression that may be renamed. -/
structure Target where
  expr : Expr
  aliasName : Option String
deriving DecidableEq, Repr

namespace Target

/-- The column that a target makes: under its new name, or under the text of its
expression. -/
def column (t : Target) : Column :=
  ⟨t.aliasName.getD t.expr.render, t.expr.valueType⟩

/-- Equality up to equal constants. -/
def sameValue (a b : Target) : Bool :=
  a.expr.sameValue b.expr && a.aliasName == b.aliasName

theorem sameValue_comm (a b : Target) : a.sameValue b = b.sameValue a := by
  simp [sameValue, Expr.sameValue_comm, BEq.comm (a := a.aliasName)]

theorem sameValue_trans {a b c : Target} (hab : a.sameValue b = true)
    (hbc : b.sameValue c = true) : a.sameValue c = true := by
  simp only [sameValue, Bool.and_eq_true] at hab hbc ⊢
  exact ⟨Expr.sameValue_trans hab.1 hbc.1, BEq.trans hab.2 hbc.2⟩

end Target

/-- The schema that a list of targets makes. -/
def targetsSchema (targets : List Target) : Schema :=
  ⟨targets.map Target.column⟩

/-- A column to sort by. -/
structure SortKey where
  column : Column
  ascending : Bool
  nullsFirst : Bool
deriving DecidableEq, Repr

namespace SortKey

/-- Ascending order, missing values last. -/
def asc (column : Column) : SortKey :=
  ⟨column, true, false⟩

/-- Descending order, missing values first. -/
def desc (column : Column) : SortKey :=
  ⟨column, false, true⟩

end SortKey

end QueryGraph
