import QueryGraph.Catalog.DataType

/-!
# Columns and schemas

A schema lists the columns of a row in order.  Names may repeat, and a look-up
ignores the case of ASCII letters and takes the first match.

Main results:

- {lit}`Schema.columns_merge`: merging keeps the left columns first.
- {lit}`sameName_comm`, {lit}`sameName_trans`: matching names is an equivalence.
-/

namespace QueryGraph

/-- A named, typed column. -/
structure Column where
  name : String
  dataType : DataType
deriving DecidableEq, Repr

/-- The text of a column: its name, then its type in parentheses. -/
def Column.render (c : Column) : String :=
  c.name ++ " (" ++ c.dataType.name ++ ")"

/-- The characters of a name with ASCII letters made small. -/
def foldName (name : String) : List Char :=
  name.toList.map Char.toLower

/-- Whether two names match, the case of ASCII letters aside. -/
def sameName (a b : String) : Bool :=
  foldName a == foldName b

/-- Names are the same if their letters are, in one case. -/
theorem sameName_eq_true_iff {a b : String} :
    sameName a b = true ↔ foldName a = foldName b := by
  simp [sameName]

@[simp] theorem sameName_refl (a : String) : sameName a a = true := by
  simp [sameName]

theorem sameName_comm (a b : String) : sameName a b = sameName b a := by
  rw [Bool.eq_iff_iff, sameName_eq_true_iff, sameName_eq_true_iff, eq_comm]

/-- Names that are the same as a third one are the same. -/
theorem sameName_trans {a b c : String} (hab : sameName a b = true)
    (hbc : sameName b c = true) : sameName a c = true :=
  sameName_eq_true_iff.2
    ((sameName_eq_true_iff.1 hab).trans (sameName_eq_true_iff.1 hbc))

/-- The ordered output columns of a query step. -/
structure Schema where
  columns : List Column
deriving DecidableEq, Repr

namespace Schema

/-- The schema without columns. -/
def empty : Schema :=
  ⟨[]⟩

/-- Appends a column. -/
def addColumn (s : Schema) (name : String) (dataType : DataType) : Schema :=
  ⟨s.columns ++ [⟨name, dataType⟩]⟩

/-- The number of columns. -/
def size (s : Schema) : Nat :=
  s.columns.length

/-- Whether there is no column. -/
def isEmpty (s : Schema) : Bool :=
  s.columns.isEmpty

/-- The column at an index. -/
def column? (s : Schema) (index : Nat) : Option Column :=
  s.columns[index]?

/-- The first column whose name matches. -/
def columnByName? (s : Schema) (name : String) : Option Column :=
  s.columns.find? (sameName ·.name name)

/-- The index of the first column whose name matches. -/
def columnIndex? (s : Schema) (name : String) : Option Nat :=
  s.columns.findIdx? (sameName ·.name name)

/-- The columns of both schemas, those of the first in front. -/
def merge (s t : Schema) : Schema :=
  ⟨s.columns ++ t.columns⟩

/-- The columns of the right schema follow those of the left one. -/
@[simp] theorem columns_merge (s t : Schema) :
    (s.merge t).columns = s.columns ++ t.columns := rfl

/-- No column is lost or merged with another. -/
@[simp] theorem size_merge (s t : Schema) : (s.merge t).size = s.size + t.size := by
  simp [size]

/-- The text of a schema: its columns in braces. -/
def render (s : Schema) : String :=
  "\x7b" ++ String.intercalate ", " (s.columns.map Column.render) ++ "\x7d"

end Schema

end QueryGraph
