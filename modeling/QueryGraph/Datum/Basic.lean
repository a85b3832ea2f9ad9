import QueryGraph.Catalog.DataType
import QueryGraph.Number.PlainText

/-!
# Values

A datum is one typed value of a row.  Two notions of sameness go with it: being
the same datum, down to the bits of floating point numbers, and being equal as a
value, where the two zeros agree and what is no number equals nothing.

Main definitions:

- {lit}`Datum`: the values, with their views as truth value, integer and number.
- {lit}`Datum.chars`, {lit}`Datum.render`: a value in concatenations and in texts.
- {lit}`Datum.sameValue`: equality of values.

Main results:

- {lit}`Datum.sameValue_comm`, {lit}`Datum.sameValue_trans`: equality of values is
  symmetric and transitive; it is not reflexive.
-/

namespace QueryGraph

/-- A typed value. -/
inductive Datum where
  | null
  | boolean (value : Bool)
  | int2 (value : Int16)
  | int4 (value : Int32)
  | int8 (value : Int64)
  | float4 (value : Binary32)
  | float8 (value : Binary64)
  | text (value : String)
deriving DecidableEq, Repr

namespace Datum

/-- The type of a value. -/
def dataType : Datum → DataType
  | .null => .null
  | .boolean _ => .boolean
  | .int2 _ => .int2
  | .int4 _ => .int4
  | .int8 _ => .int8
  | .float4 _ => .float4
  | .float8 _ => .float8
  | .text _ => .text

/-- Whether the value is missing. -/
def isNull : Datum → Bool
  | .null => true
  | _ => false

/-- The truth value of a boolean. -/
def truth? : Datum → Option Bool
  | .boolean b => some b
  | _ => none

/-- The integer that an integer value stands for. -/
def integer? : Datum → Option Int
  | .int2 v => some v.toInt
  | .int4 v => some v.toInt
  | .int8 v => some v.toInt
  | _ => none

/-- A numeric value as an eight byte floating point number. -/
def float? : Datum → Option Binary64
  | .int2 v => some (.ofInt .double v.toInt)
  | .int4 v => some (.ofInt .double v.toInt)
  | .int8 v => some (.ofInt .double v.toInt)
  | .float4 v => some (v.convert .double)
  | .float8 v => some v
  | _ => none

/-- There is one missing value. -/
theorem isNull_iff {d : Datum} : d.isNull = true ↔ d = .null := by
  cases d <;> simp [isNull]

/-- What is read as an integer is what has an integer type. -/
theorem integer?_isSome (d : Datum) : d.integer?.isSome = d.dataType.isInteger := by
  cases d <;> rfl

/-- What is read as a floating point number is what has a numeric type. -/
theorem float?_isSome (d : Datum) : d.float?.isSome = d.dataType.isNumeric := by
  cases d <;> rfl

/-- The characters of a value in a concatenation. -/
def chars : Datum → String
  | .null => ""
  | .boolean b => if b then "true" else "false"
  | .int2 v => toString v.toInt
  | .int4 v => toString v.toInt
  | .int8 v => toString v.toInt
  | .float4 v => v.render
  | .float8 v => v.render
  | .text s => s

/-- The text of a value as a constant. -/
def render : Datum → String
  | .null => "NULL"
  | .text s => "'" ++ s ++ "'"
  | d => d.chars

/-- Equality of values. -/
def sameValue : Datum → Datum → Bool
  | .null, .null => true
  | .boolean a, .boolean b => a == b
  | .int2 a, .int2 b => a == b
  | .int4 a, .int4 b => a == b
  | .int8 a, .int8 b => a == b
  | .float4 a, .float4 b => a.sameValue b
  | .float8 a, .float8 b => a.sameValue b
  | .text a, .text b => a == b
  | _, _ => false

theorem sameValue_comm (a b : Datum) : a.sameValue b = b.sameValue a := by
  cases a <;> cases b <;>
    first
    | rfl
    | exact BinaryFloat.sameValue_comm _ _
    | exact BEq.comm

theorem sameValue_trans {a b c : Datum} (hab : a.sameValue b = true)
    (hbc : b.sameValue c = true) : a.sameValue c = true := by
  cases a <;> cases b <;> simp only [sameValue, Bool.false_eq_true] at hab <;>
    cases c <;> simp only [sameValue, Bool.false_eq_true] at hbc <;>
    simp only [sameValue] <;>
    first
    | exact BinaryFloat.sameValue_trans hab hbc
    | exact BEq.trans hab hbc

end Datum

end QueryGraph
