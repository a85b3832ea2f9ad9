import QueryGraph.Enumeration

/-!
# Data types

The declared types of columns and values.

Main definitions:

- {lit}`DataType`: the types, with {lit}`DataType.null` for the untyped null.
- {lit}`DataType.isNumeric`, {lit}`DataType.isInteger`, {lit}`DataType.isFloat`:
  the classes that typing rules speak of.
-/

namespace QueryGraph

/-- The declared type of a column or value. -/
inductive DataType where
  | boolean
  | int2
  | int4
  | int8
  | float4
  | float8
  | text
  /-- The type of the untyped null. -/
  | null
deriving DecidableEq, Repr

namespace DataType

/-- The whole number types. -/
def isInteger : DataType → Bool
  | .int2 | .int4 | .int8 => true
  | _ => false

/-- The floating point types. -/
def isFloat : DataType → Bool
  | .float4 | .float8 => true
  | _ => false

/-- The types that arithmetic takes. -/
def isNumeric (t : DataType) : Bool :=
  t.isInteger || t.isFloat

/-- The name of a type in queries. -/
def name : DataType → String
  | .boolean => "BOOLEAN"
  | .int2 => "INT2"
  | .int4 => "INT4"
  | .int8 => "INT8"
  | .float4 => "FLOAT4"
  | .float8 => "FLOAT8"
  | .text => "TEXT"
  | .null => "NULL"

instance : Enumeration DataType where
  members := [.boolean, .int2, .int4, .int8, .float4, .float8, .text, .null]
  tag
    | .boolean => "Boolean"
    | .int2 => "Int2"
    | .int4 => "Int4"
    | .int8 => "Int8"
    | .float4 => "Float4"
    | .float8 => "Float8"
    | .text => "Text"
    | .null => "Null"
  mem_members a := by cases a <;> decide
  tags_nodup := by decide

end DataType

end QueryGraph
