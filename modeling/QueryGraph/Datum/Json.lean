import QueryGraph.Datum.Basic
import QueryGraph.Json.Format

/-!
# JSON form of values

A value is a variant named for its type.

Main definitions:

- {lit}`Datum.writeJson`, {lit}`Datum.readJson?`: writing and reading a value.
-/

namespace QueryGraph

namespace Datum

/-- Writes a value. -/
def writeJson : Datum → Json
  | .null => .ofText "Null"
  | .boolean v => .ofVariant "Boolean" (toJson v)
  | .int2 v => .ofVariant "Int2" (toJson v)
  | .int4 v => .ofVariant "Int4" (toJson v)
  | .int8 v => .ofVariant "Int8" (toJson v)
  | .float4 v => .ofVariant "Float4" (toJson v)
  | .float8 v => .ofVariant "Float8" (toJson v)
  | .text v => .ofVariant "Text" (toJson v)

/-- Reads a value. -/
def readJson? (levels : Nat) (j : Json) : Option Datum := do
  let (levels, name, payload) ← j.variant? levels
  match name with
  | "Null" => if Json.isUnit payload then some .null else none
  | "Boolean" => (Json.required? (ofJson? levels) payload).map .boolean
  | "Int2" => (Json.required? (ofJson? levels) payload).map .int2
  | "Int4" => (Json.required? (ofJson? levels) payload).map .int4
  | "Int8" => (Json.required? (ofJson? levels) payload).map .int8
  | "Float4" => (Json.required? (ofJson? levels) payload).map .float4
  | "Float8" => (Json.required? (ofJson? levels) payload).map .float8
  | "Text" => (Json.required? (ofJson? levels) payload).map .text
  | _ => none

instance : JsonFormat Datum where
  toJson := writeJson
  ofJson? := readJson?

end Datum

end QueryGraph
