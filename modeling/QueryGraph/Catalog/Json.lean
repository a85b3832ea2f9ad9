import QueryGraph.Catalog.Schema
import QueryGraph.Json.Format

/-!
# JSON form of columns and schemas

Both are records.
-/

namespace QueryGraph

instance : JsonFormat Column where
  toJson c := .ofRecord [("name", toJson c.name), ("data_type", toJson c.dataType)]
  ofJson? levels j := do
    match ← j.record? levels ["name", "data_type"] with
    | (levels, [name, dataType]) =>
      return ⟨← Json.required? (ofJson? levels) name, ← Json.required? (ofJson? levels) dataType⟩
    | _ => none

instance : JsonFormat Schema where
  toJson s := .ofRecord [("columns", toJson s.columns)]
  ofJson? levels j := do
    match ← j.record? levels ["columns"] with
    | (levels, [columns]) => return ⟨← Json.required? (ofJson? levels) columns⟩
    | _ => none

end QueryGraph
