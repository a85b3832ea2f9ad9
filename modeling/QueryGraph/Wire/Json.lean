import QueryGraph.Json.Parser
import QueryGraph.Json.Printer
import QueryGraph.Node.Json
import QueryGraph.Wire.Basic

/-!
# Plans as JSON text

Main definitions:

- {lit}`JsonFormat.render`, {lit}`JsonFormat.parse?`: any type as JSON text.
- {lit}`Plan.toJsonText`, {lit}`Plan.ofJsonText`: plans as JSON text.
-/

namespace QueryGraph

/-- The JSON text of a value. -/
def JsonFormat.render {α : Type} [JsonFormat α] (a : α) : String :=
  (toJson a).render

/-- The value that a JSON text spells. -/
def JsonFormat.parse? {α : Type} [JsonFormat α] (text : String) : Option α :=
  (Json.parse? text.toList).bind (ofJson? nestingLimit)

instance : JsonFormat InputScans where
  toJson s := .ofRecord [("scans", toJson s.scans)]
  ofJson? levels j := do
    match ← j.record? levels ["scans"] with
    | (levels, [scans]) => return ⟨← Json.required? (ofJson? levels) scans⟩
    | _ => none

instance : JsonFormat ParentRef where
  toJson p := .ofRecord [("parent_id", toJson p.parent), ("edge_type", toJson p.edgeType)]
  ofJson? levels j := do
    match ← j.record? levels ["parent_id", "edge_type"] with
    | (levels, [parent, edgeType]) =>
      return ⟨← Json.required? (ofJson? levels) parent, ← Json.required? (ofJson? levels) edgeType⟩
    | _ => none

namespace Wire

/-- The names of the members of a wire. -/
def memberNames : List String :=
  ["allocator_state", "has_join", "has_union", "input_context", "terminal", "vertices",
    "adjacency"]

instance : JsonFormat Wire where
  toJson w := .ofRecord
    [("allocator_state", toJson w.supplyState), ("has_join", toJson w.hasJoin),
      ("has_union", toJson w.hasUnion), ("input_context", toJson w.inputs),
      ("terminal", toJson w.terminal), ("vertices", toJson w.vertices),
      ("adjacency", toJson w.adjacency)]
  ofJson? levels j := do
    match ← j.record? levels memberNames with
    | (levels, [supplyState, hasJoin, hasUnion, inputs, terminal, vertices, adjacency]) =>
      return {
        supplyState := ← Json.required? (ofJson? levels) supplyState
        hasJoin := ← Json.required? (ofJson? levels) hasJoin
        hasUnion := ← Json.required? (ofJson? levels) hasUnion
        inputs := ← Json.optional? (ofJson? levels) inputs
        terminal := ← Json.required? (ofJson? levels) terminal
        vertices := ← Json.required? (ofJson? levels) vertices
        adjacency := ← Json.required? (ofJson? levels) adjacency }
    | _ => none

end Wire

namespace Plan

/-- The JSON text of a plan. -/
def toJsonText (p : Plan) (supply : IdSupply) : String :=
  JsonFormat.render (p.toWire supply)

/-- The plan that a JSON text spells, with the supply of its identifiers. -/
def ofJsonText (text : String) (config : PlannerConfig) : Except DecodeError (Plan × IdSupply) :=
  match (JsonFormat.parse? text : Option Wire) with
  | some w => w.toPlan config
  | none => .error .malformedText

end Plan

/-! ## Planner settings -/

/-- A field of the settings, with its standard value where it is missing. -/
def PlannerConfig.fieldOr? {α : Type} (read : Json → Option α) (standard : α)
    (field : Option Json) : Option α :=
  match field with
  | none => some standard
  | some j => read j

/-- The members of settings: missing ones count as not given, and an array may
end early. -/
def PlannerConfig.members? (levels : Nat) (j : Json) : Option (Nat × List (Option Json)) :=
  match levels, j with
  | levels + 1, .arr items =>
    if items.length ≤ 2 then some (levels, items.map some ++ List.replicate (2 - items.length) none)
    else none
  | levels, j => j.record? levels ["promotion", "trace_lowering"]

instance : JsonFormat PlannerConfig where
  toJson c := .ofRecord
    [("promotion", toJson c.promotion), ("trace_lowering", toJson c.traceLowering)]
  ofJson? levels j := do
    match ← PlannerConfig.members? levels j with
    | (levels, [promotion, traceLowering]) =>
      let standard := PlannerConfig.standard
      return ⟨← PlannerConfig.fieldOr? (ofJson? levels) standard.promotion promotion,
        ← PlannerConfig.fieldOr? (ofJson? levels) standard.traceLowering traceLowering⟩
    | _ => none

end QueryGraph
