import QueryGraph.Enumeration
import QueryGraph.Graph.SortedMap
import QueryGraph.Json.Number

/-!
# JSON forms of data

How values of a type are written as JSON and read from it.

A record is an object with a member for each field.  It may also be read from an
array of all its fields.  A variant is an object with one member, named for the
variant; one without a payload is written as the name alone.  Unknown members are
ignored, and a member that is named twice makes a record unreadable.

The reader keeps count of the levels that may still be opened, one for each array
and object on the way to the value.

Main definitions:

- {lit}`JsonFormat`: writing and reading a type.
- {lit}`Json.record?`, {lit}`Json.variant?`: taking records and variants apart.
-/

namespace QueryGraph

/-- The JSON form of a type. -/
class JsonFormat (α : Type) where
  toJson : α → Json
  /-- Reads a value where so many more levels may be opened. -/
  ofJson? : Nat → Json → Option α

/-- How many arrays and objects may be open at once in what is read. -/
def nestingLimit : Nat := 127

export JsonFormat (toJson ofJson?)

namespace Json

/-! ## Records and variants -/

/-- An object with the given members. -/
def ofRecord (fields : List (String × Json)) : Json :=
  .obj (fields.map fun (name, j) => (JsonText.encode name.toList, j))

/-- A variant with a payload. -/
def ofVariant (name : String) (payload : Json) : Json :=
  ofRecord [(name, payload)]

/-- The texts of the names of members. -/
def namedMembers (members : List (List Char × Json)) : Option (List (String × Json)) :=
  members.mapM fun (name, j) => (JsonText.decode name).map fun text => (String.ofList text, j)

/-- The member with a name, which may be missing but may not be there twice. -/
def member? (members : List (String × Json)) (name : String) : Option (Option Json) :=
  match members.filter (·.1 = name) with
  | [] => some none
  | [(_, j)] => some (some j)
  | _ => none

/-- The fields of a record, and the levels that may be opened inside of it. -/
def record? (levels : Nat) (names : List String) (j : Json) :
    Option (Nat × List (Option Json)) :=
  match levels, j with
  | levels + 1, .obj members => do
    let named ← namedMembers members
    let fields ← names.mapM (member? named)
    return (levels, fields)
  | levels + 1, .arr items =>
    if items.length = names.length then some (levels, items.map some) else none
  | _, _ => none

/-- The name and the payload of a variant, and the levels that may be opened
inside of it. -/
def variant? (levels : Nat) (j : Json) : Option (Nat × String × Option Json) :=
  match levels, j with
  | levels, .str name =>
    (JsonText.decode name).map fun text => (levels, String.ofList text, none)
  | levels + 1, .obj [(name, payload)] =>
    (JsonText.decode name).map fun text => (levels, String.ofList text, some payload)
  | _, _ => none

/-- Whether a variant has no payload, which may also be written as null. -/
def isUnit : Option Json → Bool
  | none | some .null => true
  | _ => false

/-- Reads a field that has to be there. -/
def required? {α : Type} (read : Json → Option α) (field : Option Json) : Option α :=
  field.bind read

/-- Reads something that may be null. -/
def nullable? {α : Type} (read : Json → Option α) : Json → Option (Option α)
  | .null => some none
  | j => (read j).map some

/-- Reads a field that may be null or missing. -/
def optional? {α : Type} (read : Json → Option α) (field : Option Json) : Option (Option α) :=
  match field with
  | none => some none
  | some j => nullable? read j

/-- The integer of a number, if it is in a range. -/
def integerIn? (least greatest : Int) : Json → Option Int
  | .num n => n.integer?.filter fun i => least ≤ i && i ≤ greatest
  | _ => none

end Json

/-! ## Simple types -/

instance : JsonFormat Bool where
  toJson := .bool
  ofJson? _ j := match j with
    | .bool b => some b
    | _ => none

instance : JsonFormat UInt64 where
  toJson n := .ofInt n.toNat
  ofJson? _ j := (j.integerIn? 0 (UInt64.size - 1 : Nat)).map fun i => UInt64.ofNat i.toNat

instance : JsonFormat Int16 where
  toJson n := .ofInt n.toInt
  ofJson? _ j := (j.integerIn? Int16.minValue.toInt Int16.maxValue.toInt).map Int16.ofInt

instance : JsonFormat Int32 where
  toJson n := .ofInt n.toInt
  ofJson? _ j := (j.integerIn? Int32.minValue.toInt Int32.maxValue.toInt).map Int32.ofInt

instance : JsonFormat Int64 where
  toJson n := .ofInt n.toInt
  ofJson? _ j := (j.integerIn? Int64.minValue.toInt Int64.maxValue.toInt).map Int64.ofInt

/-- A floating point number as JSON; one that is not finite is null. -/
def Json.ofFloat {f : BinaryFormat} (range : PlainRange) (x : BinaryFloat f) : Json :=
  match JsonNumber.ofFloat? range x with
  | some n => .num n
  | none => .null

instance : JsonFormat Binary32 where
  toJson := .ofFloat .single
  ofJson? _ j := match j with
    | .num n => n.toSingle?
    | _ => none

instance : JsonFormat Binary64 where
  toJson := .ofFloat .double
  ofJson? _ j := match j with
    | .num n => n.toDouble?
    | _ => none

instance : JsonFormat String where
  toJson := .ofText
  ofJson? _ j := j.text?

/-- The members of an enumeration are variants without payload. -/
instance {α : Type} [DecidableEq α] [Enumeration α] : JsonFormat α where
  toJson a := .ofText (Enumeration.tag a)
  ofJson? levels j := do
    let (_, name, payload) ← j.variant? levels
    if Json.isUnit payload then Enumeration.ofTag? name else none

/-! ## Collections -/

variable {α : Type} [JsonFormat α]

instance : JsonFormat (Option α) where
  toJson
    | none => .null
    | some a => toJson a
  ofJson? levels := Json.nullable? (ofJson? levels)

instance : JsonFormat (List α) where
  toJson items := .arr (items.map toJson)
  ofJson? levels j := match levels, j with
    | levels + 1, .arr items => items.mapM (ofJson? levels)
    | _, _ => none

/-- An identifier as the name of a member: plain decimal digits. -/
def Json.idName (id : NodeId) : List Char :=
  (digitsOfNat id.toNat).map Digit.toChar

/-- The identifier that the name of a member spells. -/
def Json.idOfName? (name : List Char) : Option NodeId := do
  let digits ← name.mapM Digit.ofChar?
  let n := natOfDigits digits
  if digits = digitsOfNat n ∧ n < UInt64.size then some (UInt64.ofNat n) else none

instance : JsonFormat (IdMap α) where
  toJson m := .obj (m.entries.map fun (id, a) => (Json.idName id, toJson a))
  ofJson? levels j := match levels, j with
    | levels + 1, .obj members => do
      let entries ← members.mapM fun (name, j) => do
        let id ← Json.idOfName? name
        let a ← ofJson? levels j
        return (id, a)
      return SortedMap.ofList entries
    | _, _ => none

end QueryGraph
