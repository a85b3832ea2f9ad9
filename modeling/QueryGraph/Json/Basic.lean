import QueryGraph.Json.Text

/-!
# JSON values

A JSON value as it is spelled: strings keep their escapes and numbers their
digits, so that what is not looked at need not mean anything.

Main definitions:

- {lit}`Json`: the values.
- {lit}`JsonNumber`: a number as it is spelled.
- {lit}`Json.depth`: how many arrays and objects are open at once.
-/

namespace QueryGraph

/-- A number as it is spelled. -/
structure JsonNumber where
  negative : Bool
  /-- The part before the point. -/
  whole : Nat
  /-- The digits after the point, none where there is no point. -/
  fraction : List Digit
  exponent : Option Int
deriving DecidableEq, Repr

/-- A JSON value as it is spelled. -/
inductive Json where
  | null
  | bool (value : Bool)
  | num (value : JsonNumber)
  /-- A string by its spelling between the quotes. -/
  | str (spelling : List Char)
  | arr (items : List Json)
  /-- An object by its members in order, names by their spelling. -/
  | obj (members : List (List Char × Json))
deriving Repr

namespace Json

mutual

/-- How many arrays and objects are open at once. -/
def depth : Json → Nat
  | .arr items => depthOfItems items + 1
  | .obj members => depthOfMembers members + 1
  | _ => 0

/-- The greatest depth of some items. -/
def depthOfItems : List Json → Nat
  | [] => 0
  | j :: rest => max j.depth (depthOfItems rest)

/-- The greatest depth of some members. -/
def depthOfMembers : List (List Char × Json) → Nat
  | [] => 0
  | (_, j) :: rest => max j.depth (depthOfMembers rest)

end

/-- The string of a text. -/
def ofText (text : String) : Json :=
  .str (JsonText.encode text.toList)

/-- The text of a string. -/
def text? : Json → Option String
  | .str s => (JsonText.decode s).map String.ofList
  | _ => none

/-- The number of an integer. -/
def ofInt (i : Int) : Json :=
  .num ⟨i < 0, i.natAbs, [], none⟩

end Json

end QueryGraph
