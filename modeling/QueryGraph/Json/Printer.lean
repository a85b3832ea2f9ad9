import QueryGraph.Json.Basic

/-!
# Writing JSON

Values are written without blanks.  An exponent always has a sign and no leading
zeros.

Main definitions:

- {lit}`Json.print`: the text of a value.
-/

namespace QueryGraph

/-- The digits of a natural as characters. -/
def natText (n : Nat) : List Char :=
  (digitsOfNat n).map Digit.toChar

/-- The text of a number. -/
def JsonNumber.print (n : JsonNumber) : List Char :=
  (if n.negative then ['-'] else []) ++ natText n.whole
    ++ (if n.fraction.isEmpty then [] else '.' :: n.fraction.map Digit.toChar)
    ++ match n.exponent with
      | none => []
      | some e => 'e' :: (if e < 0 then '-' else '+') :: natText e.natAbs

namespace Json

mutual

/-- The text of a value. -/
def print : Json → List Char
  | .null => ['n', 'u', 'l', 'l']
  | .bool true => ['t', 'r', 'u', 'e']
  | .bool false => ['f', 'a', 'l', 's', 'e']
  | .num n => n.print
  | .str s => '"' :: s ++ ['"']
  | .arr [] => ['[', ']']
  | .arr (j :: rest) => '[' :: print j ++ printItems rest
  | .obj [] => ['\x7b', '\x7d']
  | .obj ((name, j) :: rest) => '\x7b' :: '"' :: name ++ '"' :: ':' :: print j ++ printMembers rest

/-- The text of the items after the first. -/
def printItems : List Json → List Char
  | [] => [']']
  | j :: rest => ',' :: print j ++ printItems rest

/-- The text of the members after the first. -/
def printMembers : List (List Char × Json) → List Char
  | [] => ['\x7d']
  | (name, j) :: rest => ',' :: '"' :: name ++ '"' :: ':' :: print j ++ printMembers rest

end

/-- The text of a value. -/
def render (j : Json) : String :=
  String.ofList j.print

end Json

end QueryGraph
