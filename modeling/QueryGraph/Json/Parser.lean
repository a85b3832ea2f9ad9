import QueryGraph.Json.Basic

/-!
# Reading JSON

A strict reader: four kinds of blanks, no leading zeros, no comments, nothing
after the value.  It looks at the form alone; how deep a value may nest and what
its strings and numbers mean is left to whoever takes it apart.

Every value, item and member takes a character from the input, so the length of
the input bounds the recursion.

Main definitions:

- {lit}`Json.parse?`: the value that a text spells.
-/

namespace QueryGraph

namespace Json

/-- Whether a character may stand between the parts of a value. -/
def isBlank (c : Char) : Bool :=
  c = ' ' || c = '\n' || c = '\t' || c = '\r'

/-- The text from its first character on that is not blank. -/
def skipBlanks (cs : List Char) : List Char :=
  cs.dropWhile isBlank

/-- Splits the digits in front from the rest. -/
def spanDigits : List Char → List Digit × List Char
  | [] => ([], [])
  | c :: rest =>
    match Digit.ofChar? c with
    | some d =>
      let (ds, rest) := spanDigits rest
      (d :: ds, rest)
    | none => ([], c :: rest)

/-- Splits one or more digits in front from the rest. -/
def parseDigits (cs : List Char) : Option (List Digit × List Char) :=
  match spanDigits cs with
  | ([], _) => none
  | found => some found

/-- The part of a number before the point: no zero in front of other digits. -/
def parseWhole (cs : List Char) : Option (Nat × List Char) := do
  match ← parseDigits cs with
  | (0 :: _ :: _, _) => none
  | (digits, rest) => return (natOfDigits digits, rest)

/-- The digits after a point, if there is one. -/
def parseFraction : List Char → Option (List Digit × List Char)
  | '.' :: rest => parseDigits rest
  | cs => some ([], cs)

/-- An exponent without its mark. -/
def parseExponentDigits (negative : Bool) (cs : List Char) :
    Option (Option Int × List Char) := do
  let (digits, rest) ← parseDigits cs
  let magnitude : Int := natOfDigits digits
  return (some (if negative then -magnitude else magnitude), rest)

/-- An exponent, if there is one. -/
def parseExponent : List Char → Option (Option Int × List Char)
  | c :: rest =>
    if c = 'e' || c = 'E' then
      match rest with
      | '+' :: rest => parseExponentDigits false rest
      | '-' :: rest => parseExponentDigits true rest
      | rest => parseExponentDigits false rest
    else some (none, c :: rest)
  | [] => some (none, [])

/-- A number after its sign. -/
def parseUnsigned (negative : Bool) (cs : List Char) : Option (JsonNumber × List Char) := do
  let (whole, rest) ← parseWhole cs
  let (fraction, rest) ← parseFraction rest
  let (exponent, rest) ← parseExponent rest
  return (⟨negative, whole, fraction, exponent⟩, rest)

/-- A number. -/
def parseNumber : List Char → Option (JsonNumber × List Char)
  | '-' :: rest => parseUnsigned true rest
  | cs => parseUnsigned false cs

/-- The name of a member with the colon after it. -/
def parseName (cs : List Char) : Option (List Char × List Char) := do
  match skipBlanks cs with
  | '"' :: rest =>
    let (name, rest) ← JsonText.scan rest
    match skipBlanks rest with
    | ':' :: rest => return (name, rest)
    | _ => none
  | _ => none

mutual

/-- A value, after any blanks. -/
def parseValue : Nat → List Char → Option (Json × List Char)
  | 0, _ => none
  | bound + 1, cs =>
    match skipBlanks cs with
    | 'n' :: 'u' :: 'l' :: 'l' :: rest => some (.null, rest)
    | 't' :: 'r' :: 'u' :: 'e' :: rest => some (.bool true, rest)
    | 'f' :: 'a' :: 'l' :: 's' :: 'e' :: rest => some (.bool false, rest)
    | '"' :: rest => (JsonText.scan rest).map fun (s, rest) => (.str s, rest)
    | '[' :: rest =>
      match skipBlanks rest with
      | ']' :: rest => some (.arr [], rest)
      | rest => do
        let (j, rest) ← parseValue bound rest
        let (items, rest) ← parseItems bound rest
        return (.arr (j :: items), rest)
    | '\x7b' :: rest =>
      match skipBlanks rest with
      | '\x7d' :: rest => some (.obj [], rest)
      | rest => do
        let (name, rest) ← parseName rest
        let (j, rest) ← parseValue bound rest
        let (members, rest) ← parseMembers bound rest
        return (.obj ((name, j) :: members), rest)
    | rest => (parseNumber rest).map fun (n, rest) => (.num n, rest)

/-- The items after the first, with the closing bracket. -/
def parseItems : Nat → List Char → Option (List Json × List Char)
  | 0, _ => none
  | bound + 1, cs =>
    match skipBlanks cs with
    | ']' :: rest => some ([], rest)
    | ',' :: rest => do
      let (j, rest) ← parseValue bound rest
      let (items, rest) ← parseItems bound rest
      return (j :: items, rest)
    | _ => none

/-- The members after the first, with the closing brace. -/
def parseMembers : Nat → List Char → Option (List (List Char × Json) × List Char)
  | 0, _ => none
  | bound + 1, cs =>
    match skipBlanks cs with
    | '\x7d' :: rest => some ([], rest)
    | ',' :: rest => do
      let (name, rest) ← parseName rest
      let (j, rest) ← parseValue bound rest
      let (members, rest) ← parseMembers bound rest
      return ((name, j) :: members, rest)
    | _ => none

end

/-- The value that a text spells, blanks around it aside. -/
def parse? (cs : List Char) : Option Json := do
  let (j, rest) ← parseValue (cs.length + 1) cs
  match skipBlanks rest with
  | [] => return j
  | _ => none

end Json

end QueryGraph
