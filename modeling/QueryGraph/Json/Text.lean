import QueryGraph.Number.Decimal

/-!
# Text in JSON strings

Between its quotes a JSON string spells quotes, backslashes and control
characters by escapes, and may spell any character so.  Characters beyond the
basic plane are escaped as a pair of surrogates; a lone surrogate stands for no
character.

Main definitions:

- {lit}`JsonText.encode`: the spelling of a text, with as few escapes as possible.
- {lit}`JsonText.decode`: the text that a spelling stands for.
- {lit}`JsonText.scan`: splits a spelling from what follows its closing quote.
-/

namespace QueryGraph

namespace JsonText

/-- The hexadecimal digit of a character. -/
def hexDigit? (c : Char) : Option Nat :=
  if c.isDigit then some (c.toNat - '0'.toNat)
  else if 'a' ≤ c ∧ c ≤ 'f' then some (c.toNat - 'a'.toNat + 10)
  else if 'A' ≤ c ∧ c ≤ 'F' then some (c.toNat - 'A'.toNat + 10)
  else none

/-- The number that four hexadecimal digits stand for. -/
def hexQuad? (a b c d : Char) : Option Nat := do
  let a ← hexDigit? a
  let b ← hexDigit? b
  let c ← hexDigit? c
  let d ← hexDigit? d
  return ((a * 16 + b) * 16 + c) * 16 + d

/-- The letter that escapes a character, where there is one. -/
def escapeLetter? (c : Char) : Option Char :=
  if c = '"' then some '"'
  else if c = '\\' then some '\\'
  else if c = '\x08' then some 'b'
  else if c = '\x0c' then some 'f'
  else if c = '\n' then some 'n'
  else if c = '\r' then some 'r'
  else if c = '\t' then some 't'
  else none

/-- The character that a letter after a backslash stands for. -/
def escapedBy? (letter : Char) : Option Char :=
  if letter = '"' then some '"'
  else if letter = '\\' then some '\\'
  else if letter = '/' then some '/'
  else if letter = 'b' then some '\x08'
  else if letter = 'f' then some '\x0c'
  else if letter = 'n' then some '\n'
  else if letter = 'r' then some '\r'
  else if letter = 't' then some '\t'
  else none

/-- Whether a character may not stand in a string as it is. -/
def isControl (c : Char) : Bool :=
  c.toNat < 0x20

/-- The spelling of a character. -/
def encodeChar (c : Char) : List Char :=
  match escapeLetter? c with
  | some letter => ['\\', letter]
  | none =>
    if isControl c then
      ['\\', 'u', '0', '0', Nat.digitChar (c.toNat / 16), Nat.digitChar (c.toNat % 16)]
    else [c]

/-- The spelling of a text. -/
def encode (text : List Char) : List Char :=
  text.flatMap encodeChar

/-- Whether a number is the first half of a surrogate pair. -/
def isHighSurrogate (n : Nat) : Bool :=
  0xD800 ≤ n && n ≤ 0xDBFF

/-- Whether a number is the second half of a surrogate pair. -/
def isLowSurrogate (n : Nat) : Bool :=
  0xDC00 ≤ n && n ≤ 0xDFFF

/-- The character of a surrogate pair. -/
def ofSurrogates (high low : Nat) : Char :=
  Char.ofNat (0x10000 + (high - 0xD800) * 0x400 + (low - 0xDC00))

/-- The text that a spelling stands for. -/
def decode : List Char → Option (List Char)
  | [] => some []
  | '\\' :: 'u' :: a :: b :: c :: d :: rest =>
    match hexQuad? a b c d with
    | none => none
    | some n =>
      if isLowSurrogate n then none
      else if isHighSurrogate n then
        match rest with
        | '\\' :: 'u' :: e :: f :: g :: h :: rest =>
          match hexQuad? e f g h with
          | none => none
          | some m => if isLowSurrogate m then (decode rest).map (ofSurrogates n m :: ·) else none
        | _ => none
      else (decode rest).map (Char.ofNat n :: ·)
  | '\\' :: letter :: rest =>
    match escapedBy? letter with
    | none => none
    | some c => (decode rest).map (c :: ·)
  | c :: rest =>
    if c = '\\' then none else (decode rest).map (c :: ·)

/-- Splits a spelling from what follows its closing quote.  Escapes have to be
complete, but may stand for lone surrogates, and control characters have to be
escaped. -/
def scan : List Char → Option (List Char × List Char)
  | [] => none
  | '\\' :: 'u' :: a :: b :: c :: d :: rest =>
    match hexQuad? a b c d with
    | none => none
    | some _ => (scan rest).map fun (s, r) => ('\\' :: 'u' :: a :: b :: c :: d :: s, r)
  | '\\' :: letter :: rest =>
    match escapedBy? letter with
    | none => none
    | some _ => (scan rest).map fun (s, r) => ('\\' :: letter :: s, r)
  | c :: rest =>
    if c = '"' then some ([], rest)
    else if c = '\\' || isControl c then none
    else (scan rest).map fun (s, r) => (c :: s, r)

end JsonText

end QueryGraph
