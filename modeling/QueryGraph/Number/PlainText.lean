import QueryGraph.Number.Decimal

/-!
# Plain text of floating point numbers

The text of a number has the fewest digits that read back, never an exponent, and
no point where the number is whole.  Zero keeps its sign.

Main definitions:

- {lit}`Digit.render`: a run of digits as text.
- {lit}`BinaryFloat.render`: the text of a number.
-/

namespace QueryGraph

/-- A run of digits as text. -/
def Digit.render (digits : List Digit) : String :=
  String.ofList (digits.map Digit.toChar)

namespace Decimal

/-- The text of a decimal without an exponent, and without a point where nothing
follows it. -/
def plainText (d : Decimal) : String :=
  match d.positional with
  | (whole, []) => Digit.render whole
  | (whole, fraction) => Digit.render whole ++ "." ++ Digit.render fraction

end Decimal

/-- The text of a sign, which only negative numbers have. -/
def signText (negative : Bool) : String :=
  if negative then "-" else ""

/-- The plain text of a number.  Of two equally near decimals it has the greater
one. -/
def BinaryFloat.render {f : BinaryFormat} (x : BinaryFloat f) : String :=
  match x.value with
  | .nan => "NaN"
  | .infinite s => signText s ++ "inf"
  | .finite s 0 _ => signText s ++ "0"
  | .finite s _ _ => signText s ++ (f.shortest .up x.magnitude).plainText

end QueryGraph
