import QueryGraph.Number.BinaryFormat

/-!
# Decimal numerals

Digits of naturals, and the shortest decimal that reads back as a given floating
point number.

For one digit, two digits and so on, the two neighbours of the number on that
decimal grid are read back; the first grid with a hit wins, and of two hits the
nearer.  If any point of a grid reads back, so does one of the two neighbours,
because the reals that round to one pattern form an interval.

Main definitions:

- {lit}`Decimal`: digits and the place of the point.
- {lit}`BinaryFormat.shortest`: the shortest decimal of an unsigned pattern.
- {lit}`Decimal.positional`: digits with a point and no exponent.
-/

namespace QueryGraph

-- Powers mean the same whatever else is imported.
attribute [local instance (high)] instPowNat

/-- A decimal digit. -/
abbrev Digit := Fin 10

/-- The digit zero. -/
def Digit.zero : Digit := 0

/-- The character of a digit. -/
def Digit.toChar (d : Digit) : Char :=
  Nat.digitChar d

/-- The digit that a character stands for. -/
def Digit.ofChar? (c : Char) : Option Digit :=
  if c.isDigit then some (Fin.ofNat 10 (c.toNat - '0'.toNat)) else none

/-- The digits of a natural, most significant first. -/
def digitsOfNat (n : Nat) : List Digit :=
  (Nat.toDigits 10 n).filterMap Digit.ofChar?

/-- The natural with the given digits, most significant first. -/
def natOfDigits (digits : List Digit) : Nat :=
  digits.foldl (fun n d => 10 * n + d.val) 0

/-- A positive decimal: the digits after the point of {lit}`0.d₁d₂…`, times
{lit}`10 ^ point`. -/
structure Decimal where
  /-- The digits, most significant first. -/
  digits : List Digit
  /-- How many places the point stands right of the first digit's left side. -/
  point : Int
deriving DecidableEq, Repr

/-- Which of two equally near decimals is taken. -/
inductive Tie where
  /-- The one whose last digit is even. -/
  | toEven
  /-- The greater one. -/
  | up
deriving DecidableEq, Repr

namespace Decimal

/-- The decimal {lit}`coefficient * 10 ^ exponent` without trailing zeros. -/
def ofScaled (coefficient : Nat) (exponent : Int) : Decimal :=
  let digits := digitsOfNat coefficient
  { digits := (digits.reverse.dropWhile (· = 0)).reverse
    point := digits.length + exponent }

/-- The exponent of the first digit. -/
def leadingExponent (d : Decimal) : Int :=
  d.point - 1

/-- The digits before and after the point, without any exponent.  The integer
part has at least one digit. -/
def positional (d : Decimal) : List Digit × List Digit :=
  if d.point ≤ 0 then
    ([Digit.zero], List.replicate (-d.point).toNat 0 ++ d.digits)
  else
    let n := d.point.toNat
    (d.digits.take n ++ List.replicate (n - d.digits.length) 0, d.digits.drop n)

end Decimal

/-- The least {lit}`k` with {lit}`num / den < 10 ^ k`, for a positive
fraction. -/
def decimalPoint (num den : Nat) : Int :=
  let k : Int := (Nat.toDigits 10 num).length - (Nat.toDigits 10 den).length
  if num * 10 ^ (-k).toNat < den * 10 ^ k.toNat then k else k + 1

namespace BinaryFormat

/-- The point of the grid of {lit}`10 ^ exponent` that reads back as a pattern and
is nearest to {lit}`num / den`, if one of the two neighbours does. -/
def gridPoint? (f : BinaryFormat) (tie : Tie) (magnitude num den : Nat) (exponent : Int) :
    Option Nat :=
  let scaledNum := num * 10 ^ (-exponent).toNat
  let scaledDen := den * 10 ^ exponent.toNat
  let lower := scaledNum / scaledDen
  let readsBack (c : Nat) : Bool :=
    f.roundMagnitude (c * 10 ^ exponent.toNat) (10 ^ (-exponent).toNat) = magnitude
  match readsBack lower, readsBack (lower + 1) with
  | true, true =>
    let twice := 2 * (scaledNum % scaledDen)
    if twice < scaledDen then some lower
    else if scaledDen < twice then some (lower + 1)
    else match tie with
      | .toEven => some (lower + lower % 2)
      | .up => some (lower + 1)
  | true, false => some lower
  | false, true => some (lower + 1)
  | false, false => none

/-- No number of the formats used here needs more digits than this. -/
def digitLimit : Nat := 17

/-- The shortest decimal that reads back as a positive finite pattern, and the
nearest of those. -/
def shortest (f : BinaryFormat) (tie : Tie) (magnitude : Nat) : Decimal :=
  match (BinaryFloat.ofMagnitude f false magnitude).value with
  | .finite _ m e =>
    let num := m * 2 ^ e.toNat
    let den := 2 ^ (-e).toNat
    let point := decimalPoint num den
    let candidate (n : Nat) : Option Decimal :=
      let exponent := point - (n + 1 : Nat)
      (f.gridPoint? tie magnitude num den exponent).map (Decimal.ofScaled · exponent)
    ((List.range digitLimit).findSome? candidate).getD ⟨[], 0⟩
  | _ => ⟨[], 0⟩

end BinaryFormat

end QueryGraph
