import QueryGraph.Json.Basic
import QueryGraph.Number.Arithmetic
import QueryGraph.Number.Decimal

/-!
# Numbers in JSON

How floating point numbers are written as JSON numbers, and what JSON numbers
are read as.

A number is written with the fewest digits that read back when rounded correctly.
The reader rounds less carefully: it gathers digits as long as they fit 64 bits,
takes what it has as a floating point number, and then multiplies or divides by a
power of ten, which rounds again.

Main definitions:

- {lit}`JsonNumber.ofFloat?`: writes a floating point number, if it is finite.
- {lit}`JsonNumber.integer?`: the integer that a number spells.
- {lit}`JsonNumber.toDouble?`: the floating point number that a number is read as.
-/

namespace QueryGraph

-- Powers mean the same whatever else is imported.
attribute [local instance (high)] instPowNat

/-- The exponents of the first digit for which a number is written without an
exponent. -/
structure PlainRange where
  least : Int
  greatest : Int
deriving DecidableEq, Repr

namespace PlainRange

/-- Four byte numbers from a millionth to below ten to the thirteenth. -/
def single : PlainRange :=
  ⟨-6, 12⟩

/-- Eight byte numbers from a hundred thousandth to below ten to the sixteenth. -/
def double : PlainRange :=
  ⟨-5, 15⟩

end PlainRange

namespace JsonNumber

/-- A decimal as a number: with at least one digit after the point in the plain
range, and else with one digit before the point and an exponent. -/
def ofDecimal (range : PlainRange) (negative : Bool) (d : Decimal) : JsonNumber :=
  let e := d.leadingExponent
  if range.least ≤ e ∧ e ≤ range.greatest then
    let (whole, fraction) := d.positional
    ⟨negative, natOfDigits whole, if fraction.isEmpty then [Digit.zero] else fraction, none⟩
  else ⟨negative, natOfDigits (d.digits.take 1), d.digits.drop 1, some e⟩

/-- A finite floating point number as a number.  Zero keeps its sign, and of two
equally near decimals the even one is written. -/
def ofFloat? {f : BinaryFormat} (range : PlainRange) (x : BinaryFloat f) : Option JsonNumber :=
  match x.value with
  | .nan | .infinite _ => none
  | .finite s 0 _ => some ⟨s, 0, [Digit.zero], none⟩
  | .finite s _ _ => some (ofDecimal range s (f.shortest .toEven x.magnitude))

/-- Whether a number is spelled as an integer. -/
def isWhole (n : JsonNumber) : Bool :=
  n.fraction.isEmpty && n.exponent.isNone

/-- The integer that a number spells.  Zero with a sign is none. -/
def integer? (n : JsonNumber) : Option Int :=
  if !n.isWhole || (n.negative && n.whole = 0) then none
  else some (if n.negative then -(n.whole : Int) else n.whole)

/-! ## Reading floating point numbers -/

/-- The bound of what digits are gathered into. -/
def significandBound : Nat := UInt64.size

/-- Gathers digits behind a significand as long as it stays in bounds, and gives
the digits that are left over. -/
def gather (significand : Nat) : List Digit → Nat × List Digit
  | [] => (significand, [])
  | d :: rest =>
    let next := 10 * significand + d.val
    if next < significandBound then gather next rest else (significand, d :: rest)

/-- The significand that the digits of a number are gathered into, and the power
of ten it has to be multiplied by, exponent aside. -/
def gathered (n : JsonNumber) : Nat × Int :=
  let (whole, excess) := gather 0 (digitsOfNat n.whole)
  let (significand, unused) := gather whole n.fraction
  (significand, (excess.length : Int) - (n.fraction.length - unused.length : Nat))

/-- The greatest exponent whose power of ten is at hand. -/
def powerLimit : Nat := 308

/-- A power of ten as a floating point number. -/
def powerOfTen (e : Nat) : Binary64 :=
  .ofFraction .double false (10 ^ e) 1

/-- A floating point number times a power of ten, in steps of the greatest power
at hand.  A product beyond all bounds is no number. -/
def scale (x : Binary64) (e : Int) : Option Binary64 :=
  if 0 ≤ e then
    if e ≤ powerLimit then
      let y := x.mul (powerOfTen e.toNat)
      if y.magnitude = BinaryFormat.double.infinity then none else some y
    else if x.isZero then some x else none
  else if -e ≤ powerLimit then some (x.div (powerOfTen (-e).toNat))
  else if x.isZero then some x
  else scale (x.div (powerOfTen powerLimit)) (e + powerLimit)
termination_by (-e).toNat
decreasing_by
  simp only [powerLimit] at *
  omega

/-- The greatest exponent that is read as it is.  Beyond it a number is zero or
beyond all bounds. -/
def exponentLimit : Nat := 2 ^ (31 : Nat) - 1

/-- The magnitude that a number is read as. -/
def magnitude? (n : JsonNumber) : Option Binary64 :=
  if n.isWhole ∧ n.whole < significandBound then some (.ofFraction .double false n.whole 1)
  else
    let (significand, shift) := n.gathered
    let e := n.exponent.getD 0
    if exponentLimit < e.natAbs then
      if significand ≠ 0 ∧ 0 < e then none else some (.zero .double false)
    else scale (.ofFraction .double false significand 1) (shift + e)

/-- The eight byte number that a number is read as. -/
def toDouble? (n : JsonNumber) : Option Binary64 :=
  n.magnitude?.map fun x => if n.negative then x.neg else x

/-- The four byte number that a number is read as: integers are rounded once, all
others to eight bytes first. -/
def toSingle? (n : JsonNumber) : Option Binary32 :=
  match n.integer? with
  | some i =>
    if Int64.minValue.toInt ≤ i ∧ i < UInt64.size then some (.ofInt .single i)
    else n.toDouble?.map (·.convert .single)
  | none => n.toDouble?.map (·.convert .single)

end JsonNumber

end QueryGraph
