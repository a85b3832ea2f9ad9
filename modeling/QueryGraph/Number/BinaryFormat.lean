/-!
# Binary floating point formats

A binary format is fixed by two widths: the digits of its significand and the
digits of its exponent.  A number of the format is a bit pattern, and everything
else about it is read off that pattern with exact arithmetic on naturals.

Rounding takes any non-negative fraction to the nearest pattern, a tie going to
the even one.  It rests on one fact about the layout: if the last significand
digit weighs {lit}`2 ^ q`, the pattern of {lit}`m * 2 ^ q` is
{lit}`(q - minExponent) * 2 ^ (precision - 1) + m`, for subnormal numbers, for
normal numbers, and also where rounding carried {lit}`m` to the next power of
two.

Main definitions:

- {lit}`BinaryFloat.value`: what a bit pattern stands for.
- {lit}`BinaryFloat.ofFraction`: the nearest pattern to a fraction.
- {lit}`BinaryFloat.orderKey`: an integer that orders the patterns as numbers.
-/

namespace QueryGraph

-- Powers mean the same whatever else is imported.
attribute [local instance (high)] instPowNat

/-- A binary floating point format. -/
structure BinaryFormat where
  /-- Significand digits, the implicit leading one included. -/
  precision : Nat
  /-- Digits of the biased exponent. -/
  exponentWidth : Nat
deriving DecidableEq, Repr

namespace BinaryFormat

/-- The four byte format. -/
def single : BinaryFormat := ⟨24, 8⟩

/-- The eight byte format. -/
def double : BinaryFormat := ⟨53, 11⟩

/-- Bits of a pattern without its sign. -/
def magnitudeWidth (f : BinaryFormat) : Nat :=
  f.precision - 1 + f.exponentWidth

/-- Bits of a pattern. -/
def width (f : BinaryFormat) : Nat :=
  f.magnitudeWidth + 1

/-- The last significand digit of the smallest numbers weighs
{lit}`2 ^ minExponent`. -/
def minExponent (f : BinaryFormat) : Int :=
  3 - 2 ^ (f.exponentWidth - 1) - f.precision

/-- The unsigned pattern of infinity.  Smaller patterns are finite numbers in
ascending order and greater ones are no numbers. -/
def infinity (f : BinaryFormat) : Nat :=
  (2 ^ f.exponentWidth - 1) * 2 ^ (f.precision - 1)

end BinaryFormat

/-- What a bit pattern stands for. -/
inductive FloatValue where
  /-- Not a number. -/
  | nan
  /-- An infinity. -/
  | infinite (negative : Bool)
  /-- The number {lit}`mantissa * 2 ^ exponent` with a sign, which zero has too. -/
  | finite (negative : Bool) (mantissa : Nat) (exponent : Int)
deriving DecidableEq, Repr

/-! ## Rounding fractions -/

/-- The nearest natural to {lit}`num / den`, the even one on a tie. -/
def roundHalfEven (num den : Nat) : Nat :=
  let quotient := num / den
  let twice := 2 * (num % den)
  if twice < den then quotient
  else if den < twice then quotient + 1
  else quotient + quotient % 2

/-- The greatest {lit}`e` with {lit}`2 ^ e ≤ num / den`, for a positive
fraction. -/
def floorLog2 (num den : Nat) : Int :=
  let e : Int := num.log2 - den.log2
  if den * 2 ^ e.toNat ≤ num * 2 ^ (-e).toNat then e else e - 1

/-- The unsigned pattern nearest to {lit}`num / den`.  What is too great for a
finite pattern becomes infinity. -/
def BinaryFormat.roundMagnitude (f : BinaryFormat) (num den : Nat) : Nat :=
  if num = 0 then 0 else
    let q := max f.minExponent (floorLog2 num den - (f.precision - 1 : Nat))
    let m := roundHalfEven (num * 2 ^ (-q).toNat) (den * 2 ^ q.toNat)
    min f.infinity ((q - f.minExponent).toNat * 2 ^ (f.precision - 1) + m)

/-! ## Bit patterns -/

/-- A number of a binary format, given by its bit pattern. -/
structure BinaryFloat (f : BinaryFormat) where
  /-- The pattern: sign, biased exponent, significand without its leading one. -/
  bits : BitVec f.width
deriving DecidableEq, Repr

/-- A four byte floating point number. -/
abbrev Binary32 := BinaryFloat .single

/-- An eight byte floating point number. -/
abbrev Binary64 := BinaryFloat .double

namespace BinaryFloat

variable {f g : BinaryFormat}

/-- The sign of a pattern. -/
def negative (x : BinaryFloat f) : Bool :=
  x.bits.msb

/-- The pattern without its sign. -/
def magnitude (x : BinaryFloat f) : Nat :=
  x.bits.toNat % 2 ^ f.magnitudeWidth

/-- The pattern with a sign and an unsigned part. -/
def ofMagnitude (f : BinaryFormat) (negative : Bool) (magnitude : Nat) : BinaryFloat f :=
  ⟨BitVec.ofNat _ ((if negative then 2 ^ f.magnitudeWidth else 0) + magnitude)⟩

/-- Whether the pattern stands for no number. -/
def isNaN (x : BinaryFloat f) : Bool :=
  f.infinity < x.magnitude

/-- What the pattern stands for.  A zero biased exponent leaves out the leading
one and has the weight of exponent one. -/
def value (x : BinaryFloat f) : FloatValue :=
  let mag := x.magnitude
  let biased := mag / 2 ^ (f.precision - 1)
  let fraction := mag % 2 ^ (f.precision - 1)
  if mag = f.infinity then .infinite x.negative
  else if f.infinity < mag then .nan
  else if biased = 0 then .finite x.negative fraction f.minExponent
  else .finite x.negative (fraction + 2 ^ (f.precision - 1)) (f.minExponent + (biased - 1 : Nat))

/-- The positive quiet pattern that stands for no number. -/
def nan (f : BinaryFormat) : BinaryFloat f :=
  ofMagnitude f false (f.infinity + 2 ^ (f.precision - 2))

/-- An infinity. -/
def infinite (f : BinaryFormat) (negative : Bool) : BinaryFloat f :=
  ofMagnitude f negative f.infinity

/-- A zero. -/
def zero (f : BinaryFormat) (negative : Bool) : BinaryFloat f :=
  ofMagnitude f negative 0

/-- The pattern nearest to {lit}`num / den`, with a sign. -/
def ofFraction (f : BinaryFormat) (negative : Bool) (num den : Nat) : BinaryFloat f :=
  ofMagnitude f negative (f.roundMagnitude num den)

/-- The pattern nearest to {lit}`mantissa * 2 ^ exponent`, with a sign. -/
def ofScaled (f : BinaryFormat) (negative : Bool) (mantissa : Nat) (exponent : Int) :
    BinaryFloat f :=
  ofFraction f negative (mantissa * 2 ^ exponent.toNat) (2 ^ (-exponent).toNat)

/-- The pattern nearest to an integer. -/
def ofInt (f : BinaryFormat) (i : Int) : BinaryFloat f :=
  ofFraction f (i < 0) i.natAbs 1

/-- The nearest number of another format. -/
def convert (g : BinaryFormat) (x : BinaryFloat f) : BinaryFloat g :=
  match x.value with
  | .nan => nan g
  | .infinite s => infinite g s
  | .finite s m e => ofScaled g s m e

/-! ## Order -/

/-- An integer that orders the numbers of the format; both zeros have key zero
and what is no number has none. -/
def orderKey (x : BinaryFloat f) : Option Int :=
  if x.isNaN then none
  else some (if x.negative then -(x.magnitude : Int) else x.magnitude)

/-- The order of two numbers, unknown when one of them is no number. -/
def compare? (x y : BinaryFloat f) : Option Ordering :=
  match x.orderKey, y.orderKey with
  | some a, some b => some (compare a b)
  | _, _ => none

/-- Equality as numbers: the zeros are equal, and what is no number equals
nothing. -/
def sameValue (x y : BinaryFloat f) : Bool :=
  match x.orderKey, y.orderKey with
  | some a, some b => a == b
  | _, _ => false

/-- Numbers are equal if they have the same place in the order; what is no number has none. -/
theorem sameValue_eq_true_iff {x y : BinaryFloat f} :
    x.sameValue y = true ↔ ∃ k, x.orderKey = some k ∧ y.orderKey = some k := by
  unfold sameValue
  cases x.orderKey <;> cases y.orderKey <;> simp only [reduceCtorEq, and_false, false_and,
    exists_false, Bool.false_eq_true, beq_iff_eq, Option.some.injEq, exists_eq_left']
  exact eq_comm

theorem sameValue_comm (x y : BinaryFloat f) : x.sameValue y = y.sameValue x := by
  rw [Bool.eq_iff_iff, sameValue_eq_true_iff, sameValue_eq_true_iff]
  exact exists_congr fun _ => and_comm

/-- Numbers that equal a third one are equal. -/
theorem sameValue_trans {x y z : BinaryFloat f} (hxy : x.sameValue y = true)
    (hyz : y.sameValue z = true) : x.sameValue z = true := by
  obtain ⟨a, hx, hy⟩ := sameValue_eq_true_iff.1 hxy
  obtain ⟨b, hy', hz⟩ := sameValue_eq_true_iff.1 hyz
  have hab : a = b := by simpa [hy] using hy'
  exact sameValue_eq_true_iff.2 ⟨a, hx, hab ▸ hz⟩

/-- Whether the number is a zero. -/
def isZero (x : BinaryFloat f) : Bool :=
  x.magnitude = 0

end BinaryFloat

end QueryGraph
