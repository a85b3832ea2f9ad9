import QueryGraph.Number.BinaryFormat

/-!
# Floating point arithmetic

Every operation computes the exact result on naturals and integers and rounds
once.  What is left to say by hand is the arithmetic of infinities and the sign
of zero.

Main definitions:

- {lit}`BinaryFloat.add`, {lit}`BinaryFloat.sub`, {lit}`BinaryFloat.mul`,
  {lit}`BinaryFloat.div`: correctly rounded operations.
- {lit}`BinaryFloat.rem`: the remainder of division toward zero, which is exact.
-/

namespace QueryGraph

-- Powers mean the same whatever else is imported.
attribute [local instance (high)] instPowNat

namespace BinaryFloat

variable {f : BinaryFormat}

/-- An unsigned amount with a sign. -/
def signedAmount (negative : Bool) (amount : Nat) : Int :=
  if negative then -(amount : Int) else amount

/-- The number with the other sign. -/
def neg (x : BinaryFloat f) : BinaryFloat f :=
  ofMagnitude f (!x.negative) x.magnitude

/-- The sum.  An exact zero is negative only if both terms are. -/
def add (x y : BinaryFloat f) : BinaryFloat f :=
  match x.value, y.value with
  | .nan, _ | _, .nan => nan f
  | .infinite s, .infinite t => if s = t then infinite f s else nan f
  | .infinite s, .finite .. => infinite f s
  | .finite .., .infinite t => infinite f t
  | .finite s m p, .finite t n q =>
    let e := min p q
    let total := signedAmount s (m * 2 ^ (p - e).toNat) + signedAmount t (n * 2 ^ (q - e).toNat)
    if total = 0 then zero f (s && t) else ofScaled f (total < 0) total.natAbs e

/-- The difference. -/
def sub (x y : BinaryFloat f) : BinaryFloat f :=
  if y.isNaN then nan f else add x y.neg

/-- The product. -/
def mul (x y : BinaryFloat f) : BinaryFloat f :=
  match x.value, y.value with
  | .nan, _ | _, .nan => nan f
  | .infinite s, .infinite t => infinite f (s ^^ t)
  | .infinite s, .finite t n _ => if n = 0 then nan f else infinite f (s ^^ t)
  | .finite s m _, .infinite t => if m = 0 then nan f else infinite f (s ^^ t)
  | .finite s m p, .finite t n q => ofScaled f (s ^^ t) (m * n) (p + q)

/-- The quotient. -/
def div (x y : BinaryFloat f) : BinaryFloat f :=
  match x.value, y.value with
  | .nan, _ | _, .nan => nan f
  | .infinite _, .infinite _ => nan f
  | .infinite s, .finite t _ _ => infinite f (s ^^ t)
  | .finite s _ _, .infinite t => zero f (s ^^ t)
  | .finite s m p, .finite t n q =>
    if n = 0 then if m = 0 then nan f else infinite f (s ^^ t)
    else ofFraction f (s ^^ t) (m * 2 ^ (p - q).toNat) (n * 2 ^ (q - p).toNat)

/-- The remainder of the quotient cut toward zero.  It has the sign of the
dividend, also where it is zero. -/
def rem (x y : BinaryFloat f) : BinaryFloat f :=
  match x.value, y.value with
  | .nan, _ | _, .nan => nan f
  | .infinite _, _ => nan f
  | .finite .., .infinite _ => x
  | .finite s m p, .finite _ n q =>
    if n = 0 then nan f
    else
      let e := min p q
      ofScaled f s (m * 2 ^ (p - e).toNat % (n * 2 ^ (q - e).toNat)) e

end BinaryFloat

end QueryGraph
