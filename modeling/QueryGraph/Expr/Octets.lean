import QueryGraph.Expr.Basic
import QueryGraph.Octets.Format

/-!
# Binary form of expressions

Main definitions:

- {lit}`Expr.writeOctets`, {lit}`Expr.readOctetsWithin`: writing and reading an
  expression.
-/

namespace QueryGraph

namespace Datum

/-- Writes a value. -/
def writeOctets : Datum → List UInt8
  | .null => variantOctets 0
  | .boolean v => variantOctets 1 ++ octets v
  | .int2 v => variantOctets 2 ++ octets v
  | .int4 v => variantOctets 3 ++ octets v
  | .int8 v => variantOctets 4 ++ octets v
  | .float4 v => variantOctets 5 ++ octets v
  | .float8 v => variantOctets 6 ++ octets v
  | .text v => variantOctets 7 ++ octets v

instance : OctetFormat Datum where
  octets := writeOctets
  readOctets := do
    match ← readNat variantWidth with
    | 0 => return .null
    | 1 => return .boolean (← readOctets)
    | 2 => return .int2 (← readOctets)
    | 3 => return .int4 (← readOctets)
    | 4 => return .int8 (← readOctets)
    | 5 => return .float4 (← readOctets)
    | 6 => return .float8 (← readOctets)
    | 7 => return .text (← readOctets)
    | _ => failure

end Datum

instance : OctetFormat Column where
  octets c := octets c.name ++ octets c.dataType
  readOctets := do return ⟨← readOctets, ← readOctets⟩

instance : OctetFormat Schema where
  octets s := octets s.columns
  readOctets := do return ⟨← readOctets⟩

namespace Expr

/-- Writes an expression. -/
def writeOctets : Expr → List UInt8
  | .const d => variantOctets 0 ++ octets d
  | .field c => variantOctets 1 ++ octets c
  | .binary k l r t =>
    variantOctets 2 ++ octets k ++ l.writeOctets ++ r.writeOctets ++ octets t

/-- Reads an expression of bounded height. -/
def readOctetsWithin : Nat → OctetReader Expr
  | 0 => failure
  | bound + 1 => do
    match ← readNat variantWidth with
    | 0 => return .const (← readOctets)
    | 1 => return .field (← readOctets)
    | 2 =>
      let kind ← readOctets
      let left ← readOctetsWithin bound
      let right ← readOctetsWithin bound
      return .binary kind left right (← readOctets)
    | _ => failure

/-- An expression takes more octets than it is high. -/
instance : OctetFormat Expr where
  octets := writeOctets
  readOctets input := readOctetsWithin (input.length + 1) input

end Expr

end QueryGraph
