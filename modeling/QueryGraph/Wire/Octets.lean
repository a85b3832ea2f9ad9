import QueryGraph.Node.Octets
import QueryGraph.Wire.Basic

/-!
# Plans as octets

Main definitions:

- {lit}`Plan.toOctets`, {lit}`Plan.ofOctets`: plans as octets.
-/

namespace QueryGraph

instance : OctetFormat InputScans where
  octets s := octets s.scans
  readOctets := do return ⟨← readOctets⟩

instance : OctetFormat ParentRef where
  octets p := octets p.parent ++ octets p.edgeType
  readOctets := do return ⟨← readOctets, ← readOctets⟩

instance : OctetFormat Wire where
  octets w :=
    octets w.supplyState ++ octets w.hasJoin ++ octets w.hasUnion ++ octets w.inputs
      ++ octets w.terminal ++ octets w.vertices ++ octets w.adjacency
  readOctets := do
    return {
      supplyState := ← readOctets
      hasJoin := ← readOctets
      hasUnion := ← readOctets
      inputs := ← readOctets
      terminal := ← readOctets
      vertices := ← readOctets
      adjacency := ← readOctets }

/-- The wire that octets stand for.  What follows it is left alone. -/
def Wire.ofOctets? (input : List UInt8) : Option Wire :=
  ((readOctets : OctetReader Wire).run input).map Prod.fst

namespace Plan

/-- The octets of a plan. -/
def toOctets (p : Plan) (supply : IdSupply) : List UInt8 :=
  octets (p.toWire supply)

/-- The plan that octets stand for, with the supply of its identifiers. -/
def ofOctets (input : List UInt8) (config : PlannerConfig) :
    Except DecodeError (Plan × IdSupply) :=
  match Wire.ofOctets? input with
  | some w => w.toPlan config
  | none => .error .malformedBytes

end Plan

end QueryGraph
