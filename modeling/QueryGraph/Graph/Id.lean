/-!
# Identifiers

Plan nodes are known by 64 bit identifiers.  A supply hands them out one after
the other; after the last one it starts over.

Main definitions:

- {lit}`IdSupply.take`: the next identifier and the supply after it.
- {lit}`Planning`: computations that draw identifiers from a supply.
-/

namespace QueryGraph

/-- The identifier of a plan node. -/
abbrev NodeId := UInt64

/-- A supply of identifiers. -/
structure IdSupply where
  /-- The identifier that is handed out next. -/
  next : NodeId
deriving DecidableEq, Repr

namespace IdSupply

/-- The supply that starts at zero. -/
def initial : IdSupply :=
  ⟨0⟩

/-- The next identifier and the supply after it. -/
def take (s : IdSupply) : NodeId × IdSupply :=
  (s.next, ⟨s.next + 1⟩)

@[simp] theorem take_fst (s : IdSupply) : s.take.1 = s.next := rfl

@[simp] theorem take_snd (s : IdSupply) : s.take.2 = ⟨s.next + 1⟩ := rfl

end IdSupply

/-- Computations that draw identifiers from a supply. -/
abbrev Planning := StateM IdSupply

/-- Draws an identifier. -/
def freshId : Planning NodeId :=
  fun s => s.take

end QueryGraph
