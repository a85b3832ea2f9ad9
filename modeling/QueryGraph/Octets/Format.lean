import QueryGraph.Enumeration
import QueryGraph.Graph.SortedMap
import QueryGraph.Number.BinaryFormat

/-!
# Binary forms of data

How values of a type are written as octets and read from them.

Integers have a fixed width and start with the least octet.  A text, a list and a
map start with their size, eight octets wide, and an optional value with an octet
that says whether it is there.  The members of an enumeration are their positions,
four octets wide.  Parts follow each other without gaps, and what follows a value
is left alone.

Main definitions:

- {lit}`OctetReader`: readers that take octets from the front.
- {lit}`OctetFormat`: writing and reading a type.

Main results:

- {lit}`readNat_natOctets`: reading an integer undoes writing it.
-/

namespace QueryGraph

-- Powers mean the same whatever else is imported.
attribute [local instance (high)] instPowNat

/-- A reader takes octets from the front, or fails. -/
abbrev OctetReader := StateT (List UInt8) Option

/-- The binary form of a type. -/
class OctetFormat (α : Type) where
  octets : α → List UInt8
  readOctets : OctetReader α

export OctetFormat (octets readOctets)

/-! ## Integers -/

/-- A natural as so many octets, the least first. -/
def natOctets : Nat → Nat → List UInt8
  | 0, _ => []
  | width + 1, n => UInt8.ofNat n :: natOctets width (n / 256)

/-- Takes an octet. -/
def readOctet : OctetReader UInt8
  | [] => none
  | b :: rest => some (b, rest)

/-- Takes a natural of so many octets. -/
def readNat : Nat → OctetReader Nat
  | 0 => pure 0
  | width + 1 => do
    let low ← readOctet
    let high ← readNat width
    return low.toNat + 256 * high

theorem readNat_zero (stream : List UInt8) : readNat 0 stream = some (0, stream) :=
  rfl

theorem readNat_succ_cons (width : Nat) (b : UInt8) (rest : List UInt8) :
    readNat (width + 1) (b :: rest) =
      (readNat width rest).bind fun high => some (b.toNat + 256 * high.1, high.2) :=
  rfl

/-- A number takes the octets that it is given. -/
theorem length_natOctets (width n : Nat) : (natOctets width n).length = width := by
  induction width generalizing n with
  | zero => rfl
  | succ width ih => simp [natOctets, ih]

/-- Reading an integer undoes writing it, up to its width. -/
theorem readNat_natOctets (width n : Nat) (rest : List UInt8) :
    readNat width (natOctets width n ++ rest) = some (n % 256 ^ width, rest) := by
  induction width generalizing n with
  | zero =>
    rw [natOctets, List.nil_append, readNat_zero, Nat.pow_zero, Nat.mod_one]
  | succ width ih =>
    have hlow : (UInt8.ofNat n).toNat = n % 256 := UInt8.toNat_ofNat'
    rw [natOctets, List.cons_append, readNat_succ_cons, ih, Option.bind_some, hlow,
      Nat.pow_succ', Nat.mod_mul]

/-- The width of a size. -/
def sizeWidth : Nat := 8

/-- The width of a position among variants. -/
def variantWidth : Nat := 4

/-- The position of a variant. -/
def variantOctets (position : Nat) : List UInt8 :=
  natOctets variantWidth position

instance : OctetFormat Bool where
  octets b := [if b then 1 else 0]
  readOctets := do
    match ← readOctet with
    | 0 => return false
    | 1 => return true
    | _ => failure

instance : OctetFormat UInt64 where
  octets n := natOctets 8 n.toNat
  readOctets := UInt64.ofNat <$> readNat 8

instance : OctetFormat Int16 where
  octets n := natOctets 2 n.toUInt16.toNat
  readOctets := (fun n => Int16.ofInt n) <$> readNat 2

instance : OctetFormat Int32 where
  octets n := natOctets 4 n.toUInt32.toNat
  readOctets := (fun n => Int32.ofInt n) <$> readNat 4

instance : OctetFormat Int64 where
  octets n := natOctets 8 n.toUInt64.toNat
  readOctets := (fun n => Int64.ofInt n) <$> readNat 8

instance : OctetFormat Binary32 where
  octets x := natOctets 4 x.bits.toNat
  readOctets := (fun n => ⟨BitVec.ofNat _ n⟩) <$> readNat 4

instance : OctetFormat Binary64 where
  octets x := natOctets 8 x.bits.toNat
  readOctets := (fun n => ⟨BitVec.ofNat _ n⟩) <$> readNat 8

instance {α : Type} [DecidableEq α] [Enumeration α] : OctetFormat α where
  octets a := variantOctets (Enumeration.position a)
  readOctets := do
    match Enumeration.ofPosition? (← readNat variantWidth) with
    | some a => return a
    | none => failure

/-! ## Texts and collections -/

/-- Takes so many octets. -/
def readOctetList (count : Nat) : OctetReader (List UInt8) := fun input =>
  let taken := input.take count
  if taken.length = count then some (taken, input.drop count) else none

/-- Reads so many values. -/
def readMany {α : Type} (read : OctetReader α) : Nat → OctetReader (List α)
  | 0 => return []
  | count + 1 => do
    let a ← read
    let rest ← readMany read count
    return a :: rest

/-- The octets of a text. -/
def textOctets (text : String) : List UInt8 :=
  text.toByteArray.data.toList

instance : OctetFormat String where
  octets s := natOctets sizeWidth (textOctets s).length ++ textOctets s
  readOctets := do
    let size ← readNat sizeWidth
    let list ← readOctetList size
    match String.fromUTF8? ⟨list.toArray⟩ with
    | some s => return s
    | none => failure

variable {α : Type} [OctetFormat α]

instance : OctetFormat (Option α) where
  octets
    | none => [0]
    | some a => 1 :: octets a
  readOctets := do
    if (← readOctets : Bool) then return some (← readOctets) else return none

instance : OctetFormat (List α) where
  octets items := natOctets sizeWidth items.length ++ items.flatMap octets
  readOctets := do
    let size ← readNat sizeWidth
    readMany readOctets size

instance : OctetFormat (IdMap α) where
  octets m :=
    natOctets sizeWidth m.size ++ m.entries.flatMap fun (id, a) => octets id ++ octets a
  readOctets := do
    let size ← readNat sizeWidth
    let entries ← readMany (do return (← readOctets, ← readOctets)) size
    return SortedMap.ofList entries

end QueryGraph
