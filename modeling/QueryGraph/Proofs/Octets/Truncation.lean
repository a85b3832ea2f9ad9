import QueryGraph.Proofs.Octets.Plans

/-!
# Octets whose end is missing

A reader takes octets from the front and never asks how many there are.  What it takes of
some octets, it also takes where more octets follow them.  So it cannot come to its end on a
part of a form: it would come to the same end on the whole form, and leave octets of it.

Expressions and trees are read with a bound that grows with the octets.  This does no harm,
because a reader with a greater bound takes what one with a smaller bound takes.

Main definitions:

- {lit}`OctetReader.ExtendsTo`: what one reader takes, another takes, whatever follows.
- {lit}`SteadyOctets`: types whose reader does not look at what follows.

Main results:

- {lit}`OctetReader.ExtendsTo.bind`: readers that go on one where the other stops.
- {lit}`Expr.readOctetsWithin_extendsTo`, {lit}`PlanNode.readOctetsWithin_extendsTo`: a
  greater bound takes as much.
- {lit}`readOctets_eq_none_of_prefix`: a form whose end is missing is not read.
- {lit}`Wire.ofOctets?_exact`: what is read of a wire, of more and of less.
-/

namespace QueryGraph

-- Powers mean the same whatever else is imported.
attribute [local instance (high)] instPowNat

/-! ## Readers -/

namespace OctetReader

variable {α β : Type}

/-- What one reader takes, another takes as well, whatever follows it. -/
def ExtendsTo (x y : OctetReader α) : Prop :=
  ∀ (input rest : List UInt8) (a : α), x input = some (a, rest) →
    ∀ more, y (input ++ more) = some (a, rest ++ more)

/-- Taking nothing takes nothing from more input. -/
theorem ExtendsTo.pure (a : α) : ExtendsTo (pure a) (pure a) := by
  intro input rest b h more
  rw [pure_apply, Option.some.injEq, Prod.mk.injEq] at h
  obtain ⟨rfl, rfl⟩ := h
  exact pure_apply a _

/-- A reader that takes nothing at all is extended by every reader. -/
theorem ExtendsTo.failure (y : OctetReader α) : ExtendsTo failure y := by
  intro input rest a h
  contradiction

/-- Readers that extend each other go on to readers that do. -/
theorem ExtendsTo.bind {x y : OctetReader α} {f g : α → OctetReader β} (h : ExtendsTo x y)
    (hfg : ∀ a, ExtendsTo (f a) (g a)) : ExtendsTo (x >>= f) (y >>= g) := by
  intro input rest b hread more
  rw [bind_apply] at hread
  obtain ⟨⟨a, middle⟩, hx, hf⟩ := Option.bind_eq_some_iff.1 hread
  have hy : y (input ++ more) = some (a, middle ++ more) := h input middle a hx more
  rw [bind_of_eq_some hy]
  exact hfg a middle rest b hf more

/-- What is made of a result does not matter to what is taken. -/
theorem ExtendsTo.map {x y : OctetReader α} (f : α → β) (h : ExtendsTo x y) :
    ExtendsTo (f <$> x) (f <$> y) :=
  h.bind fun a => .pure (f a)

end OctetReader

open OctetReader

/-- One octet is taken, whatever follows. -/
theorem readOctet_extendsTo : ExtendsTo readOctet readOctet := by
  intro input rest b h more
  cases input with
  | nil => contradiction
  | cons c input =>
    cases h
    rfl

/-- The octets of a number are taken, whatever follows. -/
theorem readNat_extendsTo (width : Nat) : ExtendsTo (readNat width) (readNat width) := by
  induction width with
  | zero => exact .pure 0
  | succ width ih => exact readOctet_extendsTo.bind fun _ => ih.bind fun _ => .pure _

/-- The octets of a text are taken, whatever follows. -/
theorem readOctetList_extendsTo (count : Nat) :
    ExtendsTo (readOctetList count) (readOctetList count) := by
  intro input rest list h more
  unfold readOctetList at h ⊢
  by_cases hcount : (input.take count).length = count
  · have hle : count ≤ input.length := by
      rw [List.length_take] at hcount
      omega
    rw [if_pos hcount, Option.some.injEq, Prod.mk.injEq] at h
    obtain ⟨rfl, rfl⟩ := h
    rw [List.take_append_of_le_length hle, List.drop_append_of_le_length hle]
    exact if_pos hcount
  · rw [if_neg hcount] at h
    contradiction

/-- Many items are taken as one is. -/
theorem readMany_extendsTo {α : Type} {x y : OctetReader α} (h : ExtendsTo x y) (count : Nat) :
    ExtendsTo (readMany x count) (readMany y count) := by
  induction count with
  | zero => exact .pure []
  | succ count ih => exact h.bind fun _ => ih.bind fun _ => .pure _

/-! ## Types -/

/-- The reader of a type takes the same whatever follows. -/
class SteadyOctets (α : Type) [OctetFormat α] : Prop where
  steady : ExtendsTo (readOctets : OctetReader α) readOctets

export SteadyOctets (steady)

instance : SteadyOctets Bool where
  steady := readOctet_extendsTo.bind fun b => by
    split
    · exact .pure false
    · exact .pure true
    · exact .failure _

instance : SteadyOctets UInt64 := ⟨(readNat_extendsTo 8).map UInt64.ofNat⟩

instance : SteadyOctets Int16 :=
  ⟨((readNat_extendsTo 2).bind fun _ => .pure _).map _⟩

instance : SteadyOctets Int32 :=
  ⟨((readNat_extendsTo 4).bind fun _ => .pure _).map _⟩

instance : SteadyOctets Int64 :=
  ⟨((readNat_extendsTo 8).bind fun _ => .pure _).map _⟩

instance : SteadyOctets Binary32 := ⟨(readNat_extendsTo 4).map _⟩

instance : SteadyOctets Binary64 := ⟨(readNat_extendsTo 8).map _⟩

instance {α : Type} [DecidableEq α] [Enumeration α] : SteadyOctets α where
  steady := (readNat_extendsTo variantWidth).bind fun position => by
    split
    · exact .pure _
    · exact .failure _

instance : SteadyOctets String where
  steady := (readNat_extendsTo sizeWidth).bind fun size =>
    (readOctetList_extendsTo size).bind fun list => by
      split
      · exact .pure _
      · exact .failure _

section

variable {α : Type} [OctetFormat α] [SteadyOctets α]

instance : SteadyOctets (Option α) where
  steady := steady.bind fun present : Bool => by
    split
    · exact steady.bind fun _ => .pure _
    · exact .pure none

instance : SteadyOctets (List α) where
  steady := (readNat_extendsTo sizeWidth).bind fun size => readMany_extendsTo steady size

/-- An entry of a map is taken as its key and its value are. -/
theorem readEntry_extendsTo : ExtendsTo (readEntry : OctetReader (NodeId × α)) readEntry :=
  steady.bind fun _ => steady.bind fun _ => .pure _

instance : SteadyOctets (IdMap α) where
  steady := (readNat_extendsTo sizeWidth).bind fun size =>
    (readMany_extendsTo readEntry_extendsTo size).bind fun _ => .pure _

end

/-! ## Values and expressions -/

instance : SteadyOctets Datum where
  steady := (readNat_extendsTo variantWidth).bind fun variant => by
    match variant with
    | 0 => exact .pure _
    | 1 | 2 | 3 | 4 | 5 | 6 | 7 => exact steady.bind fun _ => .pure _
    | _ + 8 => exact .failure _

instance : SteadyOctets Column where
  steady := steady.bind fun _ => steady.bind fun _ => .pure _

instance : SteadyOctets Schema where
  steady := steady.bind fun _ => .pure _

namespace Expr

/-- A greater bound takes what a smaller one takes. -/
theorem readOctetsWithin_extendsTo {low high : Nat} (h : low ≤ high) :
    ExtendsTo (readOctetsWithin low) (readOctetsWithin high) := by
  induction low generalizing high with
  | zero => exact .failure _
  | succ low ih =>
    obtain ⟨high, rfl⟩ : ∃ n, high = n + 1 := ⟨high - 1, by omega⟩
    have hoperand : ExtendsTo (readOctetsWithin low) (readOctetsWithin high) := ih (by omega)
    refine (readNat_extendsTo variantWidth).bind fun variant => ?_
    match variant with
    | 0 => exact steady.bind fun _ => .pure _
    | 1 => exact steady.bind fun _ => .pure _
    | 2 =>
      exact steady.bind fun _ => hoperand.bind fun _ => hoperand.bind fun _ =>
        steady.bind fun _ => .pure _
    | _ + 3 => exact .failure _

/-- More octets only raise the bound. -/
instance : SteadyOctets Expr where
  steady input rest e h more := by
    have hbound : input.length + 1 ≤ (input ++ more).length + 1 := by
      rw [List.length_append]
      omega
    exact readOctetsWithin_extendsTo hbound input rest e h more

end Expr

/-! ## Trees -/

instance : SteadyOctets Target where
  steady := steady.bind fun _ => steady.bind fun _ => .pure _

instance : SteadyOctets SortKey where
  steady := steady.bind fun _ => steady.bind fun _ => steady.bind fun _ => .pure _

namespace PlanNode

variable {readTree readTree' : OctetReader PlanNode}

/-- A slot is taken as the tree in it is. -/
theorem readSlot_extendsTo (h : ExtendsTo readTree readTree') :
    ExtendsTo (readSlot readTree) (readSlot readTree') :=
  steady.bind fun present : Bool => by
    cases present with
    | true => exact h.bind fun _ => .pure _
    | false => exact .pure none

/-- What follows the kind of a node is taken if the trees in its slots are. -/
theorem readPayload_extendsTo (h : ExtendsTo readTree readTree') (i : NodeId) (s : Schema)
    (kind : NodeKind) :
    ExtendsTo (readPayload readTree i s kind) (readPayload readTree' i s kind) := by
  have hslot := readSlot_extendsTo h
  cases kind with
  | root => exact hslot.bind fun _ => .pure _
  | exprs => exact steady.bind fun _ => .pure _
  | scan => exact steady.bind fun _ => steady.bind fun _ => .pure _
  | projection | selection | having | sort | limit | tableSubQuery | createTable =>
    exact steady.bind fun _ => hslot.bind fun _ => .pure _
  | groupBy | insert =>
    exact steady.bind fun _ => steady.bind fun _ => hslot.bind fun _ => .pure _
  | union | except | intersect =>
    exact steady.bind fun _ => hslot.bind fun _ => hslot.bind fun _ => .pure _
  | join =>
    exact steady.bind fun _ => steady.bind fun _ => hslot.bind fun _ => hslot.bind fun _ =>
      .pure _

/-- A greater bound takes what a smaller one takes. -/
theorem readOctetsWithin_extendsTo {low high : Nat} (h : low ≤ high) :
    ExtendsTo (readOctetsWithin low) (readOctetsWithin high) := by
  induction low generalizing high with
  | zero => exact .failure _
  | succ low ih =>
    obtain ⟨high, rfl⟩ : ∃ n, high = n + 1 := ⟨high - 1, by omega⟩
    have htree : ExtendsTo (readOctetsWithin low) (readOctetsWithin high) := ih (by omega)
    exact steady.bind fun i => steady.bind fun s => steady.bind fun kind =>
      readPayload_extendsTo htree i s kind

/-- More octets only raise the bound. -/
instance : SteadyOctets PlanNode where
  steady input rest n h more := by
    have hbound : input.length + 1 ≤ (input ++ more).length + 1 := by
      rw [List.length_append]
      omega
    exact readOctetsWithin_extendsTo hbound input rest n h more

end PlanNode

/-! ## Wires -/

instance : SteadyOctets InputScans where
  steady := steady.bind fun _ => .pure _

instance : SteadyOctets ParentRef where
  steady := steady.bind fun _ => steady.bind fun _ => .pure _

instance : SteadyOctets Wire where
  steady := steady.bind fun _ => steady.bind fun _ => steady.bind fun _ => steady.bind fun _ =>
    steady.bind fun _ => steady.bind fun _ => steady.bind fun _ => .pure _

/-! ## Missing ends -/

/-- A form whose end is missing is not read: what is read of it would be read of the whole
form as well, which leaves no octet. -/
theorem readOctets_eq_none_of_prefix {α : Type} [OctetFormat α] [LawfulOctets α]
    [SteadyOctets α] {a : α} (hsize : (octets a).length < sizeBound) {front : List UInt8}
    (hfront : front <+: octets a) (hproper : front ≠ octets a) :
    (readOctets : OctetReader α) front = none := by
  obtain ⟨missing, heq⟩ := hfront
  cases hread : (readOctets : OctetReader α) front with
  | none => rfl
  | some result =>
    have hextended : (readOctets : OctetReader α) (front ++ missing) =
        some (result.1, result.2 ++ missing) := steady front result.2 result.1 hread missing
    have hwhole : (readOctets : OctetReader α) (octets a) = some (a, []) := by
      simpa using LawfulOctets.read a [] hsize
    rw [heq, hwhole, Option.some.injEq, Prod.mk.injEq] at hextended
    have hnone : missing = [] := (List.append_eq_nil_iff.1 hextended.2.symm).2
    rw [hnone, List.append_nil] at heq
    exact absurd heq hproper

namespace Wire

/-- A wire is read back from its octets, whatever follows them, and is not read where their
end is missing.  This is so whether or not it describes a plan.  Sizes are eight octets wide,
so it is said of a form that is shorter than every size, as what is held in memory is. -/
theorem ofOctets?_exact {w : Wire} (hsize : (octets w).length < sizeBound) :
    (∀ rest, ofOctets? (octets w ++ rest) = some w) ∧
      ∀ front, front <+: octets w → front ≠ octets w → ofOctets? front = none := by
  refine ⟨ofOctets?_octets hsize, ?_⟩
  intro front hfront hproper
  have hread : (readOctets : OctetReader Wire) front = none :=
    readOctets_eq_none_of_prefix hsize hfront hproper
  unfold ofOctets?
  rw [StateT.run, hread, Option.map_none]

/-- A wire that describes no plan: its terminal joins, a vertex stands under a wrong key and
has inputs, an identifier is its own parent, and a constant is no number. -/
def stray : Wire where
  supplyState := 0
  hasJoin := false
  hasUnion := true
  inputs := some ⟨.ofList [(18446744073709551615, .leaf 1 ⟨[]⟩ (.scan "größe" none))]⟩
  terminal :=
    .binary 4 ⟨[⟨"x", .float8⟩]⟩ (.join .leftOuter (some (.const (.float8 ⟨.allOnes _⟩))))
      (some (.leaf 1 ⟨[]⟩ (.exprs [⟨.const (.int2 (-1)), some "y"⟩]))) none
  vertices := .ofList
    [(7, .unary 2 ⟨[]⟩ (.sort [.asc ⟨"x", .float8⟩]) (some (.leaf 2 ⟨[]⟩ (.scan "" (some "s")))))]
  adjacency := .ofList [(5, []), (6, [⟨6, .single⟩, ⟨6, .right⟩])]

/-- The wire is read with a stray octet behind it, and not with an octet too few. -/
theorem ofOctets?_exact_stray :
    (octets stray).length < sizeBound ∧
      ofOctets? (octets stray ++ [7]) = some stray ∧
      ofOctets? (octets stray).dropLast = none := by
  have hsize : (octets stray).length < sizeBound := by decide +kernel
  have hlast : (octets stray).dropLast ≠ octets stray := by decide +kernel
  obtain ⟨hwhole, hfront⟩ := ofOctets?_exact hsize
  exact ⟨hsize, hwhole [7], hfront _ (List.dropLast_prefix _) hlast⟩

end Wire

end QueryGraph
