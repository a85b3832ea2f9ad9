import QueryGraph.Octets.Format
import QueryGraph.Proofs.Graph.MapUpdates

/-!
# Reading octets back

A binary form does not mark its end.  Its reader has to stop where the form stops, so
the law of a form speaks of the form with anything behind it.  Sizes have a fixed
width; a form that is longer than every size is not read back.

Main definitions:

- {lit}`LawfulOctets`: forms that are not empty and that are read back.

Main results:

- The forms of simple types, texts, options, lists and maps are lawful.
-/

namespace QueryGraph

-- Powers mean the same whatever else is imported.
attribute [local instance (high)] instPowNat

/-! ## Readers -/

namespace OctetReader

variable {α β : Type}

@[simp] theorem pure_apply (a : α) (input : List UInt8) :
    (pure a : OctetReader α) input = some (a, input) :=
  rfl

theorem bind_apply (x : OctetReader α) (f : α → OctetReader β) (input : List UInt8) :
    (x >>= f) input = (x input).bind fun read => f read.1 read.2 :=
  rfl

/-- A reader goes on where another one has stopped. -/
theorem bind_of_eq_some {x : OctetReader α} {f : α → OctetReader β} {input rest : List UInt8}
    {a : α} (h : x input = some (a, rest)) : (x >>= f) input = f a rest := by
  rw [bind_apply, h, Option.bind_some]

/-- What is made of a result leaves the same input. -/
theorem map_of_eq_some (f : α → β) {x : OctetReader α} {input rest : List UInt8} {a : α}
    (h : x input = some (a, rest)) : (f <$> x) input = some (f a, rest) := by
  show (x input).bind _ = _
  rw [h]
  rfl

end OctetReader

/-- No size reaches this. -/
def sizeBound : Nat := 256 ^ sizeWidth

/-- The binary form of a type is not empty, and its reader takes the form and nothing
that follows it. -/
class LawfulOctets (α : Type) [OctetFormat α] : Prop where
  length_pos : ∀ a : α, 0 < (octets a).length
  read : ∀ (a : α) (rest : List UInt8), (octets a).length < sizeBound →
    readOctets (octets a ++ rest) = some (a, rest)

export LawfulOctets (length_pos)

/-- The parts of a form are shorter than the sizes that the form is shorter than. -/
theorem lt_sizeBound_of_append {front back : List UInt8}
    (h : (front ++ back).length < sizeBound) :
    front.length < sizeBound ∧ back.length < sizeBound := by
  rw [List.length_append] at h
  exact ⟨Nat.lt_of_le_of_lt (Nat.le_add_right _ _) h, Nat.lt_of_le_of_lt (Nat.le_add_left _ _) h⟩

/-! ## Integers -/

/-- A number that fits its octets is read back. -/
theorem readNat_of_lt {width n : Nat} (h : n < 256 ^ width) (rest : List UInt8) :
    readNat width (natOctets width n ++ rest) = some (n, rest) := by
  rw [readNat_natOctets, Nat.mod_eq_of_lt h]

/-- A size in front of what has that size is read back. -/
theorem readNat_size {n : Nat} (h : n < sizeBound) (rest : List UInt8) :
    readNat sizeWidth (natOctets sizeWidth n ++ rest) = some (n, rest) :=
  readNat_of_lt h rest

/-- A form that is an integer of a fixed width. -/
theorem LawfulOctets.ofNat {α : Type} [OctetFormat α] (width : Nat) (code : α → Nat)
    (value : Nat → α) (hwidth : 0 < width) (hcode : ∀ a, code a < 256 ^ width)
    (hvalue : ∀ a, value (code a) = a) (hoctets : ∀ a : α, octets a = natOctets width (code a))
    (hread : ∀ {input rest n}, readNat width input = some (n, rest) →
      (readOctets : OctetReader α) input = some (value n, rest)) : LawfulOctets α where
  length_pos a := by
    rw [hoctets, length_natOctets]
    exact hwidth
  read a rest _ := by
    rw [hoctets, hread (readNat_of_lt (hcode a) rest), hvalue]

instance : LawfulOctets UInt64 :=
  .ofNat 8 UInt64.toNat UInt64.ofNat (by decide) UInt64.toNat_lt (fun _ => UInt64.ofNat_toNat)
    (fun _ => rfl) (OctetReader.map_of_eq_some UInt64.ofNat)

instance : LawfulOctets Int16 :=
  .ofNat 2 (·.toUInt16.toNat) (fun n => Int16.ofInt n) (by decide)
    (fun a => a.toUInt16.toNat_lt)
    (fun a => by
      rw [Int16.ofInt_eq_ofNat, ← UInt16.toInt16_ofNat', UInt16.ofNat_toNat,
        Int16.toInt16_toUInt16])
    (fun _ => rfl) fun h =>
      OctetReader.map_of_eq_some (fun n : Int => Int16.ofInt n) (OctetReader.bind_of_eq_some h)

instance : LawfulOctets Int32 :=
  .ofNat 4 (·.toUInt32.toNat) (fun n => Int32.ofInt n) (by decide)
    (fun a => a.toUInt32.toNat_lt)
    (fun a => by
      rw [Int32.ofInt_eq_ofNat, ← UInt32.toInt32_ofNat', UInt32.ofNat_toNat,
        Int32.toInt32_toUInt32])
    (fun _ => rfl) fun h =>
      OctetReader.map_of_eq_some (fun n : Int => Int32.ofInt n) (OctetReader.bind_of_eq_some h)

instance : LawfulOctets Int64 :=
  .ofNat 8 (·.toUInt64.toNat) (fun n => Int64.ofInt n) (by decide)
    (fun a => a.toUInt64.toNat_lt)
    (fun a => by
      rw [Int64.ofInt_eq_ofNat, ← UInt64.toInt64_ofNat', UInt64.ofNat_toNat,
        Int64.toInt64_toUInt64])
    (fun _ => rfl) fun h =>
      OctetReader.map_of_eq_some (fun n : Int => Int64.ofInt n) (OctetReader.bind_of_eq_some h)

instance : LawfulOctets Binary32 :=
  .ofNat 4 (·.bits.toNat) (fun n => ⟨BitVec.ofNat _ n⟩) (by decide) (fun a => a.bits.isLt)
    (fun a => by rw [BitVec.ofNat_toNat, BitVec.setWidth_eq]) (fun _ => rfl)
    (OctetReader.map_of_eq_some _)

instance : LawfulOctets Binary64 :=
  .ofNat 8 (·.bits.toNat) (fun n => ⟨BitVec.ofNat _ n⟩) (by decide) (fun a => a.bits.isLt)
    (fun a => by rw [BitVec.ofNat_toNat, BitVec.setWidth_eq]) (fun _ => rfl)
    (OctetReader.map_of_eq_some _)

/-! ## Truth values and enumerations -/

instance : LawfulOctets Bool where
  length_pos _ := Nat.one_pos
  read b rest _ := by cases b <;> rfl

/-- A reader goes on behind the position of a variant. -/
theorem bind_variantOctets {β : Type} {f : Nat → OctetReader β} {position : Nat}
    (h : position < 256 ^ variantWidth) (rest : List UInt8) :
    (readNat variantWidth >>= f) (variantOctets position ++ rest) = f position rest :=
  OctetReader.bind_of_eq_some (readNat_of_lt h rest)

/-- The variant of a value takes a fixed number of octets. -/
theorem length_variantOctets (position : Nat) :
    (variantOctets position).length = variantWidth :=
  length_natOctets _ _

/-- An enumeration that four octets are enough for. -/
theorem LawfulOctets.ofEnumeration {α : Type} [DecidableEq α] [Enumeration α]
    (hfew : (Enumeration.members : List α).length ≤ 256 ^ variantWidth) : LawfulOctets α where
  length_pos a := by
    show 0 < (variantOctets _).length
    rw [length_variantOctets]
    decide
  read a rest _ := by
    have hposition : Enumeration.position a < 256 ^ variantWidth :=
      Nat.lt_of_lt_of_le (Enumeration.position_lt a) hfew
    refine (bind_variantOctets hposition rest).trans ?_
    rw [Enumeration.ofPosition?_position]
    rfl

/-! ## Texts -/

/-- Taking as many octets as were written takes those. -/
theorem readOctetList_append (list rest : List UInt8) :
    readOctetList list.length (list ++ rest) = some (list, rest) := by
  unfold readOctetList
  rw [List.take_left, List.drop_left]
  exact if_pos rfl

/-- The octets of a text stand for it. -/
theorem fromUTF8?_textOctets (s : String) :
    String.fromUTF8? ⟨(textOctets s).toArray⟩ = some s := by
  unfold textOctets
  rw [Array.toArray_toList]
  exact dif_pos s.isValidUTF8

/-- What starts with a size is not empty. -/
theorem length_pos_of_size (n : Nat) (list : List UInt8) :
    0 < (natOctets sizeWidth n ++ list).length := by
  rw [List.length_append, length_natOctets]
  exact Nat.add_pos_left (by decide) _

instance : LawfulOctets String where
  length_pos s := length_pos_of_size _ _
  read s rest h := by
    have hsize : (textOctets s).length < sizeBound := (lt_sizeBound_of_append h).2
    have hread := readNat_size hsize (textOctets s ++ rest)
    rw [← List.append_assoc] at hread
    refine (OctetReader.bind_of_eq_some hread).trans ?_
    refine (OctetReader.bind_of_eq_some (readOctetList_append (textOctets s) rest)).trans ?_
    rw [fromUTF8?_textOctets]
    rfl

/-! ## Collections -/

variable {α : Type} [OctetFormat α] [LawfulOctets α]

instance : LawfulOctets (Option α) where
  length_pos a := by cases a <;> exact Nat.succ_pos _
  read a rest h := by
    cases a with
    | none => rfl
    | some a =>
      have ha : (octets a).length < sizeBound := Nat.lt_of_succ_lt h
      exact OctetReader.map_of_eq_some some (LawfulOctets.read a rest ha)

/-- As many values are read as were written. -/
theorem readMany_flatMap {β : Type} {write : β → List UInt8} {read : OctetReader β}
    {items : List β} (h : ∀ b ∈ items, ∀ rest, read (write b ++ rest) = some (b, rest))
    (rest : List UInt8) :
    readMany read items.length (items.flatMap write ++ rest) = some (items, rest) := by
  induction items with
  | nil => rfl
  | cons b items ih =>
    have hb := h b List.mem_cons_self (items.flatMap write ++ rest)
    have hitems := ih fun c hc => h c (List.mem_cons_of_mem b hc)
    rw [List.flatMap_cons, List.append_assoc, List.length_cons, readMany,
      OctetReader.bind_of_eq_some hb, OctetReader.bind_of_eq_some hitems, OctetReader.pure_apply]

/-- Each value that is written has its place in what is written. -/
theorem length_le_length_flatMap {β : Type} {write : β → List UInt8} {items : List β} {b : β}
    (hb : b ∈ items) : (write b).length ≤ (items.flatMap write).length := by
  induction items with
  | nil => exact absurd hb List.not_mem_nil
  | cons c items ih =>
    rw [List.flatMap_cons, List.length_append]
    rcases List.mem_cons.1 hb with rfl | hb
    · exact Nat.le_add_right _ _
    · exact Nat.le_trans (ih hb) (Nat.le_add_left _ _)

/-- There are no more values than octets, where none of them is written as nothing. -/
theorem length_le_of_length_pos {β : Type} {write : β → List UInt8}
    (hpos : ∀ b, 0 < (write b).length) (items : List β) :
    items.length ≤ (items.flatMap write).length := by
  induction items with
  | nil => exact Nat.le_refl _
  | cons b items ih =>
    have hb := hpos b
    rw [List.flatMap_cons, List.length_append, List.length_cons]
    omega

/-- Values behind their number: the number is read back, and then the values. -/
theorem readNat_readMany {β : Type} {write : β → List UInt8} {read : OctetReader β}
    (hpos : ∀ b, 0 < (write b).length)
    (hread : ∀ b, (write b).length < sizeBound → ∀ rest, read (write b ++ rest) = some (b, rest))
    {items : List β}
    (h : (natOctets sizeWidth items.length ++ items.flatMap write).length < sizeBound)
    (rest : List UInt8) :
    readNat sizeWidth (natOctets sizeWidth items.length ++ items.flatMap write ++ rest) =
        some (items.length, items.flatMap write ++ rest) ∧
      readMany read items.length (items.flatMap write ++ rest) = some (items, rest) := by
  have hlength := (lt_sizeBound_of_append h).2
  have hsize : items.length < sizeBound :=
    Nat.lt_of_le_of_lt (length_le_of_length_pos hpos items) hlength
  rw [List.append_assoc]
  exact ⟨readNat_size hsize _, readMany_flatMap (fun b hb =>
    hread b (Nat.lt_of_le_of_lt (length_le_length_flatMap hb) hlength)) rest⟩

instance : LawfulOctets (List α) where
  length_pos _ := length_pos_of_size _ _
  read items rest h := by
    rcases readNat_readMany length_pos (fun a ha rest => LawfulOctets.read a rest ha) h rest with
      ⟨hsize, hitems⟩
    exact (OctetReader.bind_of_eq_some hsize).trans hitems

/-- An entry of a map as octets. -/
def entryOctets (e : NodeId × α) : List UInt8 :=
  octets e.1 ++ octets e.2

/-- Reads an entry of a map. -/
def readEntry : OctetReader (NodeId × α) := do
  return (← readOctets, ← readOctets)

/-- An entry of a map is read back with anything behind it. -/
theorem readEntry_append {e : NodeId × α} (h : (entryOctets e).length < sizeBound)
    (rest : List UInt8) : readEntry (entryOctets e ++ rest) = some (e, rest) := by
  unfold entryOctets at h ⊢
  rcases lt_sizeBound_of_append h with ⟨hk, hv⟩
  have hkey := LawfulOctets.read e.1 (octets e.2 ++ rest) hk
  have hvalue := LawfulOctets.read e.2 rest hv
  rw [List.append_assoc, readEntry, OctetReader.bind_of_eq_some hkey,
    OctetReader.bind_of_eq_some hvalue, OctetReader.pure_apply]

instance : LawfulOctets (IdMap α) where
  length_pos _ := length_pos_of_size _ _
  read m rest h := by
    have hpos : ∀ e : NodeId × α, 0 < (entryOctets e).length := fun e => by
      rw [entryOctets, List.length_append]
      exact Nat.add_pos_left (length_pos e.1) _
    rcases readNat_readMany hpos (fun _ he rest => readEntry_append he rest) h rest with
      ⟨hsize, hentries⟩
    refine (OctetReader.bind_of_eq_some hsize).trans ?_
    refine (OctetReader.bind_of_eq_some hentries).trans ?_
    rw [SortedMap.ofList_entries, OctetReader.pure_apply]

end QueryGraph
