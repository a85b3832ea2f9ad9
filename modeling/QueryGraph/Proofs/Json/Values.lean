import QueryGraph.Proofs.Graph.MapUpdates
import QueryGraph.Proofs.Json.Parsing

/-!
# Reading values back from JSON

What is written as JSON is read back unless it nests too deep for the reader.  Floating
point numbers are the exception: what is read of them may have other bits, and one that
is not finite is not read at all.  So the law of a type does not say that a value is read
back, but what is read of it, and that this does not depend on the levels that are left.

Main definitions:

- {lit}`LawfulJson`: the law, with {lit}`reread`, what is read of a value.
- {lit}`ExactJson`: types whose values are read back, without exception.
- {lit}`NonNull`: types whose values are never written as null.

Main results:

- {lit}`Json.record?_ofRecord`, {lit}`Json.variant?_ofVariant`: records and variants are
  taken apart as they were put together.
- The law for simple types, options, lists and maps.
-/

namespace QueryGraph

/-! ## Records and variants -/

namespace Json

/-- Items nest as deep as the deepest of them. -/
theorem depthOfItems_le_iff {items : List Json} {levels : Nat} :
    depthOfItems items ≤ levels ↔ ∀ j ∈ items, j.depth ≤ levels := by
  induction items with
  | nil => simp [depthOfItems]
  | cons j items ih => rw [depthOfItems, Nat.max_le, ih, List.forall_mem_cons]

/-- Members nest as deep as the deepest of their values. -/
theorem depthOfMembers_le_iff {members : List (List Char × Json)} {levels : Nat} :
    depthOfMembers members ≤ levels ↔ ∀ m ∈ members, m.2.depth ≤ levels := by
  induction members with
  | nil => simp [depthOfMembers]
  | cons m members ih => rw [depthOfMembers, Nat.max_le, ih, List.forall_mem_cons]

/-- Items keep their strings if each of them does. -/
theorem spelledItems_iff {items : List Json} : SpelledItems items ↔ ∀ j ∈ items, j.Spelled := by
  induction items with
  | nil => simp [SpelledItems]
  | cons j items ih => rw [SpelledItems, ih, List.forall_mem_cons]

/-- Members keep their names and strings if each of them does. -/
theorem spelledMembers_iff {members : List (List Char × Json)} :
    SpelledMembers members ↔ ∀ m ∈ members, JsonText.Spelling m.1 ∧ m.2.Spelled := by
  induction members with
  | nil => simp [SpelledMembers]
  | cons m members ih => rw [SpelledMembers, ih, List.forall_mem_cons, and_assoc]

theorem depth_ofRecord_pos (fields : List (String × Json)) : 0 < (ofRecord fields).depth :=
  Nat.succ_pos _

/-- The fields of a record stand one level below it. -/
theorem depth_ofRecord_le_iff {fields : List (String × Json)} {levels : Nat} :
    (ofRecord fields).depth ≤ levels + 1 ↔ ∀ f ∈ fields, f.2.depth ≤ levels := by
  rw [ofRecord, depth, Nat.succ_le_succ_iff, depthOfMembers_le_iff, List.forall_mem_map]

theorem spelled_ofRecord {fields : List (String × Json)} (h : ∀ f ∈ fields, f.2.Spelled) :
    (ofRecord fields).Spelled := by
  rw [ofRecord, Spelled, spelledMembers_iff, List.forall_mem_map]
  exact fun f hf => ⟨JsonText.spelling_encode _, h f hf⟩

/-- The names of members are read as they were written. -/
theorem namedMembers_encode (fields : List (String × Json)) :
    namedMembers (fields.map fun f => (JsonText.encode f.1.toList, f.2)) = some fields := by
  conv_rhs => rw [← List.map_id fields]
  unfold namedMembers
  refine mapM_map_eq_some fun f _ => ?_
  simp only [JsonText.decode_encode, Option.map_some, String.ofList_toList, id_eq]

/-- A field has its name for itself. -/
theorem filter_name_eq {fields : List (String × Json)} (hnodup : (fields.map Prod.fst).Nodup)
    {f : String × Json} (hf : f ∈ fields) : fields.filter (·.1 = f.1) = [f] := by
  induction fields with
  | nil => exact absurd hf List.not_mem_nil
  | cons g fields ih =>
    rw [List.map_cons, List.nodup_cons] at hnodup
    rcases List.mem_cons.1 hf with rfl | hf
    · rw [List.filter_cons_of_pos (by simp), List.filter_eq_nil_iff.2]
      intro g hg heq
      exact hnodup.1 (of_decide_eq_true heq ▸ List.mem_map_of_mem hg)
    · have hne : g.1 ≠ f.1 := fun heq => hnodup.1 (heq ▸ List.mem_map_of_mem hf)
      rw [List.filter_cons_of_neg (by simpa using hne), ih hnodup.2 hf]

/-- A record is taken apart as it was put together. -/
theorem record?_ofRecord {fields : List (String × Json)} {names : List String}
    (hnames : fields.map Prod.fst = names) (hnodup : names.Nodup) (levels : Nat) :
    (ofRecord fields).record? (levels + 1) names =
      some (levels, fields.map fun f => some f.2) := by
  subst hnames
  have hmember : ∀ f ∈ fields, member? fields f.1 = some (some f.2) := by
    intro f hf
    rw [member?, filter_name_eq hnodup hf]
  rw [ofRecord, record?, namedMembers_encode, Option.bind_eq_bind, Option.bind_some,
    mapM_map_eq_some hmember]
  rfl

@[simp] theorem record?_zero (names : List String) (j : Json) : j.record? 0 names = none := by
  cases j <;> rfl

/-- The payload of a variant stands one level below it. -/
theorem depth_ofVariant_le_iff {name : String} {payload : Json} {levels : Nat} :
    (ofVariant name payload).depth ≤ levels + 1 ↔ payload.depth ≤ levels := by
  rw [ofVariant, depth_ofRecord_le_iff, List.forall_mem_singleton]

theorem spelled_ofVariant {name : String} {payload : Json} (h : payload.Spelled) :
    (ofVariant name payload).Spelled :=
  spelled_ofRecord (List.forall_mem_singleton.2 h)

/-- A variant is taken apart as it was put together. -/
theorem variant?_ofVariant (name : String) (payload : Json) (levels : Nat) :
    (ofVariant name payload).variant? (levels + 1) = some (levels, name, some payload) := by
  rw [ofVariant, ofRecord, List.map_singleton, variant?, JsonText.decode_encode,
    Option.map_some, String.ofList_toList]

@[simp] theorem variant?_ofVariant_zero (name : String) (payload : Json) :
    (ofVariant name payload).variant? 0 = none :=
  rfl

/-- A variant without a payload is its name, on any level. -/
theorem variant?_ofText (name : String) (levels : Nat) :
    (ofText name).variant? levels = some (levels, name, none) := by
  rw [ofText, variant?, JsonText.decode_encode, Option.map_some, String.ofList_toList]

end Json

/-! ## The law -/

/-- What is read of what is written as JSON. -/
class LawfulJson (α : Type) [JsonFormat α] where
  /-- What is read of a value, if anything is. -/
  reread : α → Option α
  spelled : ∀ a : α, (toJson a).Spelled
  /-- A value is read unless it nests deeper than the levels that are left. -/
  ofJson?_toJson : ∀ (levels : Nat) (a : α),
    ofJson? levels (toJson a) = if (toJson a).depth ≤ levels then reread a else none

export LawfulJson (reread spelled ofJson?_toJson)

/-- No value of the type is written as null. -/
class NonNull (α : Type) [JsonFormat α] : Prop where
  toJson_ne_null : ∀ a : α, toJson a ≠ .null

/-- Every value of the type is read back. -/
class ExactJson (α : Type) [JsonFormat α] [LawfulJson α] : Prop where
  reread_eq : ∀ a : α, reread a = some a

export ExactJson (reread_eq)

/-! ## Simple types -/

/-- The integer of a number is the one that was written. -/
theorem JsonNumber.integer?_ofInt (i : Int) :
    (⟨i < 0, i.natAbs, [], none⟩ : JsonNumber).integer? = some i := by
  have hvalue : (if i < 0 then -(i.natAbs : Int) else i.natAbs) = i := by split <;> omega
  have hzero : i < 0 → i.natAbs ≠ 0 := by omega
  unfold integer? isWhole
  generalize i.natAbs = magnitude at hvalue hzero ⊢
  by_cases hneg : i < 0
  · rw [if_pos hneg] at hvalue
    simp [hneg, hzero hneg, hvalue]
  · rw [if_neg hneg] at hvalue
    simp [hneg, hvalue]

/-- An integer that is in range is read back. -/
theorem Json.integerIn?_ofInt {least greatest i : Int} (hl : least ≤ i) (hg : i ≤ greatest) :
    (ofInt i).integerIn? least greatest = some i := by
  rw [ofInt, integerIn?, JsonNumber.integer?_ofInt]
  simp [hl, hg]

instance : LawfulJson Bool where
  reread := some
  spelled _ := trivial
  ofJson?_toJson _ _ := rfl

instance : ExactJson Bool := ⟨fun _ => rfl⟩

instance : LawfulJson UInt64 where
  reread := some
  spelled _ := trivial
  ofJson?_toJson levels n := by
    have hlt := n.toNat_lt
    have hsize : UInt64.size = 2 ^ 64 := rfl
    show (Json.integerIn? _ _ (.ofInt n.toNat)).map (fun i => UInt64.ofNat i.toNat) = some n
    rw [Json.integerIn?_ofInt (Int.natCast_nonneg _) (by omega), Option.map_some,
      Int.toNat_natCast, UInt64.ofNat_toNat]

instance : ExactJson UInt64 := ⟨fun _ => rfl⟩

instance : LawfulJson Int16 where
  reread := some
  spelled _ := trivial
  ofJson?_toJson levels n := by
    show (Json.integerIn? _ _ (.ofInt n.toInt)).map Int16.ofInt = some n
    rw [Json.integerIn?_ofInt n.minValue_le_toInt n.toInt_le, Option.map_some, Int16.ofInt_toInt]

instance : ExactJson Int16 := ⟨fun _ => rfl⟩

instance : LawfulJson Int32 where
  reread := some
  spelled _ := trivial
  ofJson?_toJson levels n := by
    show (Json.integerIn? _ _ (.ofInt n.toInt)).map Int32.ofInt = some n
    rw [Json.integerIn?_ofInt n.minValue_le_toInt n.toInt_le, Option.map_some, Int32.ofInt_toInt]

instance : ExactJson Int32 := ⟨fun _ => rfl⟩

instance : LawfulJson Int64 where
  reread := some
  spelled _ := trivial
  ofJson?_toJson levels n := by
    show (Json.integerIn? _ _ (.ofInt n.toInt)).map Int64.ofInt = some n
    rw [Json.integerIn?_ofInt n.minValue_le_toInt n.toInt_le, Option.map_some, Int64.ofInt_toInt]

instance : ExactJson Int64 := ⟨fun _ => rfl⟩

/-- A floating point number is a number or null. -/
theorem Json.spelled_ofFloat {f : BinaryFormat} (range : PlainRange) (x : BinaryFloat f) :
    (ofFloat range x).Spelled ∧ (ofFloat range x).depth = 0 := by
  unfold ofFloat
  split <;> exact ⟨trivial, rfl⟩

/-- What is read of a floating point number does not depend on where it stands. -/
instance : LawfulJson Binary32 where
  reread x := ofJson? 0 (toJson x)
  spelled x := (Json.spelled_ofFloat .single x).1
  ofJson?_toJson levels x := by
    rw [show (toJson x).depth = 0 from (Json.spelled_ofFloat .single x).2, if_pos (Nat.zero_le _)]
    rfl

instance : LawfulJson Binary64 where
  reread x := ofJson? 0 (toJson x)
  spelled x := (Json.spelled_ofFloat .double x).1
  ofJson?_toJson levels x := by
    rw [show (toJson x).depth = 0 from (Json.spelled_ofFloat .double x).2, if_pos (Nat.zero_le _)]
    rfl

instance : LawfulJson String where
  reread := some
  spelled s := JsonText.spelling_encode s.toList
  ofJson?_toJson levels s := by
    show (JsonText.decode (JsonText.encode s.toList)).map String.ofList = some s
    rw [JsonText.decode_encode, Option.map_some, String.ofList_toList]

instance : ExactJson String := ⟨fun _ => rfl⟩

instance : NonNull String where
  toJson_ne_null _ h := by contradiction

/-- The members of an enumeration are read back. -/
instance {α : Type} [DecidableEq α] [Enumeration α] : LawfulJson α where
  reread := some
  spelled a := JsonText.spelling_encode (Enumeration.tag a).toList
  ofJson?_toJson levels a := by
    show ((Json.ofText (Enumeration.tag a)).variant? levels).bind _ = some a
    rw [Json.variant?_ofText, Option.bind_some]
    exact Enumeration.ofTag?_tag a

instance {α : Type} [DecidableEq α] [Enumeration α] : ExactJson α := ⟨fun _ => rfl⟩

/-! ## Collections -/

section

variable {α : Type} [JsonFormat α]

/-- A slot that may be empty is read as what may stand in it. -/
theorem Json.nullable?_toJson {read : Json → Option α} {a : α} (hnull : toJson a ≠ .null) :
    nullable? read (toJson a) = (read (toJson a)).map some := by
  generalize toJson a = j at hnull
  cases j <;> first | contradiction | rfl

/-- The items of a list stand one level below it. -/
theorem depth_toJson_list_le_iff {items : List α} {levels : Nat} :
    (toJson items).depth ≤ levels + 1 ↔ ∀ a ∈ items, (toJson a).depth ≤ levels := by
  show (Json.arr (items.map toJson)).depth ≤ levels + 1 ↔ _
  rw [Json.depth, Nat.succ_le_succ_iff, Json.depthOfItems_le_iff, List.forall_mem_map]

/-- An entry as a member of an object. -/
def memberOf (e : NodeId × α) : List Char × Json :=
  (Json.idName e.1, toJson e.2)

/-- The values of a map stand one level below it. -/
theorem depth_toJson_map_le_iff {m : IdMap α} {levels : Nat} :
    (toJson m).depth ≤ levels + 1 ↔ ∀ e ∈ m.entries, (toJson e.2).depth ≤ levels := by
  show (Json.obj (m.entries.map memberOf)).depth ≤ levels + 1 ↔ _
  rw [Json.depth, Nat.succ_le_succ_iff, Json.depthOfMembers_le_iff, List.forall_mem_map]
  rfl

/-- Reads an entry from a member of an object. -/
def readMember? (levels : Nat) (member : List Char × Json) : Option (NodeId × α) :=
  (Json.idOfName? member.1).bind fun id =>
    (ofJson? levels member.2).bind fun a => some (id, a)

variable [LawfulJson α]

instance [NonNull α] : LawfulJson (Option α) where
  reread
    | none => some none
    | some a => (reread a).map some
  spelled a := by
    cases a with
    | none => trivial
    | some a => exact spelled a
  ofJson?_toJson levels a := by
    cases a with
    | none => rfl
    | some a =>
      show Json.nullable? (ofJson? levels) (toJson a) =
        if (toJson a).depth ≤ levels then (reread a).map some else none
      rw [Json.nullable?_toJson (NonNull.toJson_ne_null a), ofJson?_toJson]
      split <;> rfl

instance [NonNull α] [ExactJson α] : ExactJson (Option α) where
  reread_eq a := by
    cases a with
    | none => rfl
    | some a => exact congrArg (Option.map some) (reread_eq a)

/-- Reading many values, each of which may be refused, is refused if one of them is. -/
theorem mapM_ite {β γ : Type} {p : β → Prop} [DecidablePred p] {read : β → Option γ}
    (items : List β) :
    items.mapM (fun b => if p b then read b else none) =
      if ∀ b ∈ items, p b then items.mapM read else none := by
  induction items with
  | nil => rfl
  | cons b items ih =>
    rw [List.mapM_cons, List.mapM_cons, ih]
    by_cases hb : p b
    · by_cases hall : ∀ c ∈ items, p c
      · rw [if_pos hb, if_pos hall, if_pos (List.forall_mem_cons.2 ⟨hb, hall⟩)]
      · rw [if_neg hall, if_neg fun h => hall (List.forall_mem_cons.1 h).2]
        cases (if p b then read b else none) <;> rfl
    · rw [if_neg hb, if_neg fun h => hb (List.forall_mem_cons.1 h).1]
      rfl

instance : LawfulJson (List α) where
  reread items := items.mapM reread
  spelled items := by
    show Json.SpelledItems (items.map toJson)
    rw [Json.spelledItems_iff, List.forall_mem_map]
    exact fun a _ => spelled a
  ofJson?_toJson levels items := by
    cases levels with
    | zero => rfl
    | succ levels =>
      show (items.map toJson).mapM (ofJson? levels) = _
      rw [List.mapM_map, if_congr depth_toJson_list_le_iff rfl rfl, ← mapM_ite]
      exact congrArg (items.mapM ·) (funext fun a => ofJson?_toJson levels a)

instance [ExactJson α] : ExactJson (List α) where
  reread_eq items := by
    have hmap : (items.map id).mapM reread = some (items.map id) :=
      mapM_map_eq_some fun a _ => reread_eq a
    rwa [List.map_id] at hmap

/-- What is read of the entries of a map. -/
def rereadEntries (entries : List (NodeId × α)) : Option (List (NodeId × α)) :=
  entries.mapM fun e => (reread e.2).map (e.1, ·)

/-- An entry of a map is read under its key, if the levels suffice for its value. -/
theorem readMember?_memberOf (levels : Nat) (e : NodeId × α) :
    readMember? levels (memberOf e) =
      if (toJson e.2).depth ≤ levels then (reread e.2).map (e.1, ·) else none := by
  rw [readMember?, memberOf, Json.idOfName?_idName, Option.bind_some, ofJson?_toJson]
  split
  · exact Option.map_eq_bind.symm
  · rfl

instance : LawfulJson (IdMap α) where
  reread m := (rereadEntries m.entries).map SortedMap.ofList
  spelled m := by
    show Json.SpelledMembers (m.entries.map memberOf)
    rw [Json.spelledMembers_iff, List.forall_mem_map]
    exact fun e _ => ⟨Json.spelling_idName e.1, spelled e.2⟩
  ofJson?_toJson levels m := by
    cases levels with
    | zero => rfl
    | succ levels =>
      have hentries : (m.entries.map memberOf).mapM (readMember? levels) =
          if ∀ e ∈ m.entries, (toJson e.2).depth ≤ levels then rereadEntries m.entries
          else none := by
        rw [List.mapM_map, rereadEntries, ← mapM_ite]
        exact congrArg (m.entries.mapM ·) (funext (readMember?_memberOf levels))
      refine (congrArg (Option.bind · fun entries => some (SortedMap.ofList entries))
        hentries).trans ?_
      rw [if_congr depth_toJson_map_le_iff rfl rfl]
      split
      · exact Option.map_eq_bind.symm
      · rfl

instance [ExactJson α] : ExactJson (IdMap α) where
  reread_eq m := by
    have hentries : (m.entries.map id).mapM (fun e => (reread e.2).map (e.1, ·)) =
        some (m.entries.map id) :=
      mapM_map_eq_some fun e _ => congrArg (Option.map (e.1, ·)) (reread_eq e.2)
    rw [List.map_id] at hentries
    exact (congrArg (Option.map SortedMap.ofList) hentries).trans
      (congrArg some (SortedMap.ofList_entries m))

end

end QueryGraph
