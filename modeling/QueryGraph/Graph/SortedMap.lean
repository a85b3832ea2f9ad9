import QueryGraph.Graph.Id

/-!
# Maps in the order of their keys

A map is the list of its entries in strictly ascending order of keys.  The order
makes the representation unique, so two maps that answer every look-up alike are
equal.  Keys may be of any type with a decidable linear order; most maps are keyed
by identifiers.

Main definitions:

- {lit}`SortedMap`: finite maps.
- {lit}`IdMap`, {lit}`IdSet`: finite maps and finite sets of identifiers.

Main results:

- {lit}`SortedMap.get?_insert`, {lit}`SortedMap.get?_erase`: look-up after a change.
- {lit}`SortedMap.mem_entries_iff`: the entries are what look-up finds.
- {lit}`SortedMap.ext_get?`: maps with equal look-ups are equal.
-/

namespace QueryGraph

/-- A finite map. -/
structure SortedMap (κ α : Type) [LT κ] where
  /-- The entries. -/
  entries : List (κ × α)
  /-- Keys ascend strictly. -/
  ascending : (entries.map Prod.fst).Pairwise (· < ·)

/-- A finite map from identifiers. -/
abbrev IdMap (α : Type) := SortedMap NodeId α

/-- A finite set of identifiers. -/
abbrev IdSet := IdMap Unit

namespace SortedMap

variable {κ α : Type} [LT κ]

instance [Repr κ] [Repr α] : Repr (SortedMap κ α) where
  reprPrec m n := reprPrec m.entries n

/-- Maps with the same entries are equal. -/
theorem ext_entries {m n : SortedMap κ α} (h : m.entries = n.entries) : m = n := by
  cases m
  cases n
  cases h
  rfl

/-- The map without entries. -/
def empty : SortedMap κ α :=
  ⟨[], List.Pairwise.nil⟩

/-- The keys in ascending order. -/
def keys (m : SortedMap κ α) : List κ :=
  m.entries.map Prod.fst

/-- The values in ascending order of their keys. -/
def values (m : SortedMap κ α) : List α :=
  m.entries.map Prod.snd

/-- The number of entries. -/
def size (m : SortedMap κ α) : Nat :=
  m.entries.length

/-- Whether there is no entry. -/
def isEmpty (m : SortedMap κ α) : Bool :=
  m.entries.isEmpty

variable [DecidableEq κ]

instance [DecidableEq α] : DecidableEq (SortedMap κ α) := fun m n =>
  decidable_of_iff (m.entries = n.entries) ⟨ext_entries, congrArg entries⟩

/-- The value under a key. -/
def get? (m : SortedMap κ α) (k : κ) : Option α :=
  (m.entries.find? (·.1 = k)).map Prod.snd

/-- Whether a key has a value. -/
def contains (m : SortedMap κ α) (k : κ) : Bool :=
  (m.get? k).isSome

/-- Removes a key. -/
def erase (m : SortedMap κ α) (k : κ) : SortedMap κ α :=
  ⟨m.entries.filter (·.1 ≠ k), m.ascending.sublist (List.filter_sublist.map _)⟩

/-- Nothing is found in the empty map. -/
@[simp] theorem get?_empty (i : κ) : (empty : SortedMap κ α).get? i = none := rfl

/-- Removing a key hides what was under it and nothing else. -/
theorem get?_erase (m : SortedMap κ α) (k i : κ) :
    (m.erase k).get? i = if k = i then none else m.get? i := by
  unfold get? erase
  rw [List.find?_filter]
  by_cases h : k = i
  · subst h
    rw [if_pos rfl, List.find?_eq_none.2, Option.map_none]
    intro e _
    simp
  · rw [if_neg h]
    congr 2
    funext e
    by_cases he : e.1 = i
    · simp [he, Ne.symm h]
    · simp [he]

/-! ## Setting a value -/

section Insertion

variable [DecidableLT κ]

/-- Puts an entry in its place among ascending entries, instead of one with the
same key. -/
def insertEntry (k : κ) (v : α) : List (κ × α) → List (κ × α)
  | [] => [(k, v)]
  | (j, w) :: rest =>
    if k < j then (k, v) :: (j, w) :: rest
    else if j < k then (j, w) :: insertEntry k v rest
    else (k, v) :: rest

variable [LE κ] [Std.IsLinearOrder κ] [Std.LawfulOrderLT κ]

omit [DecidableEq κ] in
/-- The keys after an entry is put in its place. -/
theorem mem_keys_insertEntry {k i : κ} {v : α} {es : List (κ × α)} :
    i ∈ (insertEntry k v es).map Prod.fst ↔ i = k ∨ i ∈ es.map Prod.fst := by
  induction es with
  | nil => simp [insertEntry]
  | cons e es ih =>
    obtain ⟨j, w⟩ := e
    by_cases hkj : k < j
    · simp [insertEntry, hkj]
    · by_cases hjk : j < k
      · simp only [insertEntry, hkj, hjk, if_true, if_false, List.map_cons, List.mem_cons, ih]
        exact or_left_comm
      · have heq : j = k := Std.le_antisymm (Std.not_lt.1 hkj) (Std.not_lt.1 hjk)
        subst heq
        simp [insertEntry, hkj]

omit [DecidableEq κ] in
/-- Putting an entry in its place keeps the keys ascending. -/
theorem ascending_insertEntry (k : κ) (v : α) {es : List (κ × α)}
    (h : (es.map Prod.fst).Pairwise (· < ·)) :
    ((insertEntry k v es).map Prod.fst).Pairwise (· < ·) := by
  induction es with
  | nil => simp [insertEntry]
  | cons e es ih =>
    obtain ⟨j, w⟩ := e
    obtain ⟨hj, hes⟩ := List.pairwise_cons.1 h
    by_cases hkj : k < j
    · simp only [insertEntry, hkj, if_true, List.map_cons]
      refine List.pairwise_cons.2 ⟨fun i hi => ?_, h⟩
      rcases List.mem_cons.1 hi with rfl | hi
      · exact hkj
      · exact Std.lt_trans hkj (hj i hi)
    · by_cases hjk : j < k
      · simp only [insertEntry, hkj, hjk, if_true, if_false, List.map_cons]
        refine List.pairwise_cons.2 ⟨fun i hi => ?_, ih hes⟩
        rcases mem_keys_insertEntry.1 hi with rfl | hi
        · exact hjk
        · exact hj i hi
      · have heq : j = k := Std.le_antisymm (Std.not_lt.1 hkj) (Std.not_lt.1 hjk)
        subst heq
        simpa [insertEntry, hkj] using h

/-- What is found once an entry was put in its place. -/
theorem find?_insertEntry {k : κ} {v : α} {es : List (κ × α)} (i : κ) :
    ((insertEntry k v es).find? (·.1 = i)).map Prod.snd =
      if k = i then some v else (es.find? (·.1 = i)).map Prod.snd := by
  induction es with
  | nil => by_cases h : k = i <;> simp [insertEntry, h]
  | cons e es ih =>
    obtain ⟨j, w⟩ := e
    by_cases hkj : k < j
    · simp only [insertEntry, hkj, if_true]
      by_cases h : k = i <;> simp [h]
    · by_cases hjk : j < k
      · simp only [insertEntry, hkj, hjk, if_true, if_false, List.find?_cons]
        by_cases hji : j = i
        · have hki : k ≠ i := by
            rintro rfl
            exact Std.lt_irrefl (hji ▸ hjk)
          simp [hji, hki]
        · simpa [hji] using ih
      · have heq : j = k := Std.le_antisymm (Std.not_lt.1 hkj) (Std.not_lt.1 hjk)
        subst heq
        simp only [insertEntry, hkj, if_false]
        by_cases h : j = i <;> simp [h]

/-- Sets the value under a key. -/
def insert (m : SortedMap κ α) (k : κ) (v : α) : SortedMap κ α :=
  ⟨insertEntry k v m.entries, ascending_insertEntry k v m.ascending⟩

/-- Sets many values, later ones over earlier ones. -/
def insertAll (m : SortedMap κ α) (entries : List (κ × α)) : SortedMap κ α :=
  entries.foldl (fun m e => m.insert e.1 e.2) m

/-- The map that holds the given entries, later ones over earlier ones. -/
def ofList (entries : List (κ × α)) : SortedMap κ α :=
  empty.insertAll entries

/-- Setting a value hides what was under its key and nothing else. -/
theorem get?_insert (m : SortedMap κ α) (k : κ) (v : α) (i : κ) :
    (m.insert k v).get? i = if k = i then some v else m.get? i :=
  find?_insertEntry i

/-- A value that was set is found. -/
@[simp] theorem get?_insert_self (m : SortedMap κ α) (k : κ) (v : α) :
    (m.insert k v).get? k = some v := by
  simp [get?_insert]

end Insertion

/-! ## Entries and look-up -/

variable [LE κ] [Std.LawfulOrderLT κ]

/-- The entries are exactly what look-up finds. -/
theorem mem_entries_iff {m : SortedMap κ α} {k : κ} {v : α} :
    (k, v) ∈ m.entries ↔ m.get? k = some v := by
  obtain ⟨es, h⟩ := m
  unfold get?
  induction es with
  | nil => simp
  | cons e es ih =>
    obtain ⟨j, w⟩ := e
    obtain ⟨hj, hes⟩ := List.pairwise_cons.1 h
    have ih := ih hes
    simp only [List.mem_cons, Prod.mk.injEq, List.find?_cons] at ih ⊢
    by_cases hjk : j = k
    · subst hjk
      have hnot : (j, v) ∉ es := fun hmem =>
        Std.lt_irrefl (hj j (List.mem_map_of_mem hmem))
      simp [hnot, eq_comm]
    · rw [ih]
      simp [hjk, Ne.symm hjk]

/-- The keys are those under which look-up finds a value. -/
theorem mem_keys_iff {m : SortedMap κ α} {k : κ} : k ∈ m.keys ↔ m.contains k = true := by
  unfold keys contains
  rw [List.mem_map, Option.isSome_iff_exists]
  constructor
  · rintro ⟨⟨j, v⟩, hmem, rfl⟩
    exact ⟨v, mem_entries_iff.1 hmem⟩
  · rintro ⟨v, hv⟩
    exact ⟨(k, v), mem_entries_iff.2 hv, rfl⟩

variable [Std.IsLinearOrder κ]

omit [DecidableEq κ] in
/-- Lists of entries with ascending keys are equal if they have the same entries. -/
theorem eq_of_pairwise_of_mem_iff {xs ys : List (κ × α)}
    (hx : (xs.map Prod.fst).Pairwise (· < ·)) (hy : (ys.map Prod.fst).Pairwise (· < ·))
    (h : ∀ e, e ∈ xs ↔ e ∈ ys) : xs = ys := by
  induction xs generalizing ys with
  | nil =>
    cases ys with
    | nil => rfl
    | cons e ys => exact absurd ((h e).2 List.mem_cons_self) (by simp)
  | cons d xs ih =>
    cases ys with
    | nil => exact absurd ((h d).1 List.mem_cons_self) (by simp)
    | cons e ys =>
      obtain ⟨hd, hxs⟩ := List.pairwise_cons.1 hx
      obtain ⟨he, hys⟩ := List.pairwise_cons.1 hy
      have hde : d = e := by
        rcases List.mem_cons.1 ((h d).1 List.mem_cons_self) with hde | hdy
        · exact hde
        · rcases List.mem_cons.1 ((h e).2 List.mem_cons_self) with hed | hex
          · exact hed.symm
          · exact absurd (Std.lt_trans (he d.1 (List.mem_map_of_mem hdy))
              (hd e.1 (List.mem_map_of_mem hex))) Std.lt_irrefl
      subst hde
      have hnx : d ∉ xs := fun hmem => Std.lt_irrefl (hd d.1 (List.mem_map_of_mem hmem))
      have hny : d ∉ ys := fun hmem => Std.lt_irrefl (he d.1 (List.mem_map_of_mem hmem))
      refine congrArg (d :: ·) (ih hxs hys fun x => ?_)
      have hx := h x
      simp only [List.mem_cons] at hx
      constructor
      · intro hmem
        exact (hx.1 (Or.inr hmem)).resolve_left fun heq => hnx (heq ▸ hmem)
      · intro hmem
        exact (hx.2 (Or.inr hmem)).resolve_left fun heq => hny (heq ▸ hmem)

/-- Maps that answer every look-up alike are equal. -/
theorem ext_get? {m n : SortedMap κ α} (h : ∀ k, m.get? k = n.get? k) : m = n := by
  refine ext_entries (eq_of_pairwise_of_mem_iff m.ascending n.ascending fun e => ?_)
  obtain ⟨k, v⟩ := e
  rw [mem_entries_iff, mem_entries_iff, h]

end SortedMap

end QueryGraph
