import Mathlib.Data.List.Nodup
import QueryGraph.Graph.EdgeStore

/-!
# Maps after many changes

What a look-up finds once many entries were set, and maps of lists that keep no
empty list.

Main results:

- {lit}`SortedMap.get?_insertAll_of_mem`, {lit}`SortedMap.get?_insertAll_of_notMem`:
  look-up after many entries were set.
- {lit}`SortedMap.Tidy.ext_getList`: maps without empty lists are equal if they hold
  the same lists.
- {lit}`SortedMap.filter_flatMap_entries`: what is listed under one key, picked out of
  what is listed under all keys.
-/

namespace QueryGraph

/-- Ascending lists of identifiers are equal if they have the same members. -/
theorem ids_eq_of_ascending {xs ys : List NodeId} (hx : xs.Pairwise (· < ·))
    (hy : ys.Pairwise (· < ·)) (h : ∀ i, i ∈ xs ↔ i ∈ ys) : xs = ys := by
  have hperm : xs.Perm ys :=
    (List.perm_ext_iff_of_nodup (hx.imp UInt64.ne_of_lt) (hy.imp UInt64.ne_of_lt)).2 h
  refine hperm.eq_of_pairwise ?_ hx hy
  intro a b _ _ hab hba
  exact absurd (UInt64.lt_trans hab hba) (UInt64.lt_irrefl a)

namespace SortedMap

variable {α β : Type}

section Keys

variable {κ : Type} [LT κ]

/-- A key has a value if look-up finds one. -/
theorem contains_iff [DecidableEq κ] {m : SortedMap κ α} {k : κ} :
    m.contains k = true ↔ ∃ v, m.get? k = some v :=
  Option.isSome_iff_exists

/-- No key has two entries. -/
theorem nodup_keys [Std.Irrefl fun a b : κ => a < b] (m : SortedMap κ α) : m.keys.Nodup :=
  List.Pairwise.imp (fun hlt => Std.ne_of_lt hlt) m.ascending

end Keys

/-- The values of a map are what its keys lead to. -/
theorem mem_values_iff {m : IdMap α} {v : α} : v ∈ m.values ↔ ∃ k, m.get? k = some v := by
  unfold values
  rw [List.mem_map]
  constructor
  · rintro ⟨⟨k, w⟩, hmem, rfl⟩
    exact ⟨k, mem_entries_iff.1 hmem⟩
  · rintro ⟨k, hk⟩
    exact ⟨(k, v), mem_entries_iff.2 hk, rfl⟩

/-- The values are what look-up finds under the keys. -/
theorem filterMap_get?_keys (m : IdMap α) : m.keys.filterMap m.get? = m.values := by
  unfold keys values
  rw [List.filterMap_map, ← List.filterMap_eq_map]
  refine List.filterMap_congr fun e he => ?_
  exact mem_entries_iff.1 he

/-- Where every value knows its key, the values tell the keys. -/
theorem map_values_eq_keys {m : IdMap α} {f : α → NodeId}
    (h : ∀ k v, m.get? k = some v → f v = k) : m.values.map f = m.keys := by
  unfold keys values
  rw [List.map_map]
  refine List.map_congr_left fun e he => ?_
  exact h e.1 e.2 (mem_entries_iff.1 he)

/-! ## Many entries -/

/-- Under a key that is not inserted, a map is as before. -/
theorem get?_insertAll_of_notMem {m : IdMap α} {es : List (NodeId × α)} {k : NodeId}
    (h : k ∉ es.map Prod.fst) : (m.insertAll es).get? k = m.get? k := by
  induction es generalizing m with
  | nil => rfl
  | cons e es ih =>
    rw [List.map_cons, List.mem_cons, not_or] at h
    calc
      ((m.insert e.1 e.2).insertAll es).get? k = (m.insert e.1 e.2).get? k := ih h.2
      _ = m.get? k := by rw [get?_insert, if_neg (Ne.symm h.1)]

/-- Every entry is found if no two of them have the same key. -/
theorem get?_insertAll_of_mem {m : IdMap α} {es : List (NodeId × α)} {k : NodeId} {v : α}
    (hkeys : (es.map Prod.fst).Nodup) (h : (k, v) ∈ es) :
    (m.insertAll es).get? k = some v := by
  induction es generalizing m with
  | nil => simp at h
  | cons e es ih =>
    rw [List.map_cons, List.nodup_cons] at hkeys
    change ((m.insert e.1 e.2).insertAll es).get? k = some v
    rcases List.mem_cons.1 h with rfl | hmem
    · rw [get?_insertAll_of_notMem hkeys.1, get?_insert_self]
    · exact ih hkeys.2 hmem

/-- What is found was set or was there before. -/
theorem mem_or_of_get?_insertAll {m : IdMap α} {es : List (NodeId × α)} {k : NodeId} {v : α}
    (h : (m.insertAll es).get? k = some v) : (k, v) ∈ es ∨ m.get? k = some v := by
  induction es generalizing m with
  | nil => exact Or.inr h
  | cons e es ih =>
    rcases ih h with hmem | hget
    · exact Or.inl (List.mem_cons_of_mem e hmem)
    · rw [get?_insert] at hget
      by_cases hk : e.1 = k
      · rw [if_pos hk, Option.some.injEq] at hget
        subst hk hget
        exact Or.inl List.mem_cons_self
      · rw [if_neg hk] at hget
        exact Or.inr hget

/-- Setting entries that were changed by a function finds the changed values. -/
theorem get?_insertAll_map (f : α → β) {m : IdMap α} {n : IdMap β}
    (h : ∀ k, n.get? k = (m.get? k).map f) (es : List (NodeId × α)) (k : NodeId) :
    (n.insertAll (es.map fun e => (e.1, f e.2))).get? k = ((m.insertAll es).get? k).map f := by
  induction es generalizing m n with
  | nil => exact h k
  | cons e es ih =>
    refine ih fun j => ?_
    rw [get?_insert, get?_insert, h j]
    by_cases hj : e.1 = j
    · simp [hj]
    · simp [hj]

/-- Setting all entries of a map makes it win over the map that was there. -/
theorem get?_insertAll_entries (m n : IdMap α) (k : NodeId) :
    (m.insertAll n.entries).get? k = (n.get? k).or (m.get? k) := by
  cases hk : n.get? k with
  | some v => exact get?_insertAll_of_mem n.nodup_keys (mem_entries_iff.2 hk)
  | none =>
    refine get?_insertAll_of_notMem fun hmem => ?_
    rw [show n.entries.map Prod.fst = n.keys from rfl, mem_keys_iff, contains_iff] at hmem
    rcases hmem with ⟨v, hv⟩
    rw [hk] at hv
    contradiction

/-- The entries of a map make that map. -/
theorem ofList_entries (m : IdMap α) : ofList m.entries = m := by
  refine ext_get? fun k => ?_
  rw [ofList, get?_insertAll_entries, get?_empty, Option.or_none]

/-! ## Maps of lists -/

/-- No key holds an empty list. -/
def Tidy (m : IdMap (List α)) : Prop :=
  ∀ k, m.get? k ≠ some []

@[simp] theorem getList_empty (k : NodeId) : (empty : IdMap (List α)).getList k = [] :=
  rfl

theorem tidy_empty : (empty : IdMap (List α)).Tidy := by
  intro k h
  simp at h

/-- Putting a list with items under a key leaves no empty list. -/
theorem Tidy.insert {m : IdMap (List α)} (h : m.Tidy) (k : NodeId) {list : List α}
    (hlist : list ≠ []) : (m.insert k list).Tidy := by
  intro i
  rw [get?_insert]
  split
  · simpa using hlist
  · exact h i

/-- Adding an item to a list leaves no empty list. -/
theorem Tidy.push {m : IdMap (List α)} (h : m.Tidy) (k : NodeId) (a : α) : (m.push k a).Tidy :=
  h.insert k (by simp)

/-- Putting any list under a key leaves none, as an empty list is not stored. -/
theorem Tidy.setList {m : IdMap (List α)} (h : m.Tidy) (k : NodeId) (list : List α) :
    (m.setList k list).Tidy := by
  unfold SortedMap.setList
  cases list with
  | nil =>
    intro i
    rw [List.isEmpty_nil, if_pos rfl, get?_erase]
    split
    · simp
    · exact h i
  | cons a list => exact h.insert k (List.cons_ne_nil a list)

/-- Taking an item out leaves no empty list: the key goes away with the last item. -/
theorem Tidy.unlink [DecidableEq α] {m : IdMap (List α)} (h : m.Tidy) (k : NodeId) (a : α) :
    (m.unlink k a).Tidy := by
  unfold SortedMap.unlink
  split
  · exact h.setList k _
  · exact h

/-- A map without empty lists is told by the lists it holds. -/
theorem Tidy.get?_eq_some_iff {m : IdMap (List α)} (h : m.Tidy) {k : NodeId} {list : List α} :
    m.get? k = some list ↔ m.getList k = list ∧ list ≠ [] := by
  unfold getList
  cases hk : m.get? k with
  | none =>
    simp only [reduceCtorEq, Option.getD_none, false_iff]
    rintro ⟨rfl, hne⟩
    exact hne rfl
  | some l =>
    simp only [Option.some.injEq, Option.getD_some]
    constructor
    · rintro rfl
      refine ⟨rfl, fun hnil => ?_⟩
      exact h k (hnil ▸ hk)
    · exact And.left

/-- Maps without empty lists are equal if they hold the same lists. -/
theorem Tidy.ext_getList {m n : IdMap (List α)} (hm : m.Tidy) (hn : n.Tidy)
    (h : ∀ k, m.getList k = n.getList k) : m = n := by
  refine ext_get? fun k => Option.ext fun list => ?_
  rw [hm.get?_eq_some_iff, hn.get?_eq_some_iff, h k]

/-- The keys of a map without empty lists are those with an item. -/
theorem Tidy.mem_keys_iff {m : IdMap (List α)} (h : m.Tidy) {k : NodeId} :
    k ∈ m.keys ↔ m.getList k ≠ [] := by
  rw [SortedMap.mem_keys_iff, contains_iff]
  simp only [h.get?_eq_some_iff]
  constructor
  · rintro ⟨_, rfl, hne⟩
    exact hne
  · intro hne
    exact ⟨_, rfl, hne⟩

/-- A map without empty lists, told by the keys that have an item. -/
theorem Tidy.entries_eq_map {m : IdMap (List α)} (h : m.Tidy) {ks : List NodeId}
    (hks : ks.Pairwise (· < ·)) (hmem : ∀ k, k ∈ ks ↔ m.getList k ≠ []) :
    m.entries = ks.map fun k => (k, m.getList k) := by
  apply eq_of_pairwise_of_mem_iff m.ascending
  · rw [List.map_map]
    exact (List.map_id ks).symm ▸ hks
  · rintro ⟨k, list⟩
    rw [mem_entries_iff, h.get?_eq_some_iff, List.mem_map]
    constructor
    · rintro ⟨rfl, hne⟩
      exact ⟨k, (hmem k).2 hne, rfl⟩
    · rintro ⟨j, hj, heq⟩
      obtain ⟨rfl, rfl⟩ := Prod.mk.inj heq
      exact ⟨rfl, (hmem j).1 hj⟩

/-- What distinct keys yield, picked out by one of them. -/
theorem filter_flatMap_of_nodup {ks : List NodeId} (hks : ks.Nodup) {f : NodeId → List β}
    {key : β → NodeId} (hkey : ∀ k, ∀ b ∈ f k, key b = k) (k : NodeId) :
    (ks.flatMap f).filter (fun b => key b = k) = if k ∈ ks then f k else [] := by
  have hfilter : ∀ j, (f j).filter (fun b => key b = k) = if j = k then f k else [] := by
    intro j
    split
    · next hjk =>
      subst hjk
      exact List.filter_eq_self.2 fun b hb => decide_eq_true (hkey j b hb)
    · next hjk =>
      refine List.filter_eq_nil_iff.2 fun b hb => ?_
      rw [hkey j b hb]
      simpa using hjk
  rw [List.filter_flatMap]
  simp only [hfilter]
  induction ks with
  | nil => rfl
  | cons j ks ih =>
    rw [List.nodup_cons] at hks
    rw [List.flatMap_cons, ih hks.2]
    by_cases hjk : j = k
    · subst hjk
      simp [hks.1]
    · simp [hjk, Ne.symm hjk]

/-- What is listed under one key is what all lists together hold of it. -/
theorem filter_flatMap_entries {m : IdMap (List α)} (f : NodeId → α → β) (key : β → NodeId)
    (hkey : ∀ k a, key (f k a) = k) (k : NodeId) :
    (m.entries.flatMap fun e => e.2.map (f e.1)).filter (fun b => key b = k) =
      (m.getList k).map (f k) := by
  have hkeys : m.entries.flatMap (fun e => e.2.map (f e.1)) =
      m.keys.flatMap fun j => (m.getList j).map (f j) := by
    unfold keys
    rw [List.flatMap_map]
    refine List.flatMap_congr fun e he => ?_
    rw [getList, mem_entries_iff.1 he, Option.getD_some]
  rw [hkeys, filter_flatMap_of_nodup m.nodup_keys]
  · split
    · rfl
    · next hk =>
      rw [SortedMap.mem_keys_iff, Bool.not_eq_true] at hk
      have hnone : m.get? k = none := by simpa [contains] using hk
      rw [getList, hnone]
      rfl
  · intro j b hb
    obtain ⟨a, -, rfl⟩ := List.mem_map.1 hb
    exact hkey j a

end SortedMap

end QueryGraph
