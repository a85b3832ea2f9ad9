/-!
# Enumerations

A finite type whose members have a fixed order and a fixed spelling.  Text
formats write the spelling and binary formats write the position, so both come
with the reader that undoes them.

Main results:

- {lit}`Enumeration.ofTag?_tag`: reading a spelling gives the member back.
- {lit}`Enumeration.ofPosition?_position`: so does reading a position.
-/

namespace QueryGraph

/-- A finite type with ordered members, each with a spelling of its own. -/
class Enumeration (α : Type) [DecidableEq α] where
  /-- All members in their order. -/
  members : List α
  /-- The spelling of a member. -/
  tag : α → String
  /-- No member is left out. -/
  mem_members : ∀ a, a ∈ members
  /-- No two members share a spelling. -/
  tags_nodup : (members.map tag).Nodup

namespace Enumeration

variable {α : Type} [DecidableEq α] [Enumeration α]

/-- The member with a given spelling. -/
def ofTag? (text : String) : Option α :=
  (members : List α).find? (tag · = text)

/-- The place of a member among all members. -/
def position (a : α) : Nat :=
  (members : List α).idxOf a

/-- The member at a given place. -/
def ofPosition? (n : Nat) : Option α :=
  (members : List α)[n]?

/-- No two members have the same tag. -/
theorem tag_injective {a b : α} (h : tag a = tag b) : a = b := by
  obtain ⟨i, hi, rfl⟩ := List.getElem_of_mem (mem_members a)
  obtain ⟨j, hj, rfl⟩ := List.getElem_of_mem (mem_members b)
  have hnodup : ((members : List α).map tag).Nodup := tags_nodup
  have hne := List.pairwise_iff_getElem.1 (List.pairwise_map.1 hnodup)
  rcases Nat.lt_trichotomy i j with hij | rfl | hji
  · exact absurd h (hne i j hi hj hij)
  · rfl
  · exact absurd h.symm (hne j i hj hi hji)

/-- Reading a spelling gives its member. -/
@[simp] theorem ofTag?_tag (a : α) : ofTag? (tag a) = some a := by
  unfold ofTag?
  cases h : (members : List α).find? (tag · = tag a) with
  | none => simpa using List.find?_eq_none.1 h a (mem_members a)
  | some b => exact congrArg some (tag_injective (by simpa using List.find?_some h))

/-- Every member has its place in the list of members. -/
theorem position_lt (a : α) : position a < (members : List α).length :=
  List.idxOf_lt_length_of_mem (mem_members a)

/-- Reading a position gives its member. -/
@[simp] theorem ofPosition?_position (a : α) : ofPosition? (position a) = some a := by
  have h : ofPosition? (position a) = some ((members : List α).get ⟨position a, position_lt a⟩) :=
    List.getElem?_eq_getElem (position_lt a)
  rw [h]
  simp [position, List.getElem_idxOf]

end Enumeration

end QueryGraph
