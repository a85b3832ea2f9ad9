import QueryGraph.Graph.SortedMap

/-!
# Labelled edges

Edges lead from a child to a parent and carry a label.  A store keeps the label of
each edge under its two ends, and indexes the edges from both ends, so that the
parents of a child and the children of a parent are listed without a search, each in
the order in which the edges were added.  The three maps are updated one by one.

Main definitions:

- {lit}`EdgeStore.add`: adds an edge or relabels it in place.
- {lit}`EdgeStore.remove`: removes an edge; no empty list stays behind.
- {lit}`EdgeStore.sortChildren`: puts the children of a vertex in ascending order.
- {lit}`EdgeStore.edges`: all edges, by ascending child.
-/

namespace QueryGraph

/-! ## Ends -/

/-- The ends of an edge. -/
structure Ends where
  child : NodeId
  parent : NodeId
deriving DecidableEq, Repr

namespace Ends

/-- Ends are ordered by child, those of one child by parent. -/
instance : LT Ends :=
  ⟨fun d e => d.child < e.child ∨ (d.child = e.child ∧ d.parent < e.parent)⟩

/-- The order of ends, spelled out. -/
theorem lt_iff {d e : Ends} :
    d < e ↔ d.child < e.child ∨ (d.child = e.child ∧ d.parent < e.parent) :=
  Iff.rfl

instance : DecidableLT Ends := fun _ _ => decidable_of_iff _ lt_iff.symm

instance : LE Ends := LE.ofLT Ends

/-- What is not before other ends comes after them in both parts, the child first. -/
theorem not_lt_iff {d e : Ends} :
    ¬d < e ↔ e.child < d.child ∨ (d.child = e.child ∧ e.parent ≤ d.parent) := by
  rw [lt_iff, not_or, not_and, UInt64.not_lt, UInt64.not_lt]
  constructor
  · rintro ⟨hchild, hparent⟩
    by_cases heq : d.child = e.child
    · exact Or.inr ⟨heq, hparent heq⟩
    · exact Or.inl (UInt64.lt_of_le_of_ne hchild (Ne.symm heq))
  · rintro (hlt | ⟨heq, hle⟩)
    · exact ⟨UInt64.le_of_lt hlt, fun heq => absurd hlt (heq ▸ UInt64.lt_irrefl _)⟩
    · exact ⟨heq ▸ UInt64.le_refl _, fun _ => hle⟩

instance : Std.Asymm fun d e : Ends => d < e where
  asymm d e hde hed := by
    rcases lt_iff.1 hde with hlt | ⟨heq, hlt⟩
    · rcases lt_iff.1 hed with hgt | ⟨heq, -⟩
      · exact UInt64.lt_asymm hlt hgt
      · exact UInt64.lt_irrefl _ (heq ▸ hlt)
    · rcases lt_iff.1 hed with hgt | ⟨-, hgt⟩
      · exact UInt64.lt_irrefl _ (heq ▸ hgt)
      · exact UInt64.lt_asymm hlt hgt

instance : Trans (fun d e : Ends => ¬d < e) (fun d e : Ends => ¬d < e)
    (fun d e : Ends => ¬d < e) where
  trans {d e f} hde hef := by
    rw [not_lt_iff] at hde hef ⊢
    rcases hde with hlt | ⟨heq, hle⟩
    · rcases hef with hgt | ⟨heq, -⟩
      · exact Or.inl (UInt64.lt_trans hgt hlt)
      · exact Or.inl (heq ▸ hlt)
    · rcases hef with hgt | ⟨heq', hle'⟩
      · exact Or.inl (heq ▸ hgt)
      · exact Or.inr ⟨heq.trans heq', UInt64.le_trans hle' hle⟩

instance : Std.Trichotomous fun d e : Ends => d < e where
  trichotomous d e hde hed := by
    rcases not_lt_iff.1 hde with hlt | ⟨heq, hle⟩
    · exact absurd (Or.inl hlt) hed
    · rcases not_lt_iff.1 hed with hlt | ⟨-, hge⟩
      · exact absurd hlt (heq ▸ UInt64.lt_irrefl _)
      · cases d
        cases e
        exact congr (congrArg Ends.mk heq) (UInt64.le_antisymm hge hle)

instance : Std.IsLinearOrder Ends := .of_lt

instance : Std.LawfulOrderLT Ends := .of_lt

end Ends

/-- An edge with its ends. -/
structure Edge (ε : Type) where
  child : NodeId
  parent : NodeId
  label : ε
deriving DecidableEq, Repr

/-! ## Lists under a key -/

namespace SortedMap

variable {α : Type}

/-- The list under a key, empty where there is none. -/
def getList (m : IdMap (List α)) (k : NodeId) : List α :=
  (m.get? k).getD []

/-- Puts an item at the end of the list under a key. -/
def push (m : IdMap (List α)) (k : NodeId) (a : α) : IdMap (List α) :=
  m.insert k (m.getList k ++ [a])

/-- Sets the list under a key; an empty list removes the key. -/
def setList (m : IdMap (List α)) (k : NodeId) (list : List α) : IdMap (List α) :=
  if list.isEmpty then m.erase k else m.insert k list

/-- Takes an item out of the list under a key; a list that gets empty takes its key
with it. -/
def unlink [DecidableEq α] (m : IdMap (List α)) (k : NodeId) (a : α) : IdMap (List α) :=
  match m.get? k with
  | some list => m.setList k (list.filter (· ≠ a))
  | none => m

/-- Setting a list changes the list under its key and no other. -/
theorem getList_insert (m : IdMap (List α)) (k i : NodeId) (list : List α) :
    (m.insert k list).getList i = if k = i then list else m.getList i := by
  unfold getList
  rw [get?_insert]
  split <;> rfl

/-- So does setting a list that may be empty. -/
theorem getList_setList (m : IdMap (List α)) (k i : NodeId) (list : List α) :
    (m.setList k list).getList i = if k = i then list else m.getList i := by
  unfold setList
  cases list with
  | nil =>
    unfold getList
    by_cases h : k = i <;> simp [h, get?_erase]
  | cons a list => exact getList_insert m k i (a :: list)

/-- An item that is pushed comes last. -/
theorem getList_push (m : IdMap (List α)) (k i : NodeId) (a : α) :
    (m.push k a).getList i = if k = i then m.getList i ++ [a] else m.getList i := by
  unfold push
  rw [getList_insert]
  split
  · next h => rw [h]
  · rfl

/-- Unlinking takes one item out of one list. -/
theorem getList_unlink [DecidableEq α] (m : IdMap (List α)) (k i : NodeId) (a : α) :
    (m.unlink k a).getList i =
      if k = i then (m.getList i).filter (· ≠ a) else m.getList i := by
  unfold unlink
  by_cases h : k = i
  · subst h
    rw [if_pos rfl]
    cases hk : m.get? k with
    | none => simp [getList, hk]
    | some list =>
      calc
        (m.setList k (list.filter (· ≠ a))).getList k = list.filter (· ≠ a) := by
          rw [getList_setList, if_pos rfl]
        _ = (m.getList k).filter (· ≠ a) := by rw [getList, hk, Option.getD_some]
  · rw [if_neg h]
    cases m.get? k with
    | none => rfl
    | some list =>
      change (m.setList k (list.filter (· ≠ a))).getList i = m.getList i
      rw [getList_setList, if_neg h]

end SortedMap

/-! ## The store -/

/-- A set of labelled edges between identifiers. -/
structure EdgeStore (ε : Type) where
  /-- The label of each edge. -/
  labels : SortedMap Ends ε
  /-- The parents of each child. -/
  outgoing : IdMap (List NodeId)
  /-- The children of each parent. -/
  incoming : IdMap (List NodeId)
deriving DecidableEq, Repr

namespace EdgeStore

variable {ε : Type}

/-- The store without edges. -/
def empty : EdgeStore ε :=
  ⟨.empty, .empty, .empty⟩

/-- The label of an edge. -/
def label? (s : EdgeStore ε) (child parent : NodeId) : Option ε :=
  s.labels.get? ⟨child, parent⟩

/-- Whether there is an edge. -/
def hasEdge (s : EdgeStore ε) (child parent : NodeId) : Bool :=
  s.labels.contains ⟨child, parent⟩

/-- The parents of a child. -/
def parents (s : EdgeStore ε) (child : NodeId) : List NodeId :=
  s.outgoing.getList child

/-- The children of a parent. -/
def children (s : EdgeStore ε) (parent : NodeId) : List NodeId :=
  s.incoming.getList parent

/-- All edges by ascending child, those of one child in the order of its
parents.  A listed parent without a label is passed over. -/
def edges (s : EdgeStore ε) : List (Edge ε) :=
  s.outgoing.keys.flatMap fun child =>
    (s.parents child).filterMap fun parent =>
      (s.label? child parent).map fun label => ⟨child, parent, label⟩

/-- The number of edges. -/
def size (s : EdgeStore ε) : Nat :=
  s.labels.size

/-- Whether there is no edge. -/
def isEmpty (s : EdgeStore ε) : Bool :=
  s.labels.isEmpty

/-- Adds an edge.  One that is there already keeps its place and gets the new
label, and the old label is given back. -/
def add (s : EdgeStore ε) (child parent : NodeId) (label : ε) : Option ε × EdgeStore ε :=
  match s.labels.get? ⟨child, parent⟩ with
  | some old => (some old, { s with labels := s.labels.insert ⟨child, parent⟩ label })
  | none =>
    (none,
      { labels := s.labels.insert ⟨child, parent⟩ label
        outgoing := s.outgoing.push child parent
        incoming := s.incoming.push parent child })

/-- The store after an edge is added. -/
def insert (s : EdgeStore ε) (e : Edge ε) : EdgeStore ε :=
  (s.add e.child e.parent e.label).2

/-- Removes an edge and gives back its label. -/
def remove (s : EdgeStore ε) (child parent : NodeId) : Option ε × EdgeStore ε :=
  match s.labels.get? ⟨child, parent⟩ with
  | some old =>
    (some old,
      { labels := s.labels.erase ⟨child, parent⟩
        outgoing := s.outgoing.unlink child parent
        incoming := s.incoming.unlink parent child })
  | none => (none, s)

/-- Puts the children of a vertex in ascending order. -/
def sortChildren (s : EdgeStore ε) (parent : NodeId) : EdgeStore ε :=
  match s.incoming.get? parent with
  | some list => { s with incoming := s.incoming.insert parent (list.mergeSort (· ≤ ·)) }
  | none => s

end EdgeStore

end QueryGraph
