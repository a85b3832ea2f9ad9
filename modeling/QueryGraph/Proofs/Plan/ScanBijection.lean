import Mathlib.Data.List.NodupEquivFin
import QueryGraph.Proofs.Graph.MapUpdates
import QueryGraph.Proofs.Node.ChildViews
import QueryGraph.Proofs.Plan.ScanPairs

/-!
# Scans that correspond one to one

Two collections of scans have the same content if and only if there is a bijection between
their keys that leads every scan to one of the same content.  What the keys and the
identifiers are, and the order in which the scans are met, does not enter into this.

Main definitions:

- {lit}`InputScans.Key`, {lit}`InputScans.nodeAt`: the scans by their keys.
- {lit}`InputScans.Corresponds`: a bijection between the scans by content.
- {lit}`InputScans.Renumbers`: the same scans under other keys and identifiers.

Main results:

- {lit}`exists_perm_forall₂_iff`: pairings of two enumerated types are bijections.
- {lit}`InputScans.sameContent_iff_corresponds`: pairing scans decides whether they correspond.
- {lit}`InputScans.sameContent_exact`: so it is symmetric and transitive, and numbers do not
  matter.
-/

namespace QueryGraph

/-- Lists of all things of two types, each once, can be paired by a relation if and only if
there is a bijection of the types along it. -/
theorem exists_perm_forall₂_iff {α β : Type} {as : List α} {bs : List β} (R : α → β → Prop)
    (has : as.Nodup) (hall : ∀ a, a ∈ as) (hbs : bs.Nodup) (hall' : ∀ b, b ∈ bs) :
    (∃ cs, List.Forall₂ R as cs ∧ cs.Perm bs) ↔ ∃ e : α ≃ β, ∀ a, R a (e a) := by
  classical
  constructor
  · rintro ⟨cs, hagree, hperm⟩
    have hcs : cs.Nodup := hperm.nodup_iff.2 hbs
    have hallCs : ∀ b, b ∈ cs := fun b => hperm.mem_iff.2 (hall' b)
    -- Partners stand at the same place.
    let left := has.getEquivOfForallMemList as hall
    let right := hcs.getEquivOfForallMemList cs hallCs
    refine ⟨left.symm.trans ((finCongr hagree.length_eq).trans right), fun a => ?_⟩
    obtain ⟨i, rfl⟩ := left.surjective a
    rw [Equiv.trans_apply, Equiv.trans_apply, left.symm_apply_apply]
    exact (List.forall₂_iff_get.1 hagree).2 i.1 i.2 (hagree.length_eq ▸ i.2)
  · rintro ⟨e, he⟩
    refine ⟨as.map e, ?_, ?_⟩
    · rw [List.forall₂_map_right_iff, List.forall₂_same]
      exact fun a _ => he a
    · refine (List.perm_ext_iff_of_nodup (has.map e.injective) hbs).2 fun b => ?_
      exact iff_of_true (List.mem_map.2 ⟨e.symm b, hall _, e.apply_symm_apply b⟩) (hall' b)

namespace InputScans

variable {s s' t u : InputScans}

/-- The keys of a collection of scans. -/
abbrev Key (s : InputScans) : Type :=
  {k : NodeId // k ∈ s.scans.keys}

/-- The scan under a key. -/
def nodeAt (s : InputScans) (k : s.Key) : PlanNode :=
  (s.scan? k.1).get (SortedMap.mem_keys_iff.1 k.2)

/-- The scan under a key is the node at that key. -/
theorem scan?_eq_some_iff {k : s.Key} {n : PlanNode} :
    s.scan? k.1 = some n ↔ s.nodeAt k = n := by
  rw [Option.eq_some_iff_get_eq]
  exact ⟨fun ⟨_, h⟩ => h, fun h => ⟨_, h⟩⟩

/-- Every key stands in the list of keys once, so pairing the lists is a bijection. -/
theorem exists_keys_paired_iff {R : s.Key → t.Key → Prop} :
    (∃ ks, List.Forall₂ R s.scans.keys.attach ks ∧ ks.Perm t.scans.keys.attach) ↔
      ∃ e : s.Key ≃ t.Key, ∀ k, R k (e k) :=
  exists_perm_forall₂_iff R (List.nodup_attach.2 s.scans.nodup_keys) (List.mem_attach _)
    (List.nodup_attach.2 t.scans.nodup_keys) (List.mem_attach _)

/-- The nodes are the scans under the keys, in the order of the keys. -/
theorem nodes_eq_map_nodeAt (s : InputScans) : s.nodes = s.scans.keys.attach.map s.nodeAt := by
  have hfound : ∀ k ∈ s.scans.keys.attach, (s.scans.get? ∘ Subtype.val) k = some (s.nodeAt k) :=
    fun k _ => scan?_eq_some_iff.2 rfl
  calc
    s.nodes = s.scans.keys.filterMap s.scans.get? := s.scans.filterMap_get?_keys.symm
    _ = (s.scans.keys.attach.map Subtype.val).filterMap s.scans.get? := by
      rw [List.attach_map_subtype_val]
    _ = s.scans.keys.attach.map s.nodeAt := by
      rw [List.filterMap_map, List.filterMap_congr hfound]
      exact congrFun List.filterMap_eq_map _

/-- A bijection between the scans of two collections, along which contents agree. -/
def Corresponds (s t : InputScans) : Prop :=
  ∃ e : s.Key ≃ t.Key, ∀ k, (s.nodeAt k).sameContent (t.nodeAt (e k)) = true

/-- The second collection has the scans of the first, under other keys and identifiers. -/
def Renumbers (s t : InputScans) : Prop :=
  ∃ e : s.Key ≃ t.Key, ∀ k, (s.nodeAt k).SameBesides (t.nodeAt (e k))

/-- Nodes that are found under keys can be paired if and only if the keys can. -/
theorem paired_map_iff {α β : Type} {as : List α} {bs : List β} (f : α → PlanNode)
    (g : β → PlanNode) :
    Paired (as.map f) (bs.map g) ↔
      ∃ cs, List.Forall₂ (fun a b => (f a).sameContent (g b) = true) as cs ∧ cs.Perm bs := by
  constructor
  · rintro ⟨ns, hagree, hperm⟩
    have hfound : List.Forall₂ (fun n b => n = g b) (bs.map g) bs := by
      rw [List.forall₂_map_left_iff, List.forall₂_same]
      exact fun _ _ => rfl
    obtain ⟨cs, hns, hcs⟩ := List.perm_comp_forall₂ hperm hfound
    obtain rfl : ns = cs.map g := by
      rw [← List.forall₂_eq_eq_eq, List.forall₂_map_right_iff]
      exact hns
    rw [List.forall₂_map_left_iff, List.forall₂_map_right_iff] at hagree
    exact ⟨cs, hagree, hcs⟩
  · rintro ⟨cs, hagree, hperm⟩
    refine ⟨cs.map g, ?_, hperm.map g⟩
    rw [List.forall₂_map_left_iff, List.forall₂_map_right_iff]
    exact hagree

/-- Pairing the scans of two collections finds out whether they correspond. -/
theorem sameContent_iff_corresponds : s.sameContent t = true ↔ s.Corresponds t := by
  rw [sameContent_iff_paired, nodes_eq_map_nodeAt s, nodes_eq_map_nodeAt t, paired_map_iff]
  exact exists_keys_paired_iff

theorem sameContent_comm (s t : InputScans) : s.sameContent t = t.sameContent s := by
  rw [Bool.eq_iff_iff, sameContent_iff_paired, sameContent_iff_paired]
  exact ⟨.symm, .symm⟩

theorem sameContent_trans (hst : s.sameContent t = true) (htu : t.sameContent u = true) :
    s.sameContent u = true :=
  sameContent_iff_paired.2 ((sameContent_iff_paired.1 hst).trans (sameContent_iff_paired.1 htu))

/-- Scans that are the same in the order of their keys are only renumbered. -/
theorem renumbers_of_forall₂ (h : List.Forall₂ PlanNode.SameBesides s.nodes t.nodes) :
    s.Renumbers t := by
  rw [nodes_eq_map_nodeAt s, nodes_eq_map_nodeAt t, List.forall₂_map_left_iff,
    List.forall₂_map_right_iff] at h
  exact exists_keys_paired_iff.1 ⟨_, h, List.Perm.refl _⟩

/-- What scans correspond to does not depend on their keys and identifiers. -/
theorem Renumbers.corresponds_iff (h : s.Renumbers s') : s'.Corresponds t ↔ s.Corresponds t := by
  obtain ⟨g, hg⟩ := h
  have hsame : ∀ (k : s.Key) (n : PlanNode),
      (s'.nodeAt (g k)).sameContent n = (s.nodeAt k).sameContent n :=
    fun k n => PlanNode.sameContent_of_sameBesides (hg k) (.refl n)
  constructor
  · rintro ⟨e, he⟩
    exact ⟨g.trans e, fun k => (hsame k _).symm.trans (he (g k))⟩
  · rintro ⟨e, he⟩
    refine ⟨g.symm.trans e, fun k => ?_⟩
    obtain ⟨j, rfl⟩ := g.surjective k
    rw [hsame, Equiv.trans_apply, g.symm_apply_apply]
    exact he j

/-- Pairing scans greedily is exact: it succeeds if and only if there is a bijection between
the scans along which contents agree.  So it is symmetric and transitive, and it comes out
the same when scans get other keys and identifiers. -/
theorem sameContent_exact (s s' t u : InputScans) :
    (s.sameContent t = true ↔
      ∃ e : s.Key ≃ t.Key, ∀ k, (s.nodeAt k).sameContent (t.nodeAt (e k)) = true)
    ∧ s.sameContent t = t.sameContent s
    ∧ (s.sameContent t = true → t.sameContent u = true → s.sameContent u = true)
    ∧ (s.Renumbers s' → s'.sameContent t = s.sameContent t) := by
  refine ⟨sameContent_iff_corresponds, sameContent_comm s t, sameContent_trans, fun h => ?_⟩
  rw [Bool.eq_iff_iff, sameContent_iff_corresponds, sameContent_iff_corresponds]
  exact h.corresponds_iff

/-- A read of a table. -/
def read (id : NodeId) (table : String) : PlanNode :=
  .leaf id ⟨[⟨"x", .int4⟩]⟩ (.scan table none)

/-- One table read twice, with another in between. -/
def twiceRead : InputScans :=
  ⟨⟨[(1, read 1 "a"), (2, read 2 "b"), (3, read 3 "a")], by decide⟩⟩

/-- The same reads under later keys. -/
def laterRead : InputScans :=
  ⟨⟨[(11, read 11 "a"), (12, read 12 "b"), (13, read 13 "a")], by decide⟩⟩

/-- The same reads, the other table first. -/
def otherFirst : InputScans :=
  ⟨⟨[(4, read 4 "b"), (5, read 5 "a"), (9, read 9 "a")], by decide⟩⟩

/-- The same reads, the other table last. -/
def otherLast : InputScans :=
  ⟨⟨[(4, read 4 "a"), (6, read 6 "a"), (7, read 7 "b")], by decide⟩⟩

/-- One table read twice matches the same reads in another order, whatever the keys. -/
theorem sameContent_exact_twiceRead :
    twiceRead.sameContent otherFirst = true ∧ otherFirst.sameContent otherLast = true
      ∧ twiceRead.Renumbers laterRead
      ∧ (∃ e : twiceRead.Key ≃ otherFirst.Key,
        ∀ k, (twiceRead.nodeAt k).sameContent (otherFirst.nodeAt (e k)) = true)
      ∧ twiceRead.sameContent otherLast = true
      ∧ laterRead.sameContent otherFirst = twiceRead.sameContent otherFirst := by
  have hfirst : twiceRead.sameContent otherFirst = true := by decide
  have hlast : otherFirst.sameContent otherLast = true := by decide
  have hlater : twiceRead.Renumbers laterRead :=
    renumbers_of_forall₂ (.cons ⟨11, rfl⟩ (.cons ⟨12, rfl⟩ (.cons ⟨13, rfl⟩ .nil)))
  obtain ⟨hiff, -, htrans, hrenumbers⟩ :=
    sameContent_exact twiceRead laterRead otherFirst otherLast
  exact ⟨hfirst, hlast, hlater, hiff.1 hfirst, htrans hfirst hlast, hrenumbers hlater⟩

end InputScans

end QueryGraph
