import QueryGraph.Proofs.Node.Captures
import QueryGraph.Proofs.Plan.Commit

/-!
# The course of a build

A build takes the pending fragments one after the other.  Each that can be lowered
is added as a whole, the first that cannot ends the build, and a build that comes
to its end sorts the fragments under the terminal.

Main definitions:

- {lit}`Plan.pendingTrees`: the trees that a build is to lower, in order.
- {lit}`Plan.Captured`: every registered fragment is that of a tree.
- {lit}`Plan.LowersTo`: the course of a build.
- {lit}`Plan.AdmitsAll`: trees that can be lowered one after the other.

Main results:

- {lit}`Plan.Captured.lowersTo_build`: a build takes this course.
- {lit}`Plan.LowersTo.unique`: the course is determined.
- {lit}`Plan.admitsAll_or_exists_firstClash`: a build can lower all trees, or comes
  to the first that cannot be lowered.
- {lit}`Plan.Captured.pendingTrees_commitTrees`: what is still pending after some
  trees.
-/

namespace QueryGraph

namespace Plan

variable {p q : Plan} {t : PlanNode} {ts : List PlanNode} {error : Option LoweringError}

/-! ## Registered trees -/

/-- The tree of the fragment with a given root. -/
def tree? (p : Plan) (root : NodeId) : Option PlanNode :=
  (p.fragments.get? root).bind Fragment.toTree?

/-- The trees of the fragments that are not part of the graph yet, by ascending
root. -/
def pendingTrees (p : Plan) : List PlanNode :=
  p.pending.filterMap p.tree?

/-- Every registered fragment is that of a tree, under the identifier of its
root. -/
def Captured (p : Plan) : Prop :=
  ∀ root f, p.fragments.get? root = some f → ∃ t : PlanNode, t.id = root ∧ f = Fragment.capture t

/-- A fragment under a root is given back as the tree that was captured. -/
theorem tree?_eq_some_of_get? {root : NodeId}
    (h : p.fragments.get? root = some (Fragment.capture t)) : p.tree? root = some t := by
  unfold tree?
  rw [h, Option.bind_some, Fragment.toTree?_capture]

/-- A tree that is given back is the one that was captured under its own root. -/
theorem Captured.get?_of_tree? (h : p.Captured) {root : NodeId} (ht : p.tree? root = some t) :
    p.fragments.get? root = some (Fragment.capture t) ∧ t.id = root := by
  unfold tree? at ht
  cases hf : p.fragments.get? root with
  | none =>
    rw [hf] at ht
    contradiction
  | some f =>
    rcases h root f hf with ⟨u, hu, rfl⟩
    rw [hf, Option.bind_some, Fragment.toTree?_capture, Option.some.injEq] at ht
    subst ht
    exact ⟨rfl, hu⟩

/-- A plan still holds captured trees only after one more was put under its root. -/
theorem Captured.insert (h : p.Captured) (ht : q.fragments = p.fragments.insert t.id (.capture t)) :
    q.Captured := by
  intro root f hf
  rw [ht, SortedMap.get?_insert] at hf
  split at hf
  · next hroot =>
    cases hf
    exact ⟨t, hroot, rfl⟩
  · exact h root f hf

/-- A tree whose root is part of the graph already is ignored. -/
theorem register_of_isLowered (h : p.isLowered (unwrapRoot t).id = true) :
    (p.register t).2 = p := by
  unfold register
  simp only [h, if_true]

/-- Any other tree is kept, in place of one with the same root. -/
theorem register_of_not_isLowered (h : p.isLowered (unwrapRoot t).id = false) :
    (p.register t).2 =
      { p with
        fragments := p.fragments.insert (unwrapRoot t).id (Fragment.capture (unwrapRoot t))
        built := false } := by
  unfold register
  simp only [h, Bool.false_eq_true, if_false]

/-- The pending roots are those of the fragments that have not been lowered. -/
theorem mem_pending_iff {root : NodeId} :
    root ∈ p.pending ↔ p.fragments.contains root = true ∧ p.isLowered root = false := by
  unfold pending
  rw [List.mem_filter, SortedMap.mem_keys_iff, Bool.not_eq_true']

/-- Every pending root has a tree. -/
theorem Captured.exists_tree_of_mem_pending (h : p.Captured) {root : NodeId}
    (hroot : root ∈ p.pending) : ∃ t, p.tree? root = some t ∧ t.id = root := by
  rcases SortedMap.contains_iff.1 (mem_pending_iff.1 hroot).1 with ⟨f, hf⟩
  rcases h root f hf with ⟨t, ht, rfl⟩
  exact ⟨t, tree?_eq_some_of_get? hf, ht⟩

/-- Trees that are looked up by their roots come in the order of the roots. -/
theorem map_id_filterMap_tree? {roots : List NodeId}
    (h : ∀ root ∈ roots, ∃ t, p.tree? root = some t ∧ t.id = root) :
    (roots.filterMap p.tree?).map PlanNode.id = roots := by
  induction roots with
  | nil => rfl
  | cons root roots ih =>
    rcases h root List.mem_cons_self with ⟨t, ht, hid⟩
    rw [List.filterMap_cons_some ht, List.map_cons, hid,
      ih fun r hr => h r (List.mem_cons_of_mem root hr)]

/-- The pending trees have the pending roots. -/
theorem Captured.map_id_pendingTrees (h : p.Captured) :
    p.pendingTrees.map PlanNode.id = p.pending :=
  map_id_filterMap_tree? fun _ hroot => h.exists_tree_of_mem_pending hroot

/-- Pending roots come in ascending order. -/
theorem pairwise_pending (p : Plan) : p.pending.Pairwise (· < ·) :=
  p.fragments.ascending.filter _

/-- Pending trees come by ascending root, so no two of them have the same one. -/
theorem Captured.pairwise_pendingTrees (h : p.Captured) :
    (p.pendingTrees.map PlanNode.id).Pairwise (· < ·) := by
  rw [h.map_id_pendingTrees]
  exact p.pairwise_pending

/-- A tree is pending if its fragment is kept under its root and was not lowered yet. -/
theorem Captured.mem_pendingTrees_iff (h : p.Captured) :
    t ∈ p.pendingTrees ↔
      p.fragments.get? t.id = some (Fragment.capture t) ∧ p.isLowered t.id = false := by
  unfold pendingTrees
  rw [List.mem_filterMap]
  constructor
  · rintro ⟨root, hroot, ht⟩
    rcases h.get?_of_tree? ht with ⟨hget, rfl⟩
    exact ⟨hget, (mem_pending_iff.1 hroot).2⟩
  · rintro ⟨hget, hlow⟩
    refine ⟨t.id, mem_pending_iff.2 ⟨?_, hlow⟩, tree?_eq_some_of_get? hget⟩
    exact SortedMap.contains_iff.2 ⟨_, hget⟩

/-! ## The course -/

/-- A build that has come to a plan with some trees left: where it ends, and the
error that stops it. -/
inductive LowersTo : Plan → List PlanNode → Plan → Option LoweringError → Prop
  /-- No tree is left. -/
  | done (p : Plan) : LowersTo p [] p.finish none
  /-- The next tree is added as a whole. -/
  | step {p q : Plan} {t : PlanNode} {ts : List PlanNode} {error : Option LoweringError}
      (h : t.Lowerable p.vertices.contains) (rest : LowersTo (p.commitTree t) ts q error) :
      LowersTo p (t :: ts) q error
  /-- The next tree cannot be lowered. -/
  | stop {p : Plan} {t : PlanNode} {ts : List PlanNode} {failure : LoweringFailure}
      (h : firstClash p.vertices.contains [] t.preorder = some failure) :
      LowersTo p (t :: ts) p (some failure.error)

/-- To lower fragments one after the other is to take the steps of a build. -/
theorem lowersTo_lowerAll {roots : List NodeId}
    (h : ∀ root ∈ roots, ∃ t, p.tree? root = some t ∧ t.id = root) :
    LowersTo p (roots.filterMap p.tree?) (p.lowerAll roots).plan (p.lowerAll roots).failure := by
  induction roots generalizing p with
  | nil => exact .done p
  | cons root roots ih =>
    rcases h root List.mem_cons_self with ⟨t, ht, hid⟩
    have hget : (p.fragments.get? root).bind Fragment.toTree? = some t := ht
    rw [List.filterMap_cons_some ht, lowerAll, hget]
    cases hclash : firstClash p.vertices.contains [] t.preorder with
    | some failure =>
      simp only [PlanNode.lower_eq_error_of_firstClash hclash]
      exact .stop hclash
    | none =>
      have hlow := PlanNode.lowerable_iff.2 hclash
      simp only [hlow.lower_eq]
      rw [← hid]
      refine .step hlow ?_
      exact ih fun r hr => h r (List.mem_cons_of_mem root hr)

/-- A build goes through the pending trees. -/
theorem Captured.lowersTo_build (h : p.Captured) (hbuilt : p.built = false) :
    LowersTo p p.pendingTrees p.build.plan p.build.failure := by
  unfold build
  rw [hbuilt]
  exact lowersTo_lowerAll fun root hroot => h.exists_tree_of_mem_pending hroot

/-- A plan that is built is left as it is, and nothing fails. -/
theorem build_of_built (h : p.built = true) : p.build = ⟨p, [], none⟩ := by
  unfold build
  rw [if_pos h]

/-- A build without an error comes to its end. -/
theorem LowersTo.built (h : LowersTo p ts q error) (hnone : error = none) : q.built = true := by
  induction h with
  | done p => rfl
  | step _ _ ih => exact ih hnone
  | stop _ => contradiction

/-- A build that does not fail leaves a plan that is built. -/
theorem Captured.built_of_failure_eq_none (h : p.Captured) (hnone : p.build.failure = none) :
    p.build.plan.built = true := by
  by_cases hbuilt : p.built = true
  · rw [build_of_built hbuilt]
    exact hbuilt
  · rw [Bool.not_eq_true] at hbuilt
    exact (h.lowersTo_build hbuilt).built hnone

/-- The course of a build is determined. -/
theorem LowersTo.unique {q' : Plan} {error' : Option LoweringError}
    (h : LowersTo p ts q error) (h' : LowersTo p ts q' error') : q = q' ∧ error = error' := by
  induction h with
  | done p =>
    cases h'
    exact ⟨rfl, rfl⟩
  | step hlow _ ih =>
    cases h' with
    | step _ rest => exact ih rest
    | stop hclash =>
      rw [PlanNode.lowerable_iff.1 hlow] at hclash
      contradiction
  | stop hclash =>
    cases h' with
    | step hlow _ =>
      rw [PlanNode.lowerable_iff.1 hlow] at hclash
      contradiction
    | stop hclash' =>
      rw [hclash, Option.some.injEq] at hclash'
      exact ⟨rfl, by rw [hclash']⟩

/-! ## Trees that can be lowered one after the other -/

/-- Each of the trees can be lowered once those before it are part of the graph. -/
def AdmitsAll (p : Plan) : List PlanNode → Prop
  | [] => True
  | t :: ts => t.Lowerable p.vertices.contains ∧ (p.commitTree t).AdmitsAll ts

/-- Trees can be added one after the other if the first ones can, and then the others. -/
theorem admitsAll_append {us : List PlanNode} :
    p.AdmitsAll (ts ++ us) ↔ p.AdmitsAll ts ∧ (p.commitTrees ts).AdmitsAll us := by
  induction ts generalizing p with
  | nil => simp [AdmitsAll]
  | cons t ts ih =>
    rw [List.cons_append, AdmitsAll, AdmitsAll, ih, commitTrees_cons, and_assoc]

/-- The vertices of a plan with some trees are its own and the nodes of the trees. -/
theorem contains_vertices_commitTrees (h : p.AdmitsAll ts) {i : NodeId} :
    (p.commitTrees ts).vertices.contains i = true ↔
      p.vertices.contains i = true ∨ ∃ u ∈ ts, i ∈ u.ids := by
  induction ts generalizing p with
  | nil => simp
  | cons t ts ih =>
    rw [commitTrees_cons, ih h.2, contains_vertices_commitTree h.1.nodup_ids, or_assoc]
    simp only [List.mem_cons, exists_eq_or_imp]

/-- The lowered roots are those from before and those of the trees. -/
theorem isLowered_commitTrees (p : Plan) (ts : List PlanNode) (i : NodeId) :
    (p.commitTrees ts).isLowered i = true ↔
      p.isLowered i = true ∨ i ∈ ts.map PlanNode.id := by
  induction ts generalizing p with
  | nil => simp
  | cons t ts ih =>
    rw [commitTrees_cons, ih, isLowered_commitTree, List.map_cons, List.mem_cons, or_assoc]

/-- A build that can lower all trees adds them in order and comes to its end. -/
theorem AdmitsAll.lowersTo (h : p.AdmitsAll ts) : LowersTo p ts (p.commitTrees ts).finish none := by
  induction ts generalizing p with
  | nil => exact .done p
  | cons t ts ih => exact .step h.1 (ih h.2)

/-- A build that comes to a tree that cannot be lowered keeps the trees before it. -/
theorem AdmitsAll.lowersTo_of_firstClash {us : List PlanNode} {failure : LoweringFailure}
    (h : p.AdmitsAll ts)
    (hclash : firstClash (p.commitTrees ts).vertices.contains [] t.preorder = some failure) :
    LowersTo p (ts ++ t :: us) (p.commitTrees ts) (some failure.error) := by
  induction ts generalizing p with
  | nil => exact .stop hclash
  | cons u ts ih => exact .step h.1 (ih h.2 hclash)

/-- A build either can lower all trees, or comes to the first that cannot be
lowered after those before it. -/
theorem admitsAll_or_exists_firstClash (p : Plan) (ts : List PlanNode) :
    p.AdmitsAll ts ∨ ∃ front t back failure, ts = front ++ t :: back ∧ p.AdmitsAll front ∧
      firstClash (p.commitTrees front).vertices.contains [] t.preorder = some failure := by
  induction ts generalizing p with
  | nil => exact Or.inl trivial
  | cons t ts ih =>
    cases hclash : firstClash p.vertices.contains [] t.preorder with
    | some failure => exact Or.inr ⟨[], t, ts, failure, rfl, trivial, hclash⟩
    | none =>
      have hlow := PlanNode.lowerable_iff.2 hclash
      rcases ih (p.commitTree t) with hall | ⟨front, u, back, failure, rfl, hfront, hu⟩
      · exact Or.inl ⟨hlow, hall⟩
      · exact Or.inr ⟨t :: front, u, back, failure, rfl, ⟨hlow, hfront⟩, hu⟩

/-- What is still pending once the first pending trees are part of the graph. -/
theorem Captured.pendingTrees_commitTrees (h : p.Captured) {front back : List PlanNode}
    (hsplit : p.pendingTrees = front ++ back) : (p.commitTrees front).pendingTrees = back := by
  have hcaptured : (p.commitTrees front).Captured := by
    unfold Captured
    rw [fragments_commitTrees]
    exact h
  have htrees : (p.commitTrees front).tree? = p.tree? := by
    unfold tree?
    rw [fragments_commitTrees]
  have hroots : (p.commitTrees front).pending = p.pending.filter (· ∉ front.map PlanNode.id) := by
    unfold pending
    rw [fragments_commitTrees, List.filter_filter]
    apply List.filter_congr
    intro root _
    rw [Bool.eq_iff_iff, Bool.and_eq_true, Bool.not_eq_true', Bool.not_eq_true',
      decide_eq_true_eq, ← Bool.not_eq_true, isLowered_commitTrees, not_or, Bool.not_eq_true,
      and_comm]
  have hdistinct : (p.pendingTrees.map PlanNode.id).Nodup :=
    h.pairwise_pendingTrees.imp UInt64.ne_of_lt
  rw [hsplit, List.map_append] at hdistinct
  have hmap : p.pending = front.map PlanNode.id ++ back.map PlanNode.id := by
    rw [← h.map_id_pendingTrees, hsplit, List.map_append]
  have hpending : (p.commitTrees front).pending = back.map PlanNode.id := by
    rw [hroots, hmap, List.filter_append, List.filter_eq_nil_iff.2, List.filter_eq_self.2,
      List.nil_append]
    · intro i hi
      rw [decide_eq_true_eq]
      exact fun hfront => (List.nodup_append'.1 hdistinct).2.2 hfront hi
    · intro i hi
      simpa using hi
  have hback : ∀ t ∈ back, p.tree? t.id = some t := by
    intro t ht
    have hmem : t ∈ p.pendingTrees := hsplit ▸ List.mem_append_right front ht
    exact tree?_eq_some_of_get? (h.mem_pendingTrees_iff.1 hmem).1
  unfold pendingTrees
  rw [hpending, htrees, List.filterMap_map]
  calc
    back.filterMap (p.tree? ∘ PlanNode.id) = back.filterMap some :=
      List.filterMap_congr hback
    _ = back := List.filterMap_some

end Plan

end QueryGraph
