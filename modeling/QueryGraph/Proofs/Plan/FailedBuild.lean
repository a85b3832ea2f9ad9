import QueryGraph.Proofs.Plan.Reachable

/-!
# Builds that fail

A build takes the pending trees by ascending root.  It fails if and only if one of
them is rejected, and says so about the first node in the way.  What it adds are
exactly the trees before, so trying again ends in the same place.

Main definitions:

- {lit}`Plan.Rejects`: a tree cannot be lowered after others.
- {lit}`Plan.RejectsNode`: a node cannot become a vertex after others of its tree.

Main results:

- {lit}`Plan.build_failure_iff`: when and how a build fails.
-/

namespace QueryGraph

namespace Plan

/-- After other trees, a tree cannot be lowered: there is a root inside, or an
identifier is used twice, or by the graph already, or by one of the trees before. -/
def Rejects (p : Plan) (before : List PlanNode) (t : PlanNode) : Prop :=
  (∃ n ∈ t.preorder, n.kind = .root) ∨ ¬t.ids.Nodup ∨
    ∃ i ∈ t.ids, p.vertices.contains i = true ∨ ∃ u ∈ before, i ∈ u.ids

/-- After other trees and the front of its own, a node cannot become a vertex: it is
a root, or its identifier is used by one of the nodes in front, or by the graph
already, or by one of the trees before. -/
def RejectsNode (p : Plan) (before : List PlanNode) (front : List PlanNode) (n : PlanNode) :
    Prop :=
  n.kind = .root ∨ n.id ∈ front.map PlanNode.id ∨ p.vertices.contains n.id = true ∨
    ∃ u ∈ before, n.id ∈ u.ids

/-- What an error says about a node. -/
def errorAt (n : PlanNode) : LoweringError :=
  ⟨n.kind, n.id, if n.kind = .root then .nestedRoot else .usedIdentifier⟩

variable {p : Plan} {t : PlanNode} {before after front : List PlanNode} {n : PlanNode}

/-! ## Rejected nodes -/

/-- A root is the cause before a used identifier is. -/
theorem cause_of_clash? {inUse : NodeId → Bool} {cause : LoweringCause}
    (h : n.clash? inUse front = some cause) :
    cause = if n.kind = .root then .nestedRoot else .usedIdentifier := by
  unfold PlanNode.clash? at h
  split at h
  · next hkind => rw [if_pos hkind, ← Option.some.inj h]
  · next hkind =>
    split at h
    · rw [if_neg hkind, ← Option.some.inj h]
    · contradiction

/-- A node is not rejected after other trees if it clashes with none of their vertices. -/
theorem not_rejectsNode_iff (h : p.AdmitsAll before) :
    ¬p.RejectsNode before front n ↔
      n.clash? (p.commitTrees before).vertices.contains front = none := by
  rw [PlanNode.clash?_eq_none_iff, ← Bool.not_eq_true, contains_vertices_commitTrees h]
  unfold RejectsNode
  simp only [not_or, ne_eq]
  constructor
  · rintro ⟨hkind, hfront, hfree⟩
    exact ⟨hkind, hfree, hfront⟩
  · rintro ⟨hkind, hfree, hfront⟩
    exact ⟨hkind, hfront, hfree⟩

/-- Where a walk finds no clash, it rejects no node on its way. -/
theorem not_rejectsNode_of_firstClash (h : p.AdmitsAll before)
    (hnone : firstClash (p.commitTrees before).vertices.contains [] front = none)
    {xs ys : List PlanNode} (hsplit : front = xs ++ n :: ys) : ¬p.RejectsNode before xs n := by
  rw [firstClash_eq_none_iff, hsplit, List.map_append, List.map_cons] at hnone
  rcases hnone with ⟨hall, hnodup⟩
  have hn := hall n (List.mem_append_right xs List.mem_cons_self)
  rw [not_rejectsNode_iff h, PlanNode.clash?_eq_none_iff]
  refine ⟨hn.1, hn.2.1, fun hmem => ?_⟩
  exact (List.nodup_append'.1 hnodup).2.2 hmem List.mem_cons_self

/-! ## Rejected trees -/

/-- After other trees, a tree can be lowered unless it is rejected. -/
theorem lowerable_iff_not_rejects (h : p.AdmitsAll before) :
    t.Lowerable (p.commitTrees before).vertices.contains ↔ ¬p.Rejects before t := by
  have hfree : ∀ i, (p.commitTrees before).vertices.contains i = false ↔
      ¬(p.vertices.contains i = true ∨ ∃ u ∈ before, i ∈ u.ids) := fun i => by
    rw [← Bool.not_eq_true, contains_vertices_commitTrees h]
  unfold Rejects
  constructor
  · rintro ⟨hkind, hnodup, hids⟩ (⟨n, hn, hroot⟩ | hdup | ⟨i, hi, hused⟩)
    · exact hkind n hn hroot
    · exact hdup hnodup
    · exact (hfree i).1 (hids i hi) hused
  · intro hnot
    refine ⟨fun n hn hroot => ?_, ?_, fun i hi => (hfree i).2 fun hused => ?_⟩
    · exact hnot (Or.inl ⟨n, hn, hroot⟩)
    · by_contra hdup
      exact hnot (Or.inr (Or.inl hdup))
    · exact hnot (Or.inr (Or.inr ⟨i, hi, hused⟩))

/-- No tree is rejected among trees that can be added one after the other. -/
theorem AdmitsAll.not_rejects (h : p.AdmitsAll (before ++ t :: after)) : ¬p.Rejects before t := by
  rw [admitsAll_append] at h
  exact (lowerable_iff_not_rejects h.1).1 h.2.1

/-! ## Failing builds -/

/-- A build that can lower all pending trees does not fail. -/
theorem Captured.failure_of_admitsAll (h : p.Captured) (hbuilt : p.built = false)
    (hall : p.AdmitsAll p.pendingTrees) : p.build.failure = none :=
  ((h.lowersTo_build hbuilt).unique hall.lowersTo).2

/-- A build that comes to a tree that cannot be lowered ends there. -/
theorem Captured.build_of_firstClash (h : p.Captured) (hbuilt : p.built = false)
    {failure : LoweringFailure} (hsplit : p.pendingTrees = before ++ t :: after)
    (hall : p.AdmitsAll before)
    (hclash : firstClash (p.commitTrees before).vertices.contains [] t.preorder = some failure) :
    p.build.plan = p.commitTrees before ∧ p.build.failure = some failure.error := by
  have hto := h.lowersTo_build hbuilt
  rw [hsplit] at hto
  exact hto.unique (hall.lowersTo_of_firstClash hclash)

/-- Building again after the failure ends where the first build ended. -/
theorem Captured.build_commitTrees (h : p.Captured) (hbuilt : p.built = false)
    {failure : LoweringFailure} (hsplit : p.pendingTrees = before ++ t :: after)
    (hclash : firstClash (p.commitTrees before).vertices.contains [] t.preorder = some failure) :
    (p.commitTrees before).build.plan = p.commitTrees before ∧
      (p.commitTrees before).build.failure = some failure.error := by
  have hcaptured : (p.commitTrees before).Captured := by
    unfold Captured
    rw [fragments_commitTrees]
    exact h
  have hto := hcaptured.lowersTo_build (by rw [built_commitTrees, hbuilt])
  rw [h.pendingTrees_commitTrees hsplit] at hto
  exact hto.unique (.stop hclash)

/-- A build of a plan fails if and only if one of the pending trees, taken by
ascending root, is rejected.  The error is about the first rejected node of the first
rejected tree.  The graph then has exactly the trees before, all fragments stay
registered, and building again fails in the same way and changes nothing. -/
theorem build_failure_iff (h : p.Reachable) (hbuilt : p.built = false) :
    (p.pendingTrees.map PlanNode.id = p.pending ∧ p.pending.Pairwise (· < ·)) ∧
    (p.build.failure.isSome = true ↔
      ∃ before t after, p.pendingTrees = before ++ t :: after ∧ p.Rejects before t) ∧
    ∀ error, p.build.failure = some error →
      ∃ before t after front n back,
        p.pendingTrees = before ++ t :: after ∧
        (∀ xs u ys, before = xs ++ u :: ys → ¬p.Rejects xs u) ∧
        p.Rejects before t ∧
        t.preorder = front ++ n :: back ∧
        (∀ xs m ys, front = xs ++ m :: ys → ¬p.RejectsNode before xs m) ∧
        p.RejectsNode before front n ∧
        error = errorAt n ∧
        p.build.plan = p.commitTrees before ∧
        p.build.plan.fragments = p.fragments ∧
        p.build.plan.built = false ∧
        p.build.plan.build.failure = some error ∧
        p.build.plan.build.plan = p.build.plan := by
  have hcaptured := h.wellFormed.captured
  refine ⟨⟨hcaptured.map_id_pendingTrees, p.pairwise_pending⟩, ?_⟩
  rcases admitsAll_or_exists_firstClash p p.pendingTrees with
    hall | ⟨before, t, after, failure, hsplit, hbefore, hclash⟩
  · have hnone := hcaptured.failure_of_admitsAll hbuilt hall
    rw [hnone]
    constructor
    · simp only [Option.isSome_none, Bool.false_eq_true, false_iff]
      rintro ⟨before, t, after, hsplit, hrejects⟩
      rw [hsplit] at hall
      exact hall.not_rejects hrejects
    · intro error herror
      contradiction
  · rcases hcaptured.build_of_firstClash hbuilt hsplit hbefore hclash with ⟨hplan, hfailure⟩
    rcases hcaptured.build_commitTrees hbuilt hsplit hclash with ⟨hagainPlan, hagainFailure⟩
    have hrejects : p.Rejects before t := by
      by_contra hnot
      rw [← lowerable_iff_not_rejects hbefore, PlanNode.lowerable_iff, hclash] at hnot
      contradiction
    rw [hplan, hfailure]
    constructor
    · simp only [Option.isSome_some, true_iff]
      exact ⟨before, t, after, hsplit, hrejects⟩
    · intro error herror
      rcases firstClash_eq_some_iff.1 hclash with ⟨front, n, back, cause, hnodes, hn, hfront, hf⟩
      rw [List.nil_append] at hn
      have hnode : p.RejectsNode before front n := by
        by_contra hnot
        rw [not_rejectsNode_iff hbefore, hn] at hnot
        contradiction
      have herrorAt : failure.error = errorAt n := by
        rw [hf, cause_of_clash? hn]
        rfl
      rw [Option.some.injEq] at herror
      refine ⟨before, t, after, front, n, back, hsplit, ?_, hrejects, hnodes, ?_, hnode, ?_, rfl, ?_,
        ?_, ?_, hagainPlan⟩
      · rintro xs u ys rfl
        exact hbefore.not_rejects
      · intro xs m ys hxs
        exact not_rejectsNode_of_firstClash hbefore hfront hxs
      · rw [← herror, herrorAt]
      · exact fragments_commitTrees p before
      · rw [built_commitTrees, hbuilt]
      · rw [hagainFailure, herror]

/-- A plan with two pending scans, the second of them under the identifier of the
terminal. -/
def terminalClash : Plan :=
  (create .standard ⟨5⟩).1.run
    [.register (.leaf 5 ⟨[]⟩ (.scan "b" none)), .register (.leaf 1 ⟨[]⟩ (.scan "a" none))]

/-- The build fails at the scan under the identifier of the terminal. -/
theorem build_failure_terminalClash :
    terminalClash.built = false ∧
      ∃ before t after, terminalClash.pendingTrees = before ++ t :: after ∧
        terminalClash.Rejects before t := by
  have hreachable : terminalClash.Reachable := (Reachable.create .standard ⟨5⟩).run _
  have hfails : terminalClash.build.failure = some ⟨.scan, 5, .usedIdentifier⟩ := by
    decide +kernel
  refine ⟨rfl, (build_failure_iff hreachable rfl).2.1.1 ?_⟩
  rw [hfails]
  rfl

end Plan

end QueryGraph
