import QueryGraph.Proofs.Plan.FailedBuild
import QueryGraph.Proofs.Wire.RoundTrip

/-!
# The order of the fragments under the terminal

A build adds each fragment behind those that are there and puts all in ascending order when
it comes to its end.  A build that fails skips the last step.  The order is therefore
certain in every plan that has had no failing build since it was last built to the end or
cleared, and only there; decoding, which always puts the fragments in order, keeps the
order of exactly those plans in which it is ascending.

Main definitions:

- {lit}`Plan.Settled`: no build has failed since the plan was last built or cleared.

Main results:

- {lit}`Plan.Settled.ascending`: the fragments of a settled plan ascend.
- {lit}`Plan.WellFormed.topLevelIds_commitTrees`: a build that fails leaves what it added
  behind what was there.
- {lit}`Plan.topLevel_order_of_settled`: the order in settled plans, and after a build that
  fails.
- {lit}`Plan.topLevelIds_lowRootLate`: an order that a failing build breaks.
-/

namespace QueryGraph

namespace Plan

open EdgeStore

/-- The plans in which no build has failed since they were last built to the end, cleared,
made or decoded. -/
inductive Settled : Plan → Prop
  | create (config : PlannerConfig) (supply : IdSupply) : Settled (create config supply).1
  | decode {w : Wire} {config : PlannerConfig} {p : Plan} {supply : IdSupply}
      (h : w.toPlan config = .ok (p, supply)) : Settled p
  | register {p : Plan} (h : Settled p) (tree : PlanNode) : Settled (p.register tree).2
  | removeEdge {p q : Plan} {child parent : NodeId} {type : EdgeType} (h : Settled p)
      (hremove : p.removeEdge child parent = .ok (type, q)) : Settled q
  | clear {p : Plan} (h : Reachable p) : Settled p.clear
  | setOnly {p : Plan} (h : Reachable p) (tree : PlanNode) : Settled (p.setOnly tree).2
  | build {p : Plan} (h : Reachable p) (hnone : p.build.failure = none) : Settled p.build.plan

variable {p q : Plan} {ts : List PlanNode} {supply : IdSupply} {config : PlannerConfig}

/-- Settled plans can come about. -/
theorem Settled.reachable (h : p.Settled) : p.Reachable := by
  induction h with
  | create config supply => exact .create config supply
  | decode h => exact .decode h
  | register _ tree ih => exact ih.execute (.register tree)
  | removeEdge _ hremove ih => exact ih.removeEdge hremove
  | clear h => exact h.execute .clear
  | setOnly h tree => exact h.execute (.setOnly tree)
  | build h _ => exact h.execute .build

/-- A plan that is built is settled, whatever it has been through. -/
theorem Reachable.settled_of_built (h : p.Reachable) (hbuilt : p.built = true) : p.Settled := by
  have hsame : p.build = ⟨p, [], none⟩ := build_of_built hbuilt
  have hsettled : p.build.plan.Settled := .build h (by rw [hsame])
  rwa [hsame] at hsettled

/-! ## Each change of a settled plan -/

/-- Registering a tree does not change the fragments under the terminal. -/
theorem topLevelIds_register (p : Plan) (tree : PlanNode) :
    (p.register tree).2.topLevelIds = p.topLevelIds := by
  by_cases hlowered : p.isLowered (unwrapRoot tree).id = true
  · rw [register_of_isLowered hlowered]
  · rw [Bool.not_eq_true] at hlowered
    rw [register_of_not_isLowered hlowered]
    rfl

/-- Removing an edge can only take a fragment away. -/
theorem WellFormed.topLevelIds_removeEdge_sublist (h : p.WellFormed) {child parent : NodeId}
    {type : EdgeType} (hremove : p.removeEdge child parent = .ok (type, q)) :
    q.topLevelIds.Sublist p.topLevelIds := by
  have hq : q = { p with edges := (p.edges.remove child parent).2 } := eq_of_removeEdge hremove
  subst hq
  change ((p.edges.remove child parent).2.children p.terminal.id).Sublist p.topLevelIds
  rw [children_remove h.coherent]
  by_cases hparent : parent = p.terminal.id
  · simp [hparent, topLevelIds]
  · simp [hparent, topLevelIds]

/-- The fragments of a settled plan ascend. -/
theorem Settled.ascending (h : p.Settled) : p.topLevelIds.Pairwise (· < ·) := by
  induction h with
  | create config supply => exact List.Pairwise.nil
  | @decode w config p supply h =>
    obtain ⟨-, hfresh, -, rfl, -⟩ := Wire.toPlan_eq_ok_iff.1 h
    exact Wire.pairwise_children_rebuilt hfresh w.terminal.id
  | register _ tree ih =>
    rw [topLevelIds_register]
    exact ih
  | removeEdge h hremove ih =>
    have hwell := h.reachable.wellFormed
    exact ih.sublist (hwell.topLevelIds_removeEdge_sublist hremove)
  | clear _ => exact List.Pairwise.nil
  | @setOnly p _ tree =>
    have hnone : (p.setOnly tree).2.topLevelIds = [] := topLevelIds_register p.clear tree
    rw [hnone]
    exact List.Pairwise.nil
  | build h hnone =>
    have hbuilt := h.wellFormed.captured.built_of_failure_eq_none hnone
    exact h.wellFormed.build.topLevel_ascending hbuilt

/-! ## Builds that fail -/

/-- Trees that are added come behind those that are there, in the order in which they are
added. -/
theorem WellFormed.topLevelIds_commitTrees (h : p.WellFormed) (hbuilt : p.built = false)
    (hall : p.AdmitsAll ts) :
    (p.commitTrees ts).topLevelIds = p.topLevelIds ++ ts.map PlanNode.id := by
  induction ts generalizing p with
  | nil => simp
  | cons t ts ih =>
    have hfresh := h.freshTree hall.1
    have hnext : (p.commitTree t).topLevelIds = p.topLevelIds ++ [t.id] :=
      hfresh.children_commitTree_terminal
    have hrest := ih (h.commitTree hbuilt hall.1) hbuilt hall.2
    calc
      (p.commitTrees (t :: ts)).topLevelIds
          = (p.commitTree t).topLevelIds ++ ts.map PlanNode.id := hrest
      _ = p.topLevelIds ++ (t :: ts).map PlanNode.id := by simp [hnext]

/-- A build that fails has added the pending trees before the one that it came to. -/
theorem WellFormed.build_of_failure (h : p.WellFormed) {error : LoweringError}
    (hfailure : p.build.failure = some error) :
    p.built = false ∧ ∃ before t after, p.pendingTrees = before ++ t :: after ∧
      p.AdmitsAll before ∧ p.build.plan = p.commitTrees before := by
  have hbuilt : p.built = false := by
    by_contra hnot
    rw [Bool.not_eq_false] at hnot
    simp [build_of_built hnot] at hfailure
  refine ⟨hbuilt, ?_⟩
  rcases admitsAll_or_exists_firstClash p p.pendingTrees with
    hall | ⟨before, t, after, failure, hsplit, hbefore, hclash⟩
  · rw [h.captured.failure_of_admitsAll hbuilt hall] at hfailure
    contradiction
  · have hplan := (h.captured.build_of_firstClash hbuilt hsplit hbefore hclash).1
    exact ⟨before, t, after, hsplit, hbefore, hplan⟩

/-- Ascending fragments still ascend after a build that fails if and only if all that it
added are greater than those that were there. -/
theorem WellFormed.ascending_commitTrees_iff (h : p.WellFormed) (hbuilt : p.built = false)
    {before after : List PlanNode} (hsplit : p.pendingTrees = before ++ after)
    (hall : p.AdmitsAll before) (hascending : p.topLevelIds.Pairwise (· < ·)) :
    (p.commitTrees before).topLevelIds.Pairwise (· < ·) ↔
      ∀ i ∈ p.topLevelIds, ∀ u ∈ before, i < u.id := by
  have hpending := h.captured.pairwise_pendingTrees
  have hbefore : (before.map PlanNode.id).Pairwise (· < ·) := by
    rw [hsplit, List.map_append] at hpending
    exact (List.pairwise_append.1 hpending).1
  rw [h.topLevelIds_commitTrees hbuilt hall, List.pairwise_append]
  simp [hascending, hbefore]

/-! ## The order in which fragments are found -/

/-- The fragments of every settled plan ascend, and encoding and decoding the plan keeps
their order.  A build that fails leaves the fragments that it added, those before the one
that it came to, behind the others: they still ascend if and only if all of them are greater
than those that were there. -/
theorem topLevel_order_of_settled (h : p.Settled) :
    p.topLevelIds.Pairwise (· < ·) ∧
    (∀ (supply : IdSupply) (config : PlannerConfig),
      (∀ i, p.vertices.contains i = true → i < supply.next) →
      ∃ q, (p.toWire supply).toPlan config = .ok (q, supply) ∧
        q.topLevelIds = p.topLevelIds) ∧
    ∀ error, p.build.failure = some error →
      ∃ before t after, p.pendingTrees = before ++ t :: after ∧
        p.build.plan = p.commitTrees before ∧
        p.build.plan.topLevelIds = p.topLevelIds ++ before.map PlanNode.id ∧
        (p.build.plan.topLevelIds.Pairwise (· < ·) ↔
          ∀ i ∈ p.topLevelIds, ∀ u ∈ before, i < u.id) := by
  have hwell := h.reachable.wellFormed
  refine ⟨h.ascending, fun supply config hissued => ?_, fun error hfailure => ?_⟩
  · refine ⟨p.decoded supply config, hwell.toPlan_eq_decoded hissued config, ?_⟩
    exact (hwell.topLevelIds_decoded_eq_iff supply config).2 h.ascending
  · obtain ⟨hbuilt, before, t, after, hsplit, hall, hplan⟩ := hwell.build_of_failure hfailure
    refine ⟨before, t, after, hsplit, hplan, ?_, ?_⟩
    · rw [hplan]
      exact hwell.topLevelIds_commitTrees hbuilt hall
    · rw [hplan]
      exact hwell.ascending_commitTrees_iff hbuilt hsplit hall h.ascending

/-- A limit over a scan. -/
def limitedScan (limit scan : NodeId) : PlanNode :=
  .unary limit ⟨[]⟩ (.limit 1) (some (.leaf scan ⟨[]⟩ (.scan "a" none)))

/-- The fragment with the greater root is built first; the other one waits, together with
one that cannot be lowered because there is a root inside. -/
def lowRootLate : Plan :=
  (create .standard ⟨0⟩).1.run
    [.register (limitedScan 4 3), .build, .register (limitedScan 2 1),
      .register (.unary 7 ⟨[]⟩ (.limit 1)
        (some (.unary 6 ⟨[]⟩ .root (some (.leaf 5 ⟨[]⟩ (.scan "b" none))))))]

/-- Before the build that fails, the fragments under the terminal are in order. -/
theorem topLevel_order_of_settled_lowRootLate :
    lowRootLate.Settled ∧ lowRootLate.topLevelIds.Pairwise (· < ·) ∧
      lowRootLate.topLevelIds = [4] ∧
      lowRootLate.build.failure = some ⟨.root, 6, .nestedRoot⟩ ∧
      ∃ before t after, lowRootLate.pendingTrees = before ++ t :: after ∧
        lowRootLate.build.plan.topLevelIds = [4] ++ before.map PlanNode.id := by
  have hbuilt : ((create .standard ⟨0⟩).1.run [.register (limitedScan 4 3), .build]).Settled :=
    ((Reachable.create .standard ⟨0⟩).run _).settled_of_built
      (by decide +kernel)
  have hsettled : lowRootLate.Settled := (hbuilt.register _).register _
  have htop : lowRootLate.topLevelIds = [4] := by decide +kernel
  have hfailure : lowRootLate.build.failure = some ⟨.root, 6, .nestedRoot⟩ := by decide +kernel
  have horder := topLevel_order_of_settled hsettled
  obtain ⟨before, t, after, hsplit, -, hadded, -⟩ := horder.2.2 _ hfailure
  exact ⟨hsettled, horder.1, htop, hfailure, before, t, after, hsplit, htop ▸ hadded⟩

/-- The build that fails there breaks the order: the smaller root comes last, and encoding
and decoding the plan changes the order of its fragments. -/
theorem topLevelIds_lowRootLate :
    lowRootLate.build.plan.Reachable ∧
      ¬lowRootLate.build.plan.topLevelIds.Pairwise (· < ·) ∧
      ∃ q, (lowRootLate.build.plan.toWire ⟨8⟩).toPlan .standard = .ok (q, ⟨8⟩) ∧
        q.topLevelIds ≠ lowRootLate.build.plan.topLevelIds := by
  have hreachable : lowRootLate.build.plan.Reachable :=
    ((Reachable.create .standard ⟨0⟩).run _).execute .build
  have hwell := hreachable.wellFormed
  have horder : ¬lowRootLate.build.plan.topLevelIds.Pairwise (· < ·) := by
    have hids : lowRootLate.build.plan.topLevelIds = [4, 2] := by decide +kernel
    rw [hids]
    decide
  have hissued : ∀ i, lowRootLate.build.plan.vertices.contains i = true →
      i < (IdSupply.mk 8).next := issued_of_all_keys (by decide +kernel)
  refine ⟨hreachable, horder, _, hwell.toPlan_eq_decoded hissued .standard, ?_⟩
  intro heq
  exact horder ((hwell.topLevelIds_decoded_eq_iff ⟨8⟩ .standard).1 heq)

end Plan

end QueryGraph
