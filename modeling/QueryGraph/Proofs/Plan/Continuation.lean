import QueryGraph.Proofs.Plan.Determined
import QueryGraph.Proofs.Plan.FailedBuild
import QueryGraph.Proofs.Wire.RoundTrip

/-!
# Going on with a plan that was read back

A wire holds the graph of a plan and nothing else: the registered fragments and the record
of those that are part of the graph are not on it.  A plan that is read back goes on like
the one that was written as long as no fragment of the written graph is registered again.
The written plan ignores such a fragment.  The plan that is read back takes it for a new
one, and its next build fails.

Main definitions:

- {lit}`Plan.Addition`: a call that adds to a plan.
- {lit}`Plan.transcript`: what the caller sees of some additions.
- {lit}`Plan.Mirrors`: a plan has the graph of another, but does not know which of its
  fragments were there first.

Main results:

- {lit}`Plan.Mirrors.execute`: each addition keeps the two plans in step.
- {lit}`Plan.transcript_decoded`: which additions cannot tell a plan from the one that is
  read back.
- {lit}`Plan.transcript_decoded_ne`: a fragment that is registered again can.
-/

namespace QueryGraph

namespace Plan

/-! ## What the caller sees -/

/-- A call that adds to a plan. -/
inductive Addition where
  | register (tree : PlanNode)
  | build

/-- An addition as a call. -/
def Addition.call : Addition → Call
  | .register tree => .register tree
  | .build => .build

/-- What an addition answers. -/
inductive Answer where
  /-- The root of the fragment that was registered. -/
  | root (id : NodeId)
  /-- Why the build was stopped, if it was. -/
  | outcome (failure : Option LoweringError)

/-- The answer of a plan to an addition. -/
def answer (p : Plan) : Addition → Answer
  | .register tree => .root (p.register tree).1
  | .build => .outcome p.build.failure

/-- The answers to some additions, each with the wire of the plan after it. -/
def transcript (supply : IdSupply) (p : Plan) : List Addition → List (Answer × Wire)
  | [] => []
  | a :: additions =>
    (p.answer a, (p.execute a.call).toWire supply) ::
      (p.execute a.call).transcript supply additions

/-- A build answers with its failure, and the wire shows the plan after it. -/
theorem transcript_build (supply : IdSupply) (p : Plan) :
    p.transcript supply [.build] =
      [(.outcome p.build.failure, p.build.plan.toWire supply)] :=
  rfl

/-- Registering a tree answers with its root; a node of kind root on top does not count. -/
theorem register_fst (p : Plan) (tree : PlanNode) :
    (p.register tree).1 = (unwrapRoot tree).id := by
  cases hp : p.isLowered (unwrapRoot tree).id <;> simp [register, hp]

/-- A tree is registered, and then the plan is built with it. -/
theorem transcript_register_build (supply : IdSupply) (p : Plan) (tree : PlanNode) :
    p.transcript supply [.register tree, .build] =
      [(.root (unwrapRoot tree).id, (p.register tree).2.toWire supply),
        (.outcome (p.register tree).2.build.failure,
          (p.register tree).2.build.plan.toWire supply)] := by
  rw [← register_fst p tree]
  rfl

/-! ## Plans in step -/

/-- A plan has the same graph as another and has registered the same fragments beside
some old ones, which are part of the graph without its knowledge. -/
structure Mirrors (old : NodeId → Bool) (p q : Plan) : Prop where
  terminal : q.terminal = p.terminal
  vertices : q.vertices = p.vertices
  edges : q.edges.SameUpward p.edges
  inputs : q.inputs = p.inputs
  hasJoin : q.hasJoin = p.hasJoin
  hasUnion : q.hasUnion = p.hasUnion
  lowered_old : ∀ root, old root = true → p.isLowered root = true
  forgotten_old : ∀ root, old root = true → q.fragments.get? root = none
  fragments : ∀ root, old root = false → q.fragments.get? root = p.fragments.get? root
  lowered : ∀ root, old root = false → q.isLowered root = p.isLowered root

variable {old : NodeId → Bool} {p q p' : Plan} {t : PlanNode} {ts : List PlanNode}
  {error : Option LoweringError} {supply : IdSupply}

/-- The end of a build does not show on the wire. -/
theorem toWire_finish (p : Plan) (supply : IdSupply) :
    p.finish.toWire supply = p.toWire supply := by
  unfold toWire
  rw [show p.finish.edges = p.edges.sortChildren p.terminal.id from rfl,
    Wire.adjacencyOf_congr (EdgeStore.sameUpward_sortChildren _ _)]
  rfl

namespace Mirrors

/-- Mirrored plans are written alike: what they keep apart is not part of the wire. -/
theorem toWire_eq (h : Mirrors old p q) (supply : IdSupply) :
    q.toWire supply = p.toWire supply := by
  unfold toWire
  rw [h.terminal, h.vertices, h.inputs, h.hasJoin, h.hasUnion, Wire.adjacencyOf_congr h.edges]

/-- An old fragment is pending in neither of the plans: the one has lowered it, the other
does not know it. -/
theorem pending_eq (h : Mirrors old p q) : q.pending = p.pending := by
  refine ids_eq_of_ascending q.pairwise_pending p.pairwise_pending fun root => ?_
  rw [mem_pending_iff, mem_pending_iff]
  cases hold : old root with
  | true => simp [SortedMap.contains, h.forgotten_old root hold, h.lowered_old root hold]
  | false => simp [SortedMap.contains, h.fragments root hold, h.lowered root hold]

/-- No old fragment is pending. -/
theorem old_of_mem_pending (h : Mirrors old p q) {root : NodeId} (hroot : root ∈ p.pending) :
    old root = false := by
  by_contra hold
  rw [Bool.not_eq_false] at hold
  rw [mem_pending_iff, h.lowered_old root hold] at hroot
  exact Bool.noConfusion hroot.2

/-- Both plans have the same trees pending. -/
theorem pendingTrees_eq (h : Mirrors old p q) : q.pendingTrees = p.pendingTrees := by
  unfold pendingTrees
  rw [h.pending_eq]
  refine List.filterMap_congr fun root hroot => ?_
  unfold tree?
  rw [h.fragments root (h.old_of_mem_pending hroot)]

/-! ### Each change -/

/-- Registering a tree with a new root keeps both plans alike. -/
theorem register (h : Mirrors old p q) {tree : PlanNode}
    (hnew : old (unwrapRoot tree).id = false) :
    Mirrors old (p.register tree).2 (q.register tree).2 := by
  have hlowered := h.lowered _ hnew
  cases hp : p.isLowered (unwrapRoot tree).id with
  | true =>
    rw [register_of_isLowered hp, register_of_isLowered (hlowered.trans hp)]
    exact h
  | false =>
    rw [register_of_not_isLowered hp, register_of_not_isLowered (hlowered.trans hp)]
    refine { h with forgotten_old := fun root hold => ?_, fragments := fun root hold => ?_ }
    · have hne : (unwrapRoot tree).id ≠ root := by
        rintro rfl
        rw [hnew] at hold
        contradiction
      change (q.fragments.insert _ _).get? root = none
      rw [SortedMap.get?_insert, if_neg hne]
      exact h.forgotten_old root hold
    · change (q.fragments.insert _ _).get? root = (p.fragments.insert _ _).get? root
      rw [SortedMap.get?_insert, SortedMap.get?_insert, h.fragments root hold]

/-- Adding a tree to both graphs keeps them alike. -/
theorem commitTree (h : Mirrors old p q) (t : PlanNode) :
    Mirrors old (p.commitTree t) (q.commitTree t) where
  terminal := h.terminal
  vertices := congrArg (SortedMap.insertAll · _) h.vertices
  edges := by
    have hedges : q.newEdges t = p.newEdges t := by
      unfold newEdges
      rw [h.terminal]
    rw [edges_commitTree, edges_commitTree, hedges]
    exact h.edges.insertAll _
  inputs := congrArg (recordScans · _) h.inputs
  hasJoin := congrArg (· || _) h.hasJoin
  hasUnion := congrArg (· || _) h.hasUnion
  lowered_old root hold := (isLowered_commitTree p t root).2 (.inl (h.lowered_old root hold))
  forgotten_old := h.forgotten_old
  fragments := h.fragments
  lowered root hold := by
    rw [Bool.eq_iff_iff, isLowered_commitTree, isLowered_commitTree, h.lowered root hold]

/-- The end of a build changes the order of children, which is not on the wire. -/
theorem finish_left (h : Mirrors old p q) : Mirrors old p.finish q :=
  { h with edges := h.edges.trans (EdgeStore.sameUpward_sortChildren _ _).symm }

/-- Plans stay in step where the end of a build comes in both. -/
theorem finish (h : Mirrors old p q) : Mirrors old p.finish q.finish :=
  { h.finish_left with
    edges := (EdgeStore.sameUpward_sortChildren _ _).trans h.finish_left.edges }

/-- A build takes the same course in both plans. -/
theorem lowersTo (h : Mirrors old p q) (hbuilt : q.built = p.built)
    (hto : LowersTo p ts p' error) :
    ∃ q', LowersTo q ts q' error ∧ Mirrors old p' q' ∧ q'.built = p'.built := by
  induction hto generalizing q with
  | done p => exact ⟨q.finish, .done q, h.finish, rfl⟩
  | @step p p' t ts error hlow _ ih =>
    rcases ih (h.commitTree t) hbuilt with ⟨q', hto, hmirrors, hbuilt'⟩
    rw [← h.vertices] at hlow
    exact ⟨q', .step hlow hto, hmirrors, hbuilt'⟩
  | @stop p t ts failure hclash =>
    rw [← h.vertices] at hclash
    exact ⟨q, .stop hclash, h, hbuilt⟩

end Mirrors

/-- A plan mirrors another, and both are built or neither is.  A plan in which nothing is
pending may also be mirrored by one that is built already. -/
structure InStep (old : NodeId → Bool) (p q : Plan) : Prop where
  mirrors : Mirrors old p q
  built : q.built = p.built ∨ q.built = true ∧ p.pending = []
  left : p.WellFormed
  right : q.WellFormed

theorem build_of_pending_eq_nil (hbuilt : p.built = false) (hnil : p.pending = []) :
    p.build = ⟨p.finish, [], none⟩ := by
  unfold build
  rw [hbuilt, hnil]
  rfl

namespace InStep

/-- Registering a tree with a new root keeps both plans in step. -/
theorem register (h : InStep old p q) {tree : PlanNode} (hnew : old (unwrapRoot tree).id = false) :
    InStep old (p.register tree).2 (q.register tree).2 where
  mirrors := h.mirrors.register hnew
  built := by
    have hlowered := h.mirrors.lowered _ hnew
    cases hp : p.isLowered (unwrapRoot tree).id with
    | true =>
      rw [register_of_isLowered hp, register_of_isLowered (hlowered.trans hp)]
      exact h.built
    | false =>
      rw [register_of_not_isLowered hp, register_of_not_isLowered (hlowered.trans hp)]
      exact .inl rfl
  left := h.left.register tree
  right := h.right.register tree

/-- A build comes to the same on both sides, and keeps the plans in step. -/
theorem build (h : InStep old p q) :
    q.build.failure = p.build.failure ∧ InStep old p.build.plan q.build.plan := by
  have hwell : p.build.plan.WellFormed ∧ q.build.plan.WellFormed := ⟨h.left.build, h.right.build⟩
  cases hp : p.built with
  | true =>
    have hq : q.built = true := h.built.elim (·.trans hp) And.left
    rw [build_of_built hp, build_of_built hq]
    exact ⟨rfl, h⟩
  | false =>
    rcases h.built with hbuilt | ⟨hq, hnil⟩
    · have hpto := h.left.captured.lowersTo_build hp
      have hqto := h.right.captured.lowersTo_build (hbuilt.trans hp)
      rw [h.mirrors.pendingTrees_eq] at hqto
      rcases h.mirrors.lowersTo hbuilt hpto with ⟨q', hto, hmirrors, hbuilt'⟩
      obtain ⟨rfl, hfailure⟩ := hto.unique hqto
      exact ⟨hfailure.symm, hmirrors, .inl hbuilt', hwell.1, hwell.2⟩
    · rw [build_of_pending_eq_nil hp hnil, build_of_built hq] at *
      exact ⟨rfl, h.mirrors.finish_left, .inl hq, hwell.1, hwell.2⟩

/-- An addition that registers no old fragment has the same answer in both plans and keeps
them in step. -/
theorem execute (h : InStep old p q) {a : Addition}
    (hnew : ∀ tree, a = .register tree → old (unwrapRoot tree).id = false) :
    q.answer a = p.answer a ∧ InStep old (p.execute a.call) (q.execute a.call) := by
  cases a with
  | register tree =>
    refine ⟨?_, h.register (hnew tree rfl)⟩
    rw [answer, answer, register_fst, register_fst]
  | build =>
    refine ⟨?_, h.build.2⟩
    rw [answer, answer, h.build.1]

/-- Additions that register no old fragment cannot tell the two plans apart. -/
theorem transcript_eq (h : InStep old p q) (supply : IdSupply) {additions : List Addition}
    (hnew : ∀ tree, .register tree ∈ additions → old (unwrapRoot tree).id = false) :
    q.transcript supply additions = p.transcript supply additions := by
  induction additions generalizing p q with
  | nil => rfl
  | cons a additions ih =>
    have hstep := h.execute fun tree ha => hnew tree (ha ▸ List.mem_cons_self)
    have hrest := ih hstep.2 fun tree htree => hnew tree (List.mem_cons_of_mem a htree)
    rw [transcript, transcript, hstep.1, hstep.2.mirrors.toWire_eq, hrest]

end InStep

/-! ## A plan that is read back -/

/-- Where all registered fragments are part of the graph, the plan that is read back is in
step with the one that was written. -/
theorem WellFormed.inStep_decoded (h : p.WellFormed)
    (hissued : ∀ i, p.vertices.contains i = true → i < supply.next) (hnil : p.pending = [])
    (config : PlannerConfig) : InStep p.isLowered p (p.decoded supply config) where
  mirrors :=
    { terminal := rfl
      vertices := h.vertices_decoded hissued config
      edges := Wire.sameUpward_rebuilt h.coherent (edges_toWire h.coherent supply)
      inputs := rfl
      hasJoin := rfl
      hasUnion := rfl
      lowered_old := fun _ hold => hold
      forgotten_old := fun _ _ => rfl
      fragments := by
        intro root hold
        cases hget : p.fragments.get? root with
        | none => rfl
        | some f =>
          have hmem : root ∈ p.pending :=
            mem_pending_iff.2 ⟨SortedMap.contains_iff.2 ⟨f, hget⟩, hold⟩
          rw [hnil] at hmem
          exact absurd hmem List.not_mem_nil
      lowered := fun _ hold => hold.symm }
  built := .inr ⟨rfl, hnil⟩
  left := h
  right := Wire.wellFormed_of_toPlan (h.toPlan_eq_decoded hissued config)

/-- Nothing is pending in a plan that is built. -/
theorem Accounted.pending_eq_nil (h : p.Accounted ts) (hbuilt : p.built = true) :
    p.pending = [] := by
  rw [List.eq_nil_iff_forall_not_mem]
  intro root hroot
  rw [mem_pending_iff] at hroot
  rw [(h.embodies.lowered_iff root).2 (h.complete hbuilt root hroot.1)] at hroot
  exact Bool.noConfusion hroot.2

/-- The fragments of the graph have their roots among its vertices. -/
theorem Accounted.contains_of_isLowered (h : p.Accounted ts) {root : NodeId}
    (hlowered : p.isLowered root = true) : p.vertices.contains root = true := by
  rcases List.mem_map.1 ((h.embodies.lowered_iff root).1 hlowered) with ⟨t, ht, rfl⟩
  refine h.embodies.contains_iff.2 (.inr ?_)
  exact List.mem_flatMap.2 ⟨t, ht, t.root_id_mem_ids⟩

/-- The error at a tree whose root is in the graph already. -/
def clashAtTop (top : PlanNode) : LoweringError :=
  ⟨top.kind, top.id, if top.kind = .root then .nestedRoot else .usedIdentifier⟩

/-- A tree whose root is in the graph already stops a build at its top. -/
theorem firstClash_of_contains {top : PlanNode} {inUse : NodeId → Bool}
    (hused : inUse top.id = true) :
    firstClash inUse [] top.preorder = some ⟨[], clashAtTop top⟩ := by
  rw [PlanNode.preorder_eq, firstClash, PlanNode.clash?, PlanNode.kind_detached,
    PlanNode.id_detached, hused]
  unfold clashAtTop
  by_cases hroot : top.kind = .root
  · simp [hroot]
  · simp [hroot]

/-- The only fragment that a plan has ever registered is the only one pending. -/
theorem pendingTrees_register_of_empty (hfragments : p.fragments = .empty)
    (hlowered : p.lowered = .empty) (tree : PlanNode) :
    (p.register tree).2.pendingTrees = [unwrapRoot tree] := by
  have hnot : p.isLowered (unwrapRoot tree).id = false := by
    unfold isLowered
    rw [hlowered]
    rfl
  rw [register_of_not_isLowered hnot]
  unfold pendingTrees pending tree? isLowered
  rw [hfragments, hlowered]
  change [(unwrapRoot tree).id].filterMap _ = _
  rw [List.filterMap_cons_some, List.filterMap_nil]
  rw [SortedMap.get?_insert_self, Option.bind_some, Fragment.toTree?_capture]

/-- A plan that was read back does not know its fragments: one that is registered again
makes the next build fail, and the graph stays as it is. -/
theorem WellFormed.build_register_decoded (h : p.WellFormed)
    (hissued : ∀ i, p.vertices.contains i = true → i < supply.next) (config : PlannerConfig)
    {tree : PlanNode} (hused : p.vertices.contains (unwrapRoot tree).id = true) :
    ((p.decoded supply config).register tree).2.build.plan =
        ((p.decoded supply config).register tree).2 ∧
      ((p.decoded supply config).register tree).2.build.failure =
        some (clashAtTop (unwrapRoot tree)) := by
  have hwell := Wire.wellFormed_of_toPlan (h.toPlan_eq_decoded hissued config)
  have hnot : (p.decoded supply config).isLowered (unwrapRoot tree).id = false := rfl
  have hsplit : ((p.decoded supply config).register tree).2.pendingTrees =
      [] ++ unwrapRoot tree :: [] := pendingTrees_register_of_empty rfl rfl tree
  have hvertices : ((p.decoded supply config).register tree).2.vertices = p.vertices := by
    rw [register_of_not_isLowered hnot]
    exact h.vertices_decoded hissued config
  have hbuilt : ((p.decoded supply config).register tree).2.built = false := by
    rw [register_of_not_isLowered hnot]
  have hclash : firstClash ((p.decoded supply config).register tree).2.vertices.contains []
      (unwrapRoot tree).preorder = some ⟨[], clashAtTop (unwrapRoot tree)⟩ := by
    rw [hvertices]
    exact firstClash_of_contains hused
  exact Captured.build_of_firstClash (hwell.register tree).captured hbuilt hsplit trivial hclash

/-- A plan in which nothing is pending ignores a tree whose root is part of the graph, and
a build changes nothing that is on the wire. -/
theorem transcript_of_isLowered (hnil : p.pending = []) {tree : PlanNode}
    (hlowered : p.isLowered (unwrapRoot tree).id = true) (supply : IdSupply) :
    p.transcript supply [.register tree, .build] =
      [(.root (unwrapRoot tree).id, p.toWire supply), (.outcome none, p.toWire supply)] := by
  rw [transcript_register_build, register_of_isLowered hlowered]
  cases hbuilt : p.built with
  | true => rw [build_of_built hbuilt]
  | false =>
    rw [build_of_pending_eq_nil hbuilt hnil, toWire_finish]

/-- A build of pending fragments either fails or changes the wire. -/
theorem WellFormed.transcript_build_ne (h : p.WellFormed) (hbuilt : p.built = false)
    (hpending : p.pending ≠ []) (supply : IdSupply) :
    p.transcript supply [.build] ≠ [(.outcome none, p.toWire supply)] := by
  intro heq
  rw [transcript_build, List.singleton_inj, Prod.mk.injEq, Answer.outcome.injEq] at heq
  have hvertices : p.build.plan.vertices = p.vertices := congrArg Wire.vertices heq.2
  have hto := h.captured.lowersTo_build hbuilt
  rw [heq.1] at hto
  cases htrees : p.pendingTrees with
  | nil => exact hpending (by rw [← h.captured.map_id_pendingTrees, htrees]; rfl)
  | cons t ts =>
    rw [htrees] at hto
    rcases admitsAll_or_exists_firstClash p (t :: ts) with
      hall | ⟨front, u, back, failure, hsplit, hfront, hclash⟩
    · have hplan := (hall.lowersTo.unique hto).1
      have hmem : t.id ∈ t.ids := t.root_id_mem_ids
      have hcontains : (p.commitTrees (t :: ts)).vertices.contains t.id = true :=
        (contains_vertices_commitTrees hall).2 (.inr ⟨t, List.mem_cons_self, hmem⟩)
      have hfree := hall.1.free_ids t.id hmem
      rw [← hvertices, ← hplan] at hfree
      exact Bool.noConfusion (hfree.symm.trans hcontains)
    · rw [hsplit] at hto
      have hfailure := ((hfront.lowersTo_of_firstClash hclash).unique hto).2
      contradiction

/-- A plan that is read back from the wire of another one, whose identifiers were all handed
out.  Where nothing is pending, as in every plan that is built, no additions can tell the
two apart unless they register a tree with the root of a fragment of the graph.  The written
plan ignores such a tree; the one that is read back takes it up, and its next build fails
there.  Where something is pending, the next build does it in the written plan only. -/
theorem transcript_decoded {config : PlannerConfig} {start : IdSupply} {calls : List Call}
    (hp : (create config start).1.run calls = p)
    (hissued : ∀ i, p.vertices.contains i = true → i < supply.next) (reader : PlannerConfig) :
    ∃ q, (p.toWire supply).toPlan reader = .ok (q, supply) ∧
      (p.built = true → p.pending = []) ∧
      (p.pending = [] → ∀ additions,
        (∀ tree, .register tree ∈ additions → p.isLowered (unwrapRoot tree).id = false) →
        q.transcript supply additions = p.transcript supply additions) ∧
      (p.pending = [] → ∀ tree, p.isLowered (unwrapRoot tree).id = true →
        p.transcript supply [.register tree, .build] =
            [(.root (unwrapRoot tree).id, p.toWire supply), (.outcome none, p.toWire supply)] ∧
          q.transcript supply [.register tree, .build] =
            [(.root (unwrapRoot tree).id, p.toWire supply),
              (.outcome (some (clashAtTop (unwrapRoot tree))), p.toWire supply)]) ∧
      (p.pending ≠ [] → q.transcript supply [.build] ≠ p.transcript supply [.build]) := by
  have haccounted : ∃ ts, p.Accounted ts :=
    hp ▸ (Accounted.ofTerminal config (newTerminal start)).run calls
  have hwell : p.WellFormed := hp ▸ ((Reachable.create config start).run calls).wellFormed
  rcases haccounted with ⟨ts, haccounted⟩
  have hwire := hwell.toWire_decoded hissued reader
  refine ⟨p.decoded supply reader, hwell.toPlan_eq_decoded hissued reader,
    haccounted.pending_eq_nil, fun hnil additions hnew => ?_, fun hnil tree hlowered => ?_,
    fun hpending heq => ?_⟩
  · exact (hwell.inStep_decoded hissued hnil reader).transcript_eq supply hnew
  · refine ⟨transcript_of_isLowered hnil hlowered supply, ?_⟩
    have hbuild := hwell.build_register_decoded hissued reader
      (haccounted.contains_of_isLowered hlowered)
    have hnot : (p.decoded supply reader).isLowered (unwrapRoot tree).id = false := rfl
    have hregister : ((p.decoded supply reader).register tree).2.toWire supply =
        p.toWire supply := by
      rw [register_of_not_isLowered hnot]
      exact hwire
    rw [transcript_register_build, hbuild.1, hbuild.2, hregister]
  · have hbuilt : p.built = false := by
      by_contra hnot
      rw [Bool.not_eq_false] at hnot
      exact hpending (haccounted.pending_eq_nil hnot)
    have hdecoded : (p.decoded supply reader).build = ⟨p.decoded supply reader, [], none⟩ :=
      build_of_built rfl
    refine hwell.transcript_build_ne hbuilt hpending supply (heq.symm.trans ?_)
    rw [transcript_build, hdecoded, hwire]

/-- The plan that was built twice goes on with a new fragment, as what is read back of it
does, while one of its own fragments makes a difference. -/
theorem transcript_decoded_builtTwice :
    builtTwice.pending = [] ∧
      ∃ q, (builtTwice.toWire ⟨8⟩).toPlan .standard = .ok (q, ⟨8⟩) ∧
        q.transcript ⟨8⟩ [.register (.leaf 3 ⟨[]⟩ (.scan "c" none)), .build] =
          builtTwice.transcript ⟨8⟩ [.register (.leaf 3 ⟨[]⟩ (.scan "c" none)), .build] := by
  rcases transcript_decoded (p := builtTwice) rfl builtTwice_issued .standard with
    ⟨q, hdecode, hpending, hsame, -⟩
  have hnone : builtTwice.pending = [] := hpending builtTwice_built
  refine ⟨hnone, q, hdecode, hsame hnone _ fun tree htree => ?_⟩
  simp only [List.mem_cons, Addition.register.injEq, reduceCtorEq, List.not_mem_nil, or_false]
    at htree
  rw [htree]
  decide +kernel

/-- A scan that has the root of a fragment of that plan: the plan ignores it, and what is
read back does not. -/
theorem transcript_decoded_ne :
    builtTwice.isLowered 5 = true ∧
      ∃ q, (builtTwice.toWire ⟨8⟩).toPlan .standard = .ok (q, ⟨8⟩) ∧
        (builtTwice.register (.leaf 5 ⟨[]⟩ (.scan "c" none))).2 = builtTwice ∧
        builtTwice.build.failure = none ∧
        (q.register (.leaf 5 ⟨[]⟩ (.scan "c" none))).2.build.failure =
          some ⟨.scan, 5, .usedIdentifier⟩ := by
  have hwell := builtTwice_reachable.wellFormed
  have hused : builtTwice.vertices.contains
      (unwrapRoot (.leaf 5 ⟨[]⟩ (.scan "c" none))).id = true := by
    decide +kernel
  have hbuild := hwell.build_register_decoded builtTwice_issued .standard hused
  have hlowered : builtTwice.isLowered 5 = true := by decide +kernel
  exact ⟨hlowered, _, hwell.toPlan_eq_decoded builtTwice_issued .standard,
    register_of_isLowered hlowered, by decide +kernel, hbuild.2⟩

end Plan

end QueryGraph
