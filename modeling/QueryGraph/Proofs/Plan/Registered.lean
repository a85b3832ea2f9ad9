import QueryGraph.Proofs.Plan.Embodiment
import QueryGraph.Proofs.Plan.Reachable

/-!
# Registering trees and building once

A plan keeps the trees of its registered fragments under their roots.  Compatible
trees that are registered with a new plan are all pending, a build lowers all of
them, and the graph is theirs.

Main definitions:

- {lit}`Plan.registeredTrees`: the trees of the registered fragments.
- {lit}`Plan.captureAll`: the fragments of some trees.
- {lit}`Plan.byRoot`: some trees by ascending root.
- {lit}`Plan.ofTrees`: a new plan with these fragments.
- {lit}`Plan.buildOnce`: registers trees with a new plan and builds it once.

Main results:

- {lit}`Plan.run_register`: what registering trees does to a plan.
- {lit}`Plan.registeredTrees_eq_byRoot`: fragments are found by ascending root.
- {lit}`Plan.captureAll_eq_of_perm`: the registered trees determine the fragments.
- {lit}`Plan.Compatible.build_ofTrees`, {lit}`Plan.Compatible.embodies_build_ofTrees`:
  building a new plan with compatible trees.
-/

namespace QueryGraph

/-- A tree without a root on top is registered as it is. -/
theorem PlanNode.unwrapRoot_of_kind_ne_root {t : PlanNode} (h : t.kind ≠ .root) :
    Plan.unwrapRoot t = t := by
  unfold Plan.unwrapRoot
  split
  · exact absurd rfl h
  · rfl

namespace Plan

variable {p : Plan} {t : PlanNode} {ts : List PlanNode}

/-! ## Registered trees -/

/-- The trees of the registered fragments by ascending root. -/
def registeredTrees (p : Plan) : List PlanNode :=
  p.fragments.keys.filterMap p.tree?

/-- A tree is registered if it is captured under its own root. -/
theorem Captured.mem_registeredTrees_iff (h : p.Captured) :
    t ∈ p.registeredTrees ↔ p.fragments.get? t.id = some (Fragment.capture t) := by
  unfold registeredTrees
  rw [List.mem_filterMap]
  constructor
  · rintro ⟨root, -, ht⟩
    rcases h.get?_of_tree? ht with ⟨hget, rfl⟩
    exact hget
  · intro hget
    refine ⟨t.id, SortedMap.mem_keys_iff.2 (SortedMap.contains_iff.2 ⟨_, hget⟩), ?_⟩
    exact tree?_eq_some_of_get? hget

/-- The registered trees have the keys of the fragments as their roots. -/
theorem Captured.map_id_registeredTrees (h : p.Captured) :
    p.registeredTrees.map PlanNode.id = p.fragments.keys := by
  apply map_id_filterMap_tree?
  intro root hroot
  rcases SortedMap.contains_iff.1 (SortedMap.mem_keys_iff.1 hroot) with ⟨f, hf⟩
  rcases h root f hf with ⟨t, ht, rfl⟩
  exact ⟨t, tree?_eq_some_of_get? hf, ht⟩

/-- No two registered trees have the same root. -/
theorem Captured.nodup_ids_registeredTrees (h : p.Captured) :
    (p.registeredTrees.map PlanNode.id).Nodup := by
  rw [h.map_id_registeredTrees]
  exact p.fragments.nodup_keys

/-- Where no fragment is part of the graph yet, all registered trees are pending. -/
theorem pendingTrees_eq_registeredTrees (h : p.lowered = .empty) :
    p.pendingTrees = p.registeredTrees := by
  have hpending : p.pending = p.fragments.keys := by
    unfold pending isLowered
    rw [h, List.filter_eq_self]
    intro root _
    rfl
  unfold pendingTrees registeredTrees
  rw [hpending]

/-! ## The fragments of some trees -/

/-- The fragments of some trees under their roots. -/
def captureAll (ts : List PlanNode) : IdMap Fragment :=
  SortedMap.ofList (ts.map fun t => (t.id, Fragment.capture t))

/-- A fragment is kept for each of the trees, under its root. -/
theorem get?_captureAll_iff (hnodup : (ts.map PlanNode.id).Nodup) {root : NodeId} {f : Fragment} :
    (captureAll ts).get? root = some f ↔ ∃ t ∈ ts, t.id = root ∧ f = Fragment.capture t := by
  have hkeys : (ts.map fun t => (t.id, Fragment.capture t)).map Prod.fst =
      ts.map PlanNode.id := by
    rw [List.map_map]
    rfl
  by_cases hroot : root ∈ ts.map PlanNode.id
  · rcases List.mem_map.1 hroot with ⟨t, ht, rfl⟩
    have hget : (captureAll ts).get? t.id = some (Fragment.capture t) :=
      SortedMap.get?_insertAll_of_mem (hkeys ▸ hnodup) (List.mem_map.2 ⟨t, ht, rfl⟩)
    rw [hget, Option.some.injEq]
    constructor
    · rintro rfl
      exact ⟨t, ht, rfl, rfl⟩
    · rintro ⟨u, hu, hid, rfl⟩
      rw [List.inj_on_of_nodup_map hnodup hu ht hid]
  · have hget : (captureAll ts).get? root = none :=
      SortedMap.get?_insertAll_of_notMem (hkeys ▸ hroot)
    rw [hget]
    simp only [reduceCtorEq, false_iff]
    rintro ⟨t, ht, rfl, -⟩
    exact hroot (List.mem_map_of_mem ht)

/-- Some trees by ascending root, the last one under each root. -/
def byRoot (ts : List PlanNode) : List PlanNode :=
  (SortedMap.ofList (ts.map fun t => (t.id, t))).values

/-- A tree that is found under a root is one of the trees, with that root. -/
theorem mem_and_id_of_get?_ofList {root : NodeId}
    (h : (SortedMap.ofList (ts.map fun t => (t.id, t))).get? root = some t) :
    t ∈ ts ∧ t.id = root := by
  rcases SortedMap.mem_or_of_get?_insertAll h with hmem | hempty
  · rcases List.mem_map.1 hmem with ⟨u, hu, heq⟩
    rw [Prod.mk.injEq] at heq
    obtain ⟨rfl, rfl⟩ := heq
    exact ⟨hu, rfl⟩
  · simp at hempty

/-- Trees by root come in ascending order. -/
theorem pairwise_byRoot (ts : List PlanNode) :
    ((byRoot ts).map PlanNode.id).Pairwise (· < ·) := by
  unfold byRoot
  rw [SortedMap.map_values_eq_keys fun _ _ h => (mem_and_id_of_get?_ofList h).2]
  exact (SortedMap.ofList (ts.map fun t => (t.id, t))).ascending

/-- The fragment under a root is that of the last tree with this root. -/
theorem get?_captureAll (ts : List PlanNode) (root : NodeId) :
    (captureAll ts).get? root =
      ((SortedMap.ofList (ts.map fun t => (t.id, t))).get? root).map Fragment.capture := by
  have hentries : (ts.map fun t => (t.id, Fragment.capture t)) =
      (ts.map fun t => (t.id, t)).map fun e => (e.1, Fragment.capture e.2) := by
    simp
  unfold captureAll
  rw [hentries]
  exact SortedMap.get?_insertAll_map Fragment.capture (fun _ => rfl) _ root

/-- A plan with the fragments of some trees holds captured trees only. -/
theorem captured_of_captureAll (h : p.fragments = captureAll ts) : p.Captured := by
  intro root f hf
  rw [h, get?_captureAll, Option.map_eq_some_iff] at hf
  rcases hf with ⟨t, hget, rfl⟩
  exact ⟨t, (mem_and_id_of_get?_ofList hget).2, rfl⟩

/-- The registered trees are those that the fragments were made of, by ascending root. -/
theorem registeredTrees_eq_byRoot (h : p.fragments = captureAll ts) :
    p.registeredTrees = byRoot ts := by
  have hget : ∀ root, p.fragments.get? root =
      ((SortedMap.ofList (ts.map fun t => (t.id, t))).get? root).map Fragment.capture := by
    intro root
    rw [h]
    exact get?_captureAll ts root
  have hkeys : p.fragments.keys = (SortedMap.ofList (ts.map fun t => (t.id, t))).keys := by
    refine ids_eq_of_ascending p.fragments.ascending (SortedMap.ascending _) fun root => ?_
    rw [SortedMap.mem_keys_iff, SortedMap.mem_keys_iff]
    simp [SortedMap.contains, hget]
  have htree : p.tree? = (SortedMap.ofList (ts.map fun t => (t.id, t))).get? := by
    funext root
    unfold tree?
    rw [hget]
    cases (SortedMap.ofList (ts.map fun t => (t.id, t))).get? root with
    | none => rfl
    | some t => exact Fragment.toTree?_capture t
  unfold registeredTrees byRoot
  rw [hkeys, htree]
  exact SortedMap.filterMap_get?_keys _

/-- Trees with different roots are all listed. -/
theorem perm_byRoot (hnodup : (ts.map PlanNode.id).Nodup) : (byRoot ts).Perm ts := by
  have hascending : ((byRoot ts).map PlanNode.id).Nodup :=
    (pairwise_byRoot ts).imp UInt64.ne_of_lt
  refine (List.perm_ext_iff_of_nodup (List.Nodup.of_map _ hascending)
    (List.Nodup.of_map _ hnodup)).2 fun t => ?_
  unfold byRoot
  rw [SortedMap.mem_values_iff]
  constructor
  · rintro ⟨root, hget⟩
    exact (mem_and_id_of_get?_ofList hget).1
  · intro ht
    have hkeys : (ts.map fun t => (t.id, t)).map Prod.fst = ts.map PlanNode.id := by
      rw [List.map_map]
      rfl
    exact ⟨t.id, SortedMap.get?_insertAll_of_mem (hkeys ▸ hnodup) (List.mem_map.2 ⟨t, ht, rfl⟩)⟩

/-- Trees with different roots are registered as they are. -/
theorem perm_registeredTrees (hnodup : (ts.map PlanNode.id).Nodup)
    (h : p.fragments = captureAll ts) : p.registeredTrees.Perm ts := by
  rw [registeredTrees_eq_byRoot h]
  exact perm_byRoot hnodup

/-- The registered trees in any order determine the fragments. -/
theorem Captured.captureAll_eq_of_perm (h : p.Captured) (hperm : ts.Perm p.registeredTrees) :
    captureAll ts = p.fragments := by
  have hnodup : (ts.map PlanNode.id).Nodup :=
    (hperm.map PlanNode.id).nodup_iff.2 h.nodup_ids_registeredTrees
  refine SortedMap.ext_get? fun root => Option.ext fun f => ?_
  rw [get?_captureAll_iff hnodup]
  simp only [hperm.mem_iff, h.mem_registeredTrees_iff]
  constructor
  · rintro ⟨t, ht, rfl, rfl⟩
    exact ht
  · intro hf
    rcases h root f hf with ⟨t, rfl, rfl⟩
    exact ⟨t, hf, rfl, rfl⟩

/-! ## Registering many trees -/

/-- Registering trees sets a fragment for each of them, without the roots that close
them. -/
theorem run_register (hlowered : p.lowered = .empty) (hbuilt : p.built = false)
    (ts : List PlanNode) :
    p.run (ts.map Call.register) =
      { p with
        fragments := p.fragments.insertAll
          ((ts.map unwrapRoot).map fun t => (t.id, Fragment.capture t)) } := by
  induction ts generalizing p with
  | nil => rfl
  | cons t ts ih =>
    have hregister : p.execute (.register t) =
        { p with
          fragments := p.fragments.insert (unwrapRoot t).id (Fragment.capture (unwrapRoot t)) } := by
      have hnot : p.isLowered (unwrapRoot t).id = false := by
        unfold isLowered
        rw [hlowered]
        rfl
      exact (register_of_not_isLowered hnot).trans (by rw [← hbuilt])
    rw [List.map_cons, run_cons, hregister]
    refine ih ?_ ?_
    · exact hlowered
    · exact hbuilt

/-! ## Building once -/

/-- A new plan with the fragments of some trees. -/
def ofTrees (config : PlannerConfig) (terminal : PlanNode) (ts : List PlanNode) : Plan :=
  { ofTerminal config terminal with fragments := captureAll ts }

variable {config : PlannerConfig} {terminal : PlanNode}

theorem run_register_ofTerminal (config : PlannerConfig) (terminal : PlanNode)
    (ts : List PlanNode) :
    (ofTerminal config terminal).run (ts.map Call.register) =
      ofTrees config terminal (ts.map unwrapRoot) :=
  run_register rfl rfl ts

/-- Nothing that was registered is part of the graph before a build. -/
theorem Embodies.ofTrees (config : PlannerConfig) (terminal : PlanNode) (ts : List PlanNode) :
    (ofTrees config terminal ts).Embodies [] :=
  { Embodies.ofTerminal config terminal with }

/-- Compatible trees have different roots. -/
theorem Compatible.nodup_roots {root : NodeId} (h : Compatible root ts) :
    (ts.map PlanNode.id).Nodup := by
  have hsublist : (ts.map PlanNode.id).Sublist (ts.flatMap PlanNode.ids) := by
    induction ts with
    | nil => exact List.Sublist.refl []
    | cons t ts ih =>
      rcases h with ⟨hkind, hnodup, hterminal⟩
      rw [List.flatMap_cons, List.forall_mem_append] at hkind
      rw [List.flatMap_cons, List.nodup_append'] at hnodup
      rw [List.flatMap_cons, List.mem_append, not_or] at hterminal
      rw [List.map_cons, List.flatMap_cons, PlanNode.ids_eq, List.cons_append]
      exact ((ih ⟨hkind.2, hnodup.2.1, hterminal.2⟩).trans
        (List.sublist_append_right _ _)).cons_cons t.id
  exact h.nodup_ids.sublist hsublist

/-- Compatible trees have no root to take off. -/
theorem Compatible.map_unwrapRoot {root : NodeId} (h : Compatible root ts) :
    ts.map unwrapRoot = ts := by
  have hsame : ∀ t ∈ ts, unwrapRoot t = id t := by
    intro t ht
    apply PlanNode.unwrapRoot_of_kind_ne_root
    rw [← PlanNode.kind_detached]
    refine h.kind_ne_root _ (List.mem_flatMap.2 ⟨t, ht, ?_⟩)
    exact PlanNode.mem_preorder_iff.2 ⟨t, t.self_mem_subtrees, rfl⟩
  rw [List.map_congr_left hsame, List.map_id]

/-- Compatible trees are all registered, each once. -/
theorem Compatible.perm_registeredTrees_ofTrees (h : Compatible terminal.id ts) :
    (ofTrees config terminal ts).registeredTrees.Perm ts :=
  perm_registeredTrees h.nodup_roots rfl

/-- Compatible trees can be added to a new plan one after the other. -/
theorem Compatible.admitsAll_ofTrees (h : Compatible terminal.id ts) :
    (ofTrees config terminal ts).AdmitsAll (ofTrees config terminal ts).registeredTrees := by
  have hregistered :=
    h.perm (perm_registeredTrees (p := ofTrees config terminal ts) h.nodup_roots rfl).symm
  apply hregistered.admitsAll
  intro i hi
  rw [← Bool.not_eq_true, (Embodies.ofTrees config terminal ts).contains_iff, not_or]
  refine ⟨?_, List.not_mem_nil⟩
  rintro rfl
  exact hregistered.terminal_notMem hi

/-- A build of a new plan with compatible trees adds all of them and comes to its
end. -/
theorem Compatible.build_ofTrees (h : Compatible terminal.id ts) :
    (ofTrees config terminal ts).build.plan =
        ((ofTrees config terminal ts).commitTrees
          (ofTrees config terminal ts).registeredTrees).finish ∧
      (ofTrees config terminal ts).build.failure = none := by
  have hcaptured : (ofTrees config terminal ts).Captured :=
    captured_of_captureAll rfl
  have hto := hcaptured.lowersTo_build rfl
  rw [pendingTrees_eq_registeredTrees rfl] at hto
  exact hto.unique h.admitsAll_ofTrees.lowersTo

/-- The graph is then that of the trees. -/
theorem Compatible.embodies_build_ofTrees (h : Compatible terminal.id ts) :
    (ofTrees config terminal ts).build.plan.Embodies ts := by
  have hall := (Embodies.ofTrees config terminal ts).commitTrees h.admitsAll_ofTrees
  rw [List.append_nil] at hall
  rw [h.build_ofTrees.1]
  exact hall.finish.perm h.perm_registeredTrees_ofTrees

/-- The terminal of a new plan. -/
def newTerminal (supply : IdSupply) : PlanNode :=
  .unary supply.next .empty .root none

/-- Registers trees with a new plan and builds it once. -/
def buildOnce (config : PlannerConfig) (supply : IdSupply) (trees : List PlanNode) :
    BuildOutcome :=
  ((create config supply).1.run (trees.map Call.register)).build

/-- To register trees and build once is to build the plan of these trees. -/
theorem buildOnce_eq (config : PlannerConfig) (supply : IdSupply) (trees : List PlanNode) :
    buildOnce config supply trees =
      (ofTrees config (newTerminal supply) (trees.map unwrapRoot)).build :=
  congrArg build (run_register_ofTerminal config (newTerminal supply) trees)

end Plan

end QueryGraph
