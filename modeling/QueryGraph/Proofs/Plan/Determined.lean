import QueryGraph.Proofs.Plan.Registered

/-!
# A built plan is determined by its fragments

However its fragments were registered, replaced and built piece by piece, with
failures in between: a plan that ends built is the one that is made by registering
the same trees with a new plan, in any order, and building it once.

Main definitions:

- {lit}`Plan.Accounted`: the graph is that of registered trees, which are all that are
  registered once the plan is built.

Main results:

- {lit}`Plan.Accounted.execute`: every call keeps the graph accounted for.
- {lit}`Plan.buildOnce_eq_run`: a run that ends built ends where one build ends.
-/

namespace QueryGraph

namespace Plan

/-- The graph of a plan is that of some of its registered trees, and of all of them
once the plan is built. -/
structure Accounted (p : Plan) (ts : List PlanNode) : Prop where
  embodies : p.Embodies ts
  captured : p.Captured
  registered : ∀ t ∈ ts, p.fragments.get? t.id = some (Fragment.capture t)
  complete : p.built = true →
    ∀ root, p.fragments.contains root = true → root ∈ ts.map PlanNode.id
  ascending : p.built = true → p.topLevelIds.Pairwise (· < ·)

variable {p q : Plan} {t : PlanNode} {ts us : List PlanNode} {error : Option LoweringError}

/-! ## Each call -/

namespace Accounted

/-- A plan with nothing but a terminal accounts for no tree. -/
theorem ofTerminal (config : PlannerConfig) (n : PlanNode) :
    (ofTerminal config n).Accounted [] where
  embodies := Embodies.ofTerminal config n
  captured root f hf := by simp [Plan.ofTerminal] at hf
  registered := by simp
  complete hbuilt := absurd hbuilt Bool.false_ne_true
  ascending hbuilt := absurd hbuilt Bool.false_ne_true

/-- Registering a tree leaves the trees of the graph alone: only a fragment that is not
part of it can be replaced. -/
theorem register (h : p.Accounted ts) (tree : PlanNode) : (p.register tree).2.Accounted ts := by
  cases hlowered : p.isLowered (unwrapRoot tree).id with
  | true =>
    rw [register_of_isLowered hlowered]
    exact h
  | false =>
    rw [register_of_not_isLowered hlowered]
    refine
      { embodies := { h.embodies with }
        captured := h.captured.insert rfl
        registered := ?_
        complete := fun hbuilt => absurd hbuilt Bool.false_ne_true
        ascending := fun hbuilt => absurd hbuilt Bool.false_ne_true }
    intro t ht
    have hne : (unwrapRoot tree).id ≠ t.id := by
      intro heq
      rw [heq, (h.embodies.lowered_iff t.id).2 (List.mem_map_of_mem ht)] at hlowered
      contradiction
    change (p.fragments.insert _ _).get? t.id = _
    rw [SortedMap.get?_insert, if_neg hne]
    exact h.registered t ht

/-- A build adds registered trees, and all that are left if it comes to its end. -/
theorem lowersTo (h : p.Accounted ts) (hbuilt : p.built = false) (hto : LowersTo p us q error)
    (hregistered : ∀ u ∈ us, p.fragments.get? u.id = some (Fragment.capture u))
    (hall : ∀ root, p.fragments.contains root = true →
      root ∈ ts.map PlanNode.id ∨ root ∈ us.map PlanNode.id) : ∃ vs, q.Accounted vs := by
  induction hto generalizing ts with
  | done p =>
    refine ⟨ts, h.embodies.finish, h.captured, h.registered, fun _ root hroot => ?_, fun _ => ?_⟩
    · exact (hall root hroot).resolve_right List.not_mem_nil
    · exact h.embodies.topLevel_ascending_finish
  | @step p q t us error hlow _ ih =>
    have hnext : (p.commitTree t).Accounted (t :: ts) :=
      { embodies := h.embodies.commitTree hlow
        captured := h.captured
        registered := by
          intro u hu
          rcases List.mem_cons.1 hu with rfl | hu
          · exact hregistered u List.mem_cons_self
          · exact h.registered u hu
        complete := by
          intro hb
          rw [built_commitTree, hbuilt] at hb
          contradiction
        ascending := by
          intro hb
          rw [built_commitTree, hbuilt] at hb
          contradiction }
    refine ih hnext hbuilt (fun u hu => hregistered u (List.mem_cons_of_mem t hu)) ?_
    intro root hroot
    rcases hall root hroot with hmem | hmem
    · exact Or.inl (List.mem_cons_of_mem _ hmem)
    · rw [List.map_cons, List.mem_cons] at hmem
      rcases hmem with rfl | hmem
      · exact Or.inl List.mem_cons_self
      · exact Or.inr hmem
  | stop _ => exact ⟨ts, h⟩

/-- After a build the graph is that of registered trees, also where the build failed. -/
theorem build (h : p.Accounted ts) : ∃ vs, p.build.plan.Accounted vs := by
  cases hbuilt : p.built with
  | true =>
    rw [build_of_built hbuilt]
    exact ⟨ts, h⟩
  | false =>
    refine h.lowersTo hbuilt (h.captured.lowersTo_build hbuilt) (fun u hu => ?_)
      fun root hroot => ?_
    · exact (h.captured.mem_pendingTrees_iff.1 hu).1
    · cases hlowered : p.isLowered root with
      | true => exact Or.inl ((h.embodies.lowered_iff root).1 hlowered)
      | false =>
        rw [h.captured.map_id_pendingTrees]
        exact Or.inr (mem_pending_iff.2 ⟨hroot, hlowered⟩)

/-- Every call keeps the graph accounted for. -/
theorem execute (h : p.Accounted ts) (call : Call) : ∃ us, (p.execute call).Accounted us := by
  cases call with
  | register tree => exact ⟨ts, h.register tree⟩
  | setOnly tree => exact ⟨[], (ofTerminal p.config p.terminal).register tree⟩
  | clear => exact ⟨[], ofTerminal p.config p.terminal⟩
  | build => exact h.build

/-- After any calls the graph is that of registered trees. -/
theorem run (h : p.Accounted ts) (calls : List Call) : ∃ us, (p.run calls).Accounted us := by
  induction calls generalizing p ts with
  | nil => exact ⟨ts, h⟩
  | cons call calls ih =>
    rcases h.execute call with ⟨us, hus⟩
    exact ih hus

/-- Once the plan is built, its graph is that of all registered trees. -/
theorem perm_registeredTrees (h : p.Accounted ts) (hbuilt : p.built = true) :
    ts.Perm p.registeredTrees := by
  refine (List.perm_ext_iff_of_nodup (List.Nodup.of_map _ h.embodies.compatible.nodup_roots)
    (List.Nodup.of_map _ h.captured.nodup_ids_registeredTrees)).2 fun t => ?_
  rw [h.captured.mem_registeredTrees_iff]
  constructor
  · exact h.registered t
  · intro hget
    rcases List.mem_map.1 (h.complete hbuilt t.id (SortedMap.contains_iff.2 ⟨_, hget⟩)) with
      ⟨u, hu, hid⟩
    have hcapture := h.registered u hu
    rw [hid, hget, Option.some.injEq] at hcapture
    exact Fragment.capture_injective hcapture ▸ hu

end Accounted

/-! ## What no call changes -/

theorem LowersTo.config_eq (h : LowersTo p ts q error) : q.config = p.config := by
  induction h with
  | done p => rfl
  | step _ _ ih => exact ih
  | stop _ => rfl

theorem LowersTo.terminal_eq (h : LowersTo p ts q error) : q.terminal = p.terminal := by
  induction h with
  | done p => rfl
  | step _ _ ih => exact ih
  | stop _ => rfl

/-- Lowering trees does not forget a fragment. -/
theorem LowersTo.fragments_eq (h : LowersTo p ts q error) : q.fragments = p.fragments := by
  induction h with
  | done p => rfl
  | step _ _ ih => exact ih
  | stop _ => rfl

theorem register_config_terminal (p : Plan) (tree : PlanNode) :
    (p.register tree).2.config = p.config ∧ (p.register tree).2.terminal = p.terminal := by
  cases hlowered : p.isLowered (unwrapRoot tree).id with
  | true =>
    rw [register_of_isLowered hlowered]
    exact ⟨rfl, rfl⟩
  | false =>
    rw [register_of_not_isLowered hlowered]
    exact ⟨rfl, rfl⟩

theorem Captured.build_config_terminal (h : p.Captured) :
    p.build.plan.config = p.config ∧ p.build.plan.terminal = p.terminal := by
  cases hbuilt : p.built with
  | true =>
    rw [build_of_built hbuilt]
    exact ⟨rfl, rfl⟩
  | false =>
    have hto := h.lowersTo_build hbuilt
    exact ⟨hto.config_eq, hto.terminal_eq⟩

/-- A build forgets no fragment. -/
theorem Captured.fragments_build (h : p.Captured) : p.build.plan.fragments = p.fragments := by
  cases hbuilt : p.built with
  | true => rw [build_of_built hbuilt]
  | false => exact (h.lowersTo_build hbuilt).fragments_eq

/-- However it is used, a plan keeps its configuration and terminal. -/
theorem Accounted.run_config_terminal (h : p.Accounted ts) (calls : List Call) :
    (p.run calls).config = p.config ∧ (p.run calls).terminal = p.terminal := by
  induction calls generalizing p ts with
  | nil => exact ⟨rfl, rfl⟩
  | cons call calls ih =>
    have hcall : (p.execute call).config = p.config ∧ (p.execute call).terminal = p.terminal := by
      cases call with
      | register tree => exact p.register_config_terminal tree
      | setOnly tree => exact p.clear.register_config_terminal tree
      | clear => exact ⟨rfl, rfl⟩
      | build => exact h.captured.build_config_terminal
    rcases h.execute call with ⟨us, hus⟩
    rw [run_cons, ← hcall.1, ← hcall.2]
    exact ih hus

/-! ## Runs that end built -/

/-- A run of calls on a new plan that ends built, with builds that fail and fragments
that are replaced in between, ends in the plan that is made by registering the same
trees with a new plan, in any order, and building it once. -/
theorem buildOnce_eq_run (config : PlannerConfig) (supply : IdSupply) (calls : List Call)
    (hbuilt : ((create config supply).1.run calls).built = true) {trees : List PlanNode}
    (htrees : trees.Perm ((create config supply).1.run calls).registeredTrees) :
    (buildOnce config supply trees).failure = none ∧
      (buildOnce config supply trees).plan = (create config supply).1.run calls := by
  have hnew : (create config supply).1.Accounted [] :=
    Accounted.ofTerminal config (newTerminal supply)
  rcases hnew.run calls with ⟨ts, hrun⟩
  rcases hnew.run_config_terminal calls with ⟨hconfig, hterminal⟩
  have hembodies : ((create config supply).1.run calls).Embodies trees :=
    hrun.embodies.perm ((hrun.perm_registeredTrees hbuilt).trans htrees.symm)
  have hcompatible : Compatible (newTerminal supply).id trees := by
    have h := hembodies.compatible
    rw [hterminal] at h
    exact h
  have honce : buildOnce config supply trees =
      (ofTrees config (newTerminal supply) trees).build := by
    rw [buildOnce_eq, hembodies.compatible.map_unwrapRoot]
  have hplan : (ofTrees config (newTerminal supply) trees).build.plan =
        ((ofTrees config (newTerminal supply) trees).commitTrees
          (ofTrees config (newTerminal supply) trees).registeredTrees).finish ∧
      (ofTrees config (newTerminal supply) trees).build.failure = none :=
    hcompatible.build_ofTrees
  rw [honce]
  refine ⟨hplan.2, ?_⟩
  refine hcompatible.embodies_build_ofTrees.eq_of_ascending hembodies ?_ ?_ ?_ ?_ ?_ ?_
  · rw [hplan.1, hconfig]
    exact config_commitTrees _ _
  · rw [hplan.1, hterminal]
    exact terminal_commitTrees _ _
  · rw [hplan.1, ← hrun.captured.captureAll_eq_of_perm htrees]
    exact fragments_commitTrees _ _
  · rw [hplan.1, hbuilt]
    rfl
  · rw [hplan.1]
    exact ((Embodies.ofTrees config (newTerminal supply) trees).commitTrees
      hcompatible.admitsAll_ofTrees).topLevel_ascending_finish
  · exact hrun.ascending hbuilt

/-- A tree whose lower node has a given identifier. -/
def limitOver (below : NodeId) : PlanNode :=
  .unary 2 ⟨[]⟩ (.limit 1) (some (.leaf below ⟨[]⟩ (.scan "b" none)))

/-- A scan is built first; a tree that uses its identifier again makes a build fail, and
is replaced by one that does not. -/
def replacement : List Call :=
  [.register (.leaf 5 ⟨[]⟩ (.scan "a" none)), .build, .register (limitOver 5), .build,
    .register (limitOver 4), .build]

/-- The build that fails leaves no trace: one build of the trees that stay gives the plan. -/
theorem buildOnce_eq_run_replacement :
    ((create .standard ⟨7⟩).1.run replacement).built = true ∧
      (buildOnce .standard ⟨7⟩ [.leaf 5 ⟨[]⟩ (.scan "a" none), limitOver 4]).plan =
        (create .standard ⟨7⟩).1.run replacement := by
  have hbuilt : ((create .standard ⟨7⟩).1.run replacement).built = true := by decide +kernel
  have htrees : ((create .standard ⟨7⟩).1.run replacement).registeredTrees =
      [limitOver 4, .leaf 5 ⟨[]⟩ (.scan "a" none)] := by
    with_unfolding_all rfl
  refine ⟨hbuilt, (buildOnce_eq_run .standard ⟨7⟩ replacement hbuilt ?_).2⟩
  rw [htrees]
  exact List.Perm.swap _ _ _

end Plan

end QueryGraph
