import QueryGraph.Plan.Comparison
import QueryGraph.Proofs.Node.SameTree
import QueryGraph.Proofs.Plan.Determined
import QueryGraph.Proofs.Plan.Lossless
import QueryGraph.Proofs.Plan.ScanPairs

/-!
# Comparing graphs is comparing trees

Two plans are compared by content from vertex to vertex, with what was recorded about joins,
unions and scans on the side.  Below a vertex the walk meets exactly what the tree of the
vertex says, so it decides whether the trees have the same content, whatever the
identifiers.  What is recorded on the side follows from the trees.

Main results:

- {lit}`Plan.Embodies.sameBelow_eq_sameTree`: walking the graphs of trees compares the trees.
- {lit}`Plan.Embodies.sameInputs_of_forall₂`: the scans of trees that agree are paired up.
- {lit}`Plan.Embodies.sameStructure_iff`: graphs have the same content if and only if their
  trees have.
- {lit}`Plan.sameStructure_buildOnce_iff`: the same for plans that were built once.
-/

namespace QueryGraph

namespace Plan

variable {p q : Plan} {ts us : List PlanNode} {t n m : PlanNode}

namespace Embodies

/-! ## What a walk finds -/

/-- The ordered children of a vertex are the inputs of its node in order. -/
theorem orderedChildren_eq (h : p.Embodies ts) (hn : n ∈ ts.flatMap PlanNode.subtrees) :
    p.orderedChildren n.id = n.inputs.map fun i => (i.2.id, i.1) := by
  unfold orderedChildren
  rw [h.childEdges_eq hn]
  cases n with
  | leaf i s op => rfl
  | unary i s op child => cases child <;> simp [PlanNode.inputs]
  | binary i s op left right => cases left <;> cases right <;> simp [PlanNode.inputs]

/-- The inputs of a node are nodes of the same trees. -/
theorem input_mem (hn : n ∈ ts.flatMap PlanNode.subtrees) {i : EdgeType × PlanNode}
    (hi : i ∈ n.inputs) : i.2 ∈ ts.flatMap PlanNode.subtrees := by
  obtain ⟨t, ht, hnt⟩ := List.mem_flatMap.1 hn
  exact List.mem_flatMap.2 ⟨t, ht, PlanNode.input_mem_subtrees hnt hi⟩

/-- No tree has more nodes than there are vertices. -/
theorem length_subtrees_le (h : p.Embodies ts) (ht : t ∈ ts) :
    t.subtrees.length ≤ p.vertexCount := by
  have hnodup : t.ids.Nodup := (List.nodup_flatMap.1 h.compatible.nodup_ids).1 t ht
  have hsubset : t.ids ⊆ p.vertices.keys := by
    intro i hi
    rw [SortedMap.mem_keys_iff, h.contains_iff]
    exact Or.inr (List.mem_flatMap.2 ⟨t, ht, hi⟩)
  calc
    t.subtrees.length = t.ids.length := by simp [PlanNode.ids, PlanNode.preorder_eq_map_detached]
    _ ≤ p.vertices.keys.length := (hnodup.subperm hsubset).length_le
    _ = p.vertexCount := List.length_map _

/-- Walking the graphs of trees compares the trees, if the bound allows for the height. -/
theorem sameBelow_eq_sameTree (hp : p.Embodies ts) (hq : q.Embodies us)
    (hn : n ∈ ts.flatMap PlanNode.subtrees) (hm : m ∈ us.flatMap PlanNode.subtrees) {bound : Nat}
    (hbound : n.subtrees.length ≤ bound) :
    sameBelow .content p q bound n.id m.id = n.sameTree m := by
  induction n using PlanNode.induct_inputs generalizing m bound with
  | node n ih =>
    cases bound with
    | zero =>
      have hpos := List.length_pos_of_mem n.self_mem_subtrees
      omega
    | succ bound =>
      have hchildren : agreesAll
          (fun c d => CompareMode.content.sameEdge c.2 d.2 &&
            sameBelow .content p q bound c.1 d.1)
          (p.orderedChildren n.id) (q.orderedChildren m.id) =
            agreesAll (fun i j => i.1 == j.1 && i.2.sameTree j.2) n.inputs m.inputs := by
        rw [hp.orderedChildren_eq hn, hq.orderedChildren_eq hm, agreesAll_map]
        apply agreesAll_congr
        intro i hi j hj
        have hlt := PlanNode.length_subtrees_input_lt hi
        have hbelow : i.2.subtrees.length ≤ bound := by omega
        have hsame := ih i hi (input_mem hn hi) (input_mem hm hj) hbelow
        simp [CompareMode.sameEdge, hsame]
      rw [sameBelow, hp.vertex?_eq hn, hq.vertex?_eq hm, hchildren, PlanNode.sameTree_eq]
      simp [agreesOption, CompareMode.sameNode]

/-- The walks from all pairs of tops compare all pairs of trees. -/
theorem agreesAll_sameBelow_eq (hp : p.Embodies ts) (hq : q.Embodies us) :
    agreesAll (sameBelow .content p q (p.vertexCount + 1)) (ts.map PlanNode.id)
      (us.map PlanNode.id) = agreesAll PlanNode.sameTree ts us := by
  rw [agreesAll_map]
  apply agreesAll_congr
  intro t ht u hu
  have hbound : t.subtrees.length ≤ p.vertexCount := hp.length_subtrees_le ht
  refine hp.sameBelow_eq_sameTree hq (List.mem_flatMap.2 ⟨t, ht, t.self_mem_subtrees⟩)
    (List.mem_flatMap.2 ⟨u, hu, u.self_mem_subtrees⟩) ?_
  omega

/-! ## What is recorded on the side -/

/-- No node stands in the trees twice. -/
theorem nodup_preorder (h : p.Embodies ts) : (ts.flatMap PlanNode.preorder).Nodup := by
  have hids : (ts.flatMap PlanNode.preorder).map PlanNode.id = ts.flatMap PlanNode.ids := by
    rw [List.map_flatMap]
    rfl
  refine List.Nodup.of_map PlanNode.id ?_
  rw [hids]
  exact h.compatible.nodup_ids

/-- The recorded scans are those among the nodes of the trees. -/
theorem perm_scans (h : p.Embodies ts) {scans : InputScans} (hscans : p.inputs = some scans) :
    scans.nodes.Perm ((ts.flatMap PlanNode.preorder).filter (·.kind = .scan)) := by
  have hget : ∀ i n, scans.scans.get? i = some n ↔
      n ∈ ts.flatMap PlanNode.preorder ∧ n.kind = .scan ∧ n.id = i := by
    intro i n
    rw [← h.scan_iff i n, hscans]
    rfl
  have hnodup : scans.nodes.Nodup := by
    refine List.Nodup.of_map PlanNode.id ?_
    unfold InputScans.nodes
    rw [SortedMap.map_values_eq_keys fun i n hn => ((hget i n).1 hn).2.2]
    exact scans.scans.nodup_keys
  refine (List.perm_ext_iff_of_nodup hnodup (h.nodup_preorder.filter _)).2 fun n => ?_
  rw [InputScans.nodes, SortedMap.mem_values_iff, List.mem_filter]
  simp [hget]

section Nodes

variable (hp : p.Embodies ts) (hq : q.Embodies us)
  (hnodes : List.Forall₂ (fun a b => a.sameContent b = true)
    (ts.flatMap PlanNode.preorder) (us.flatMap PlanNode.preorder))

include hnodes

/-- Nodes that agree one by one are of the same kinds. -/
theorem map_kind_eq : (ts.flatMap PlanNode.preorder).map PlanNode.kind =
    (us.flatMap PlanNode.preorder).map PlanNode.kind := by
  rw [← List.forall₂_eq_eq_eq, List.forall₂_map_left_iff, List.forall₂_map_right_iff]
  exact hnodes.imp fun _ _ h => PlanNode.kind_eq_of_sameContent h

/-- Trees of the same content have nodes of the same kinds. -/
theorem exists_kind_iff (kind : NodeKind) :
    (∃ n ∈ ts.flatMap PlanNode.preorder, n.kind = kind) ↔
      ∃ n ∈ us.flatMap PlanNode.preorder, n.kind = kind := by
  rw [← List.mem_map, ← List.mem_map, map_kind_eq hnodes]

include hp hq

theorem hasJoin_eq : p.hasJoin = q.hasJoin := by
  rw [Bool.eq_iff_iff, hp.hasJoin_iff, hq.hasJoin_iff]
  exact exists_kind_iff hnodes .join

theorem hasUnion_eq : p.hasUnion = q.hasUnion := by
  rw [Bool.eq_iff_iff, hp.hasUnion_iff, hq.hasUnion_iff]
  exact exists_kind_iff hnodes .union

theorem inputs_eq_none_congr : p.inputs = none ↔ q.inputs = none := by
  have hscan := exists_kind_iff hnodes .scan
  rw [hp.inputs_eq_none_iff, hq.inputs_eq_none_iff]
  constructor
  · intro hnone n hn hkind
    obtain ⟨m, hm, hmkind⟩ := hscan.2 ⟨n, hn, hkind⟩
    exact hnone m hm hmkind
  · intro hnone n hn hkind
    obtain ⟨m, hm, hmkind⟩ := hscan.1 ⟨n, hn, hkind⟩
    exact hnone m hm hmkind

/-- The scans among nodes that agree one by one are paired up. -/
theorem sameInputs_of_forall₂ :
    agreesOption CompareMode.content.sameInputs p.inputs q.inputs = true := by
  have hnone := hp.inputs_eq_none_congr hq hnodes
  cases hpi : p.inputs with
  | none => simp [hnone.1 hpi, agreesOption]
  | some s =>
    cases hqi : q.inputs with
    | none => simp [hnone.2 hqi] at hpi
    | some r =>
      have hfilter : List.Forall₂ (fun a b => a.sameContent b = true)
          ((ts.flatMap PlanNode.preorder).filter (·.kind = .scan))
          ((us.flatMap PlanNode.preorder).filter (·.kind = .scan)) := by
        refine List.rel_filter ?_ (hnodes.imp fun _ _ h => h)
        intro a b hab
        simp [PlanNode.kind_eq_of_sameContent hab]
      obtain ⟨cs, hagree, hperm⟩ := List.perm_comp_forall₂ (hp.perm_scans hpi) hfilter
      have hr : cs.Perm r.nodes := hperm.trans (hq.perm_scans hqi).symm
      exact InputScans.sameContent_iff_paired.2 ⟨cs, hagree, hr⟩

end Nodes

/-! ## Graphs and trees -/

/-- Graphs of trees have the same content if and only if the trees have, one by one. -/
theorem sameStructure_iff (hp : p.Embodies ts) (hq : q.Embodies us)
    (hpTop : p.topLevelIds = ts.map PlanNode.id) (hqTop : q.topLevelIds = us.map PlanNode.id)
    (hterminal : p.terminal.sameContent q.terminal = true) :
    sameStructure .content p q = true ↔
      List.Forall₂ (fun t u => t.sameTree u = true) ts us := by
  have htop : agreesAll (sameBelow .content p q (p.vertexCount + 1)) p.topLevelIds
      q.topLevelIds = agreesAll PlanNode.sameTree ts us := by
    rw [hpTop, hqTop]
    exact hp.agreesAll_sameBelow_eq hq
  rw [← agreesAll_eq_true_iff, ← htop]
  constructor
  · intro h
    unfold sameStructure at h
    rw [Bool.and_eq_true] at h
    exact h.2
  · intro h
    have htrees : List.Forall₂ (fun t u => t.sameTree u = true) ts us := by
      rw [htop] at h
      exact agreesAll_eq_true_iff.1 h
    have hnodes : List.Forall₂ (fun a b => a.sameContent b = true)
        (ts.flatMap PlanNode.preorder) (us.flatMap PlanNode.preorder) :=
      List.rel_flatMap htrees fun _ _ hsame => PlanNode.forall₂_preorder hsame
    have hinputs := hp.sameInputs_of_forall₂ hq hnodes
    unfold sameStructure
    rw [hp.hasJoin_eq hq hnodes, hp.hasUnion_eq hq hnodes, hinputs, h]
    simp [CompareMode.sameNode, hterminal]

end Embodies

/-! ## Plans that were built once -/

section BuildOnce

variable {config config' : PlannerConfig} {supply supply' : IdSupply}
  {trees trees' : List PlanNode}

/-- A plan that was built once, without a failure, has the graph of its trees, which are
found by ascending root. -/
theorem embodies_buildOnce (hnone : (buildOnce config supply trees).failure = none) :
    (buildOnce config supply trees).plan.Embodies (byRoot (trees.map unwrapRoot)) ∧
      (buildOnce config supply trees).plan.topLevelIds =
        (byRoot (trees.map unwrapRoot)).map PlanNode.id ∧
      (buildOnce config supply trees).plan.terminal = newTerminal supply := by
  have hnew : (create config supply).1.Accounted [] :=
    Accounted.ofTerminal config (newTerminal supply)
  obtain ⟨vs, hregistered⟩ := hnew.run (trees.map Call.register)
  obtain ⟨ts, hbuild⟩ := hregistered.build
  have hbuilt : (buildOnce config supply trees).plan.built = true :=
    hregistered.captured.built_of_failure_eq_none hnone
  have hregister : (create config supply).1.run (trees.map Call.register) =
      ofTrees config (newTerminal supply) (trees.map unwrapRoot) :=
    run_register_ofTerminal config (newTerminal supply) trees
  have hfragments : (buildOnce config supply trees).plan.fragments =
      captureAll (trees.map unwrapRoot) := by
    have hkept := hregistered.captured.fragments_build
    rw [hregister] at hkept
    rw [buildOnce_eq]
    exact hkept
  have hperm : ts.Perm (byRoot (trees.map unwrapRoot)) := by
    rw [← registeredTrees_eq_byRoot hfragments]
    exact hbuild.perm_registeredTrees hbuilt
  have hembodies := hbuild.embodies.perm hperm
  refine ⟨hembodies, ?_, ?_⟩
  · exact ids_eq_of_ascending (hbuild.ascending hbuilt) (pairwise_byRoot _) fun _ =>
      hembodies.topLevel_perm.mem_iff
  · rw [buildOnce, hregistered.captured.build_config_terminal.2, hregister]
    rfl

/-- Two plans, each made from its own trees and built once without a failure, have the same
content if and only if they have as many trees and these, by ascending root, have the same
content one by one.  A tree that was replaced by another with the same root is none of
them. -/
theorem sameStructure_buildOnce_iff (h : (buildOnce config supply trees).failure = none)
    (h' : (buildOnce config' supply' trees').failure = none) :
    sameStructure .content (buildOnce config supply trees).plan
        (buildOnce config' supply' trees').plan = true ↔
      List.Forall₂ (fun t u => t.sameTree u = true) (byRoot (trees.map unwrapRoot))
        (byRoot (trees'.map unwrapRoot)) := by
  obtain ⟨hp, hpTop, hpTerminal⟩ := embodies_buildOnce h
  obtain ⟨hq, hqTop, hqTerminal⟩ := embodies_buildOnce h'
  refine hp.sameStructure_iff hq hpTop hqTop ?_
  rw [hpTerminal, hqTerminal]
  rfl

end BuildOnce

/-- The trees of a plan with other identifiers, registered the other way round. -/
def renumbered : List PlanNode :=
  [.unary 20 ⟨[]⟩ (.tableSubQuery "q") (some (.leaf 21 ⟨[]⟩ (.exprs []))),
    .binary 12 ⟨[]⟩ (.join .inner none) (some (.leaf 11 ⟨[]⟩ (.scan "a" none)))
      (some (.leaf 10 ⟨[]⟩ (.scan "b" none)))]

/-- Neither identifiers nor the order of registration show. -/
theorem sameStructure_buildOnce_iff_renumbered :
    (buildOnce .standard ⟨7⟩ joinAndSubQuery).failure = none ∧
      (buildOnce .standard ⟨0⟩ renumbered).failure = none ∧
      sameStructure .content (buildOnce .standard ⟨7⟩ joinAndSubQuery).plan
        (buildOnce .standard ⟨0⟩ renumbered).plan = true := by
  have hfirst : (buildOnce .standard ⟨7⟩ joinAndSubQuery).failure = none := by decide +kernel
  have hsecond : (buildOnce .standard ⟨0⟩ renumbered).failure = none := by decide +kernel
  have htrees : agreesAll PlanNode.sameTree (byRoot (joinAndSubQuery.map unwrapRoot))
      (byRoot (renumbered.map unwrapRoot)) = true := by decide
  refine ⟨hfirst, hsecond, ?_⟩
  exact (sameStructure_buildOnce_iff hfirst hsecond).2 (agreesAll_eq_true_iff.1 htrees)

end Plan

end QueryGraph
