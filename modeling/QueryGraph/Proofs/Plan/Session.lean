import QueryGraph.Node.Construction
import QueryGraph.Proofs.Plan.FailedBuild
import QueryGraph.Proofs.Plan.Registered
import QueryGraph.Proofs.Wire.RoundTrip

/-!
# Planning sessions

In a session one supply serves all nodes and all plans.  It starts new or goes on with a
plan that was read back.  A node that becomes the input of another one, or is registered
with a plan, is used up, and a root stands only at the top of what is registered.  Under
this discipline no identifier has two owners, so no build can fail, and every plan is
written to a wire that is accepted.

Main definitions:

- {lit}`UnaryOp.make`, {lit}`BinaryOp.make`, {lit}`Source.make`: the constructor of each
  operator.
- {lit}`Session.Step`, {lit}`Session.Run`: the steps of a session and its course, with the
  number of identifiers drawn.
- {lit}`Plan.Ready`: a plan whose pending trees can all be lowered.
- {lit}`Session.Sound`: every identifier has one owner and has been handed out.

Main results:

- {lit}`Plan.Ready.build`: a build of such a plan does not fail.
- {lit}`Session.Sound.step`: each step keeps every identifier with one owner.
- {lit}`Session.builds_and_decodes`: what holds of all plans of a session at any time.
-/

namespace QueryGraph

/-! ## Constructors -/

/-- What a leaf is made from. -/
inductive Source where
  | scan (table : String) (aliasName : Option String) (schema : Schema)
  | exprs (targets : List Target)

/-- The constructor of a leaf. -/
def Source.make : Source → Planning PlanNode
  | .scan table aliasName schema => PlanNode.scan table aliasName schema
  | .exprs targets => PlanNode.exprs targets

/-- The constructor of an operator with one input. -/
def UnaryOp.make : UnaryOp → PlanNode → Planning PlanNode
  | .root => PlanNode.root
  | .projection targets => PlanNode.projection targets
  | .selection predicate => PlanNode.selection predicate
  | .groupBy keys targets => PlanNode.groupBy keys targets
  | .having predicate => PlanNode.having predicate
  | .sort keys => PlanNode.sort keys
  | .limit count => PlanNode.limit count
  | .tableSubQuery aliasName => PlanNode.tableSubQuery aliasName
  | .createTable table => PlanNode.createTable table
  | .insert table overwrite => PlanNode.insert table overwrite

/-- The constructor of an operator with two inputs. -/
def BinaryOp.make : BinaryOp → PlanNode → PlanNode → Planning PlanNode
  | .join joinType predicate => PlanNode.join joinType predicate
  | .union all => PlanNode.union all
  | .except all => PlanNode.except all
  | .intersect all => PlanNode.intersect all

/-- A leaf gets the next identifier of the supply. -/
theorem Source.make_eq (source : Source) (supply : IdSupply) :
    ∃ schema op, source.make supply = (.leaf supply.next schema op, ⟨supply.next + 1⟩) := by
  cases source <;> exact ⟨_, _, rfl⟩

/-- An operator over one input gets the next identifier, and takes the input as it is. -/
theorem UnaryOp.make_eq (op : UnaryOp) (child : PlanNode) (supply : IdSupply) :
    ∃ schema, op.make child supply =
      (.unary supply.next schema op (some child), ⟨supply.next + 1⟩) := by
  cases op <;> exact ⟨_, rfl⟩

/-- An operator over two inputs gets the next identifier. -/
theorem BinaryOp.make_eq (op : BinaryOp) (left right : PlanNode) (supply : IdSupply) :
    ∃ schema, op.make left right supply =
      (.binary supply.next schema op (some left) (some right), ⟨supply.next + 1⟩) := by
  cases op <;> exact ⟨_, rfl⟩

/-- Below a node of kind root there are no identifiers but those of the tree. -/
theorem PlanNode.ids_unwrapRoot_sublist (t : PlanNode) :
    ((Plan.unwrapRoot t).ids).Sublist t.ids := by
  unfold Plan.unwrapRoot
  split
  · exact List.sublist_cons_self _ _
  · exact List.Sublist.refl _

/-! ## Plans that can be built -/

namespace Plan

variable {p q : Plan} {t tree : PlanNode} {i : NodeId} {supply : IdSupply}

/-- No tree is pending twice. -/
theorem Captured.nodup_pendingTrees (h : p.Captured) : p.pendingTrees.Nodup :=
  List.Nodup.of_map PlanNode.id (h.pairwise_pendingTrees.imp UInt64.ne_of_lt)

/-- Whether an identifier is that of a vertex or of a node of a pending tree. -/
def Holds (p : Plan) (i : NodeId) : Prop :=
  p.vertices.contains i = true ∨ i ∈ p.pendingTrees.flatMap PlanNode.ids

/-- A plan whose pending trees can all be lowered. -/
structure Ready (p : Plan) : Prop where
  wellFormed : p.WellFormed
  lowered_vertices : ∀ root, p.isLowered root = true → p.vertices.contains root = true
  compatible : Compatible p.terminal.id p.pendingTrees
  free : ∀ i ∈ p.pendingTrees.flatMap PlanNode.ids, p.vertices.contains i = false

/-- A plan without fragments is ready. -/
theorem Ready.of_fragments_eq_empty (h : p.WellFormed) (hfragments : p.fragments = .empty)
    (hlowered : p.lowered = .empty) : p.Ready ∧ ∀ i, p.Holds i ↔ p.vertices.contains i = true := by
  have hnone : p.pendingTrees = [] := by
    unfold pendingTrees pending
    rw [hfragments]
    rfl
  refine ⟨⟨h, fun root hroot => ?_, ?_, ?_⟩, fun i => ?_⟩
  · rw [isLowered, hlowered] at hroot
    exact Bool.noConfusion hroot
  · rw [hnone]
    exact ⟨by simp, List.nodup_nil, List.not_mem_nil⟩
  · simp [hnone]
  · simp [Holds, hnone]

/-- Registering a tree adds it to what is pending, if its root is new. -/
theorem Captured.perm_pendingTrees_register (h : p.Captured)
    (hlowered : p.isLowered (unwrapRoot tree).id = false)
    (hpending : (unwrapRoot tree).id ∉ p.pendingTrees.map PlanNode.id) :
    (p.register tree).2.pendingTrees.Perm (unwrapRoot tree :: p.pendingTrees) := by
  rw [register_of_not_isLowered hlowered]
  have hcaptured : Captured { p with
      fragments := p.fragments.insert (unwrapRoot tree).id (Fragment.capture (unwrapRoot tree))
      built := false } := h.insert rfl
  refine (List.perm_ext_iff_of_nodup hcaptured.nodup_pendingTrees
    (List.nodup_cons.2 ⟨?_, h.nodup_pendingTrees⟩)).2 fun t => ?_
  · exact fun hmem => hpending (List.mem_map_of_mem hmem)
  · rw [hcaptured.mem_pendingTrees_iff, List.mem_cons, h.mem_pendingTrees_iff]
    change (p.fragments.insert _ _).get? t.id = _ ∧ p.isLowered t.id = false ↔ _
    rw [SortedMap.get?_insert]
    by_cases hid : (unwrapRoot tree).id = t.id
    · have hnot : t ∉ p.pendingTrees := fun hmem => hpending (hid ▸ List.mem_map_of_mem hmem)
      rw [h.mem_pendingTrees_iff] at hnot
      rw [if_pos hid, Option.some.injEq, or_iff_left hnot, ← hid]
      constructor
      · exact fun hcase => (Fragment.capture_injective hcase.1).symm
      · rintro rfl
        exact ⟨rfl, hlowered⟩
    · have hne : t ≠ unwrapRoot tree := fun heq => hid (heq ▸ rfl)
      rw [if_neg hid, or_iff_right hne]

namespace Ready

/-- A tree whose identifiers are new and which has no root inside can be registered. -/
theorem register (h : p.Ready) (hkind : ∀ n ∈ (unwrapRoot tree).preorder, n.kind ≠ .root)
    (hnodup : (unwrapRoot tree).ids.Nodup) (hnew : ∀ i ∈ (unwrapRoot tree).ids, ¬p.Holds i) :
    (p.register tree).2.Ready ∧
      ∀ i, (p.register tree).2.Holds i ↔ p.Holds i ∨ i ∈ (unwrapRoot tree).ids := by
  have htop : (unwrapRoot tree).id ∈ (unwrapRoot tree).ids := PlanNode.root_id_mem_ids _
  have hlowered : p.isLowered (unwrapRoot tree).id = false := by
    by_contra hroot
    rw [Bool.not_eq_false] at hroot
    exact hnew _ htop (.inl (h.lowered_vertices _ hroot))
  have hpending : (unwrapRoot tree).id ∉ p.pendingTrees.map PlanNode.id := by
    intro hmem
    rcases List.mem_map.1 hmem with ⟨t, ht, hid⟩
    exact hnew _ htop (.inr (List.mem_flatMap.2 ⟨t, ht, hid ▸ t.root_id_mem_ids⟩))
  have hperm := h.wellFormed.captured.perm_pendingTrees_register hlowered hpending
  have hids : ∀ i, i ∈ (p.register tree).2.pendingTrees.flatMap PlanNode.ids ↔
      i ∈ (unwrapRoot tree).ids ∨ i ∈ p.pendingTrees.flatMap PlanNode.ids := fun i => by
    rw [(hperm.flatMap_right _).mem_iff, List.flatMap_cons, List.mem_append]
  have hvertices : (p.register tree).2.vertices = p.vertices := by
    rw [register_of_not_isLowered hlowered]
  have hterminal : (p.register tree).2.terminal = p.terminal := by
    rw [register_of_not_isLowered hlowered]
  have hcompatible : Compatible p.terminal.id (unwrapRoot tree :: p.pendingTrees) :=
    { kind_ne_root := by
        rw [List.flatMap_cons, List.forall_mem_append]
        exact ⟨hkind, h.compatible.kind_ne_root⟩
      nodup_ids := by
        rw [List.flatMap_cons, List.nodup_append']
        exact ⟨hnodup, h.compatible.nodup_ids, fun i hi hmem => hnew i hi (.inr hmem)⟩
      terminal_notMem := by
        rw [List.flatMap_cons, List.mem_append, not_or]
        refine ⟨fun hmem => ?_, h.compatible.terminal_notMem⟩
        exact hnew _ hmem (.inl h.wellFormed.terminal_contained) }
  refine ⟨⟨h.wellFormed.register tree, ?_, ?_, ?_⟩, fun i => ?_⟩
  · rw [register_of_not_isLowered hlowered]
    exact h.lowered_vertices
  · rw [hterminal]
    exact hcompatible.perm hperm.symm
  · intro i hi
    rw [hvertices]
    rcases (hids i).1 hi with hi | hi
    · rw [← Bool.not_eq_true]
      exact fun hused => hnew i hi (.inl hused)
    · exact h.free i hi
  · rw [Holds, Holds, hids, hvertices, or_assoc, or_comm (a := i ∈ p.pendingTrees.flatMap _)]

/-- A build of such a plan does not fail, and moves what is pending to the graph. -/
theorem build (h : p.Ready) :
    p.build.failure = none ∧ p.build.plan.Ready ∧ ∀ i, p.build.plan.Holds i ↔ p.Holds i := by
  cases hbuilt : p.built with
  | true =>
    rw [build_of_built hbuilt]
    exact ⟨rfl, h, fun i => Iff.rfl⟩
  | false =>
    have hcaptured := h.wellFormed.captured
    have hall : p.AdmitsAll p.pendingTrees := h.compatible.admitsAll h.free
    have hplan : p.build.plan = (p.commitTrees p.pendingTrees).finish :=
      ((hcaptured.lowersTo_build hbuilt).unique hall.lowersTo).1
    have hnone : p.build.plan.pendingTrees = [] := by
      rw [hplan]
      exact hcaptured.pendingTrees_commitTrees (List.append_nil _).symm
    have hvertices : ∀ i, p.build.plan.vertices.contains i = true ↔ p.Holds i := fun i => by
      rw [hplan, Holds, List.mem_flatMap]
      exact contains_vertices_commitTrees hall
    refine ⟨hcaptured.failure_of_admitsAll hbuilt hall,
      ⟨h.wellFormed.build, fun root hroot => ?_, ?_, ?_⟩, fun i => ?_⟩
    · rw [hplan] at hroot
      rcases (isLowered_commitTrees p p.pendingTrees root).1 hroot with hold | hmem
      · exact (hvertices root).2 (.inl (h.lowered_vertices root hold))
      · rcases List.mem_map.1 hmem with ⟨t, ht, rfl⟩
        exact (hvertices _).2 (.inr (List.mem_flatMap.2 ⟨t, ht, t.root_id_mem_ids⟩))
    · rw [hnone]
      exact ⟨by simp, List.nodup_nil, List.not_mem_nil⟩
    · simp [hnone]
    · rw [← hvertices i, Holds, hnone]
      simp

end Ready

end Plan

/-! ## Sessions -/

/-- A planning session: the supply of its identifiers, the nodes that have been made and
not been used up, and its plans. -/
structure Session where
  config : PlannerConfig
  supply : IdSupply
  nodes : List PlanNode
  plans : List Plan

namespace Session

/-- A new session. -/
def start (config : PlannerConfig) (supply : IdSupply) : Session :=
  ⟨config, supply, [], []⟩

/-- A session that goes on with a plan and the supply of its identifiers. -/
def resume (config : PlannerConfig) (supply : IdSupply) (p : Plan) : Session :=
  ⟨config, supply, [], [p]⟩

/-- Makes a node while some others are left. -/
def make (s : Session) (construct : Planning PlanNode) (rest : List PlanNode) : Session :=
  { s with supply := (construct s.supply).2, nodes := (construct s.supply).1 :: rest }

/-- The steps of a session, with the number of identifiers that they draw.  Inputs are
taken from the nodes that are there, in any order, and are no roots. -/
inductive Step : Session → Nat → Session → Prop
  | leaf (s : Session) (source : Source) : Step s 1 (s.make source.make s.nodes)
  | unary {s : Session} {child : PlanNode} {rest : List PlanNode} (op : UnaryOp)
      (taken : s.nodes.Perm (child :: rest)) (below : child.kind ≠ .root) :
      Step s 1 (s.make (op.make child) rest)
  | binary {s : Session} {left right : PlanNode} {rest : List PlanNode} (op : BinaryOp)
      (taken : s.nodes.Perm (left :: right :: rest)) (below_left : left.kind ≠ .root)
      (below_right : right.kind ≠ .root) : Step s 1 (s.make (op.make left right) rest)
  | newPlan (s : Session) :
      Step s 1
        { s with
          supply := (Plan.create s.config s.supply).2
          plans := s.plans ++ [(Plan.create s.config s.supply).1] }
  | register {s : Session} {tree : PlanNode} {rest : List PlanNode} {before after : List Plan}
      {p : Plan} (taken : s.nodes.Perm (tree :: rest)) (found : s.plans = before ++ p :: after) :
      Step s 0 { s with nodes := rest, plans := before ++ (p.register tree).2 :: after }
  | build {s : Session} {before after : List Plan} {p : Plan}
      (found : s.plans = before ++ p :: after) :
      Step s 0 { s with plans := before ++ p.build.plan :: after }

/-- The course of a session, with the number of identifiers drawn. -/
inductive Run (first : Session) : Nat → Session → Prop
  | refl : Run first 0 first
  | step {m n : Nat} {s s' : Session} (run : Run first m s) (next : Step s n s') :
      Run first (m + n) s'

/-- Every identifier has been handed out and has one owner: a node that is there, or a
plan. -/
structure Sound (s : Session) : Prop where
  nodup_ids : (s.nodes.flatMap PlanNode.ids).Nodup
  issued_nodes : ∀ i ∈ s.nodes.flatMap PlanNode.ids, i < s.supply.next
  roots_on_top : ∀ t ∈ s.nodes, ∀ n ∈ (Plan.unwrapRoot t).preorder, n.kind ≠ .root
  ready : ∀ p ∈ s.plans, p.Ready
  issued_plans : ∀ p ∈ s.plans, ∀ i, p.Holds i → i < s.supply.next
  apart : ∀ p ∈ s.plans, ∀ i ∈ s.nodes.flatMap PlanNode.ids, ¬p.Holds i

variable {s s' : Session} {t : PlanNode} {config : PlannerConfig} {supply : IdSupply} {p : Plan}

/-! ### Beginnings -/

theorem sound_start (config : PlannerConfig) (supply : IdSupply) : (start config supply).Sound where
  nodup_ids := List.nodup_nil
  issued_nodes := by simp [start]
  roots_on_top := by simp [start]
  ready := by simp [start]
  issued_plans := by simp [start]
  apart := by simp [start]

/-- The supply of a plan that was read back has handed out its identifiers. -/
theorem sound_resume {w : Wire} {reader : PlannerConfig} (h : w.toPlan reader = .ok (p, supply))
    (config : PlannerConfig) : (resume config supply p).Sound := by
  have hwell := Wire.wellFormed_of_toPlan h
  obtain ⟨hchecked, -, -, rfl, rfl⟩ := Wire.toPlan_eq_ok_iff.1 h
  obtain ⟨hready, hholds⟩ := Plan.Ready.of_fragments_eq_empty hwell rfl rfl
  have hissued : ∀ i, (w.assemble reader w.rebuilt).Holds i → i < w.supplyState := by
    intro i hi
    rw [hholds, hchecked.contains_vertices_assemble_iff, Wire.knows_iff] at hi
    rcases hi with rfl | hi
    · exact hchecked.terminal_issued
    · rcases SortedMap.contains_iff.1 hi with ⟨n, hn⟩
      exact hchecked.vertex_issued i n hn
  exact
    { nodup_ids := List.nodup_nil
      issued_nodes := by simp [resume]
      roots_on_top := by simp [resume]
      ready := by simpa [resume] using hready
      issued_plans := by simpa [resume] using hissued
      apart := by simp [resume] }

/-! ### Making nodes -/

/-- The next identifier is greater by one as long as the supply does not wrap. -/
theorem toNat_next_add_one {n : NodeId} (hroom : n.toNat + 1 < UInt64.size) :
    (n + 1).toNat = n.toNat + 1 := by
  rw [UInt64.toNat_add, UInt64.toNat_one]
  exact Nat.mod_eq_of_lt hroom

theorem lt_next {n : NodeId} (hroom : n.toNat + 1 < UInt64.size) : n < n + 1 := by
  rw [UInt64.lt_iff_toNat_lt, toNat_next_add_one hroom]
  exact Nat.lt_succ_self _

/-- A node that may be an input has no root at all. -/
theorem Sound.kind_ne_root (h : s.Sound) {c : PlanNode} (hc : c ∈ s.nodes)
    (below : c.kind ≠ .root) : ∀ n ∈ c.preorder, n.kind ≠ .root := by
  have htop := h.roots_on_top c hc
  rwa [PlanNode.unwrapRoot_of_kind_ne_root below] at htop

/-- A new node takes over the identifiers of its inputs and adds one that nothing has. -/
theorem Sound.make (h : s.Sound) (hroom : s.supply.next.toNat + 1 < UInt64.size)
    {construct : Planning PlanNode} {n : PlanNode} {used rest : List PlanNode}
    (hmake : construct s.supply = (n, ⟨s.supply.next + 1⟩)) (taken : s.nodes.Perm (used ++ rest))
    (hids : n.ids = s.supply.next :: used.flatMap PlanNode.ids)
    (hroots : ∀ m ∈ (Plan.unwrapRoot n).preorder, m.kind ≠ .root) :
    (s.make construct rest).Sound := by
  have hperm : ((n :: rest).flatMap PlanNode.ids).Perm
      (s.supply.next :: s.nodes.flatMap PlanNode.ids) := by
    rw [List.flatMap_cons, hids, List.cons_append, ← List.flatMap_append]
    exact (taken.symm.flatMap_right _).cons _
  have hnew : s.supply.next ∉ s.nodes.flatMap PlanNode.ids := fun hmem =>
    UInt64.lt_irrefl _ (h.issued_nodes _ hmem)
  have hlt := lt_next hroom
  have hmade : s.make construct rest =
      { s with supply := ⟨s.supply.next + 1⟩, nodes := n :: rest } := by
    unfold Session.make
    rw [hmake]
  rw [hmade]
  exact
    { nodup_ids := hperm.nodup_iff.2 (List.nodup_cons.2 ⟨hnew, h.nodup_ids⟩)
      issued_nodes := by
        intro i hi
        rcases List.mem_cons.1 (hperm.mem_iff.1 hi) with rfl | hi
        · exact hlt
        · exact UInt64.lt_trans (h.issued_nodes i hi) hlt
      roots_on_top := by
        intro t ht
        rcases List.mem_cons.1 ht with rfl | ht
        · exact hroots
        · exact h.roots_on_top t (taken.mem_iff.2 (List.mem_append_right used ht))
      ready := h.ready
      issued_plans := fun p hp i hi => UInt64.lt_trans (h.issued_plans p hp i hi) hlt
      apart := by
        intro p hp i hi
        rcases List.mem_cons.1 (hperm.mem_iff.1 hi) with rfl | hi
        · exact fun hholds => UInt64.lt_irrefl _ (h.issued_plans p hp _ hholds)
        · exact h.apart p hp i hi }

/-- Making a leaf keeps a session sound. -/
theorem Sound.leaf (h : s.Sound) (hroom : s.supply.next.toNat + 1 < UInt64.size) (source : Source) :
    (s.make source.make s.nodes).Sound := by
  rcases source.make_eq s.supply with ⟨schema, op, hmake⟩
  have taken : s.nodes.Perm ([] ++ s.nodes) := List.Perm.refl _
  refine h.make hroom hmake taken rfl ?_
  intro m hm
  rw [List.mem_singleton.1 hm]
  cases op <;> exact nofun

/-- Making an operator keeps a session sound: the operator owns its input from then on. -/
theorem Sound.unary (h : s.Sound) (hroom : s.supply.next.toNat + 1 < UInt64.size) (op : UnaryOp)
    {child : PlanNode} {rest : List PlanNode} (taken : s.nodes.Perm (child :: rest))
    (below : child.kind ≠ .root) : (s.make (op.make child) rest).Sound := by
  rcases op.make_eq child s.supply with ⟨schema, hmake⟩
  have hchild : ∀ n ∈ child.preorder, n.kind ≠ .root :=
    h.kind_ne_root (taken.mem_iff.2 List.mem_cons_self) below
  have taken : s.nodes.Perm ([child] ++ rest) := taken
  refine h.make hroom hmake taken (by rw [PlanNode.ids_eq]; rfl) ?_
  cases op with
  | root => exact hchild
  | _ => exact List.forall_mem_cons.2 ⟨nofun, hchild⟩

/-- Making an operator over two inputs keeps a session sound if both are there, side by side. -/
theorem Sound.binary (h : s.Sound) (hroom : s.supply.next.toNat + 1 < UInt64.size) (op : BinaryOp)
    {left right : PlanNode} {rest : List PlanNode} (taken : s.nodes.Perm (left :: right :: rest))
    (below_left : left.kind ≠ .root) (below_right : right.kind ≠ .root) :
    (s.make (op.make left right) rest).Sound := by
  rcases op.make_eq left right s.supply with ⟨schema, hmake⟩
  have hleft : ∀ n ∈ left.preorder, n.kind ≠ .root :=
    h.kind_ne_root (taken.mem_iff.2 (by simp)) below_left
  have hright : ∀ n ∈ right.preorder, n.kind ≠ .root :=
    h.kind_ne_root (taken.mem_iff.2 (by simp)) below_right
  have taken : s.nodes.Perm ([left, right] ++ rest) := taken
  refine h.make hroom hmake taken (by rw [PlanNode.ids_eq]; rfl) ?_
  refine List.forall_mem_cons.2 ⟨?_, List.forall_mem_append.2 ⟨hleft, hright⟩⟩
  cases op <;> exact nofun

/-! ### Changing plans -/

/-- A new plan owns the identifier of its terminal. -/
theorem Sound.newPlan (h : s.Sound) (hroom : s.supply.next.toNat + 1 < UInt64.size) :
    Sound
      { s with
        supply := (Plan.create s.config s.supply).2
        plans := s.plans ++ [(Plan.create s.config s.supply).1] } := by
  have hlt := lt_next hroom
  have hwell := Plan.WellFormed.create s.config s.supply
  obtain ⟨hready, hholds⟩ := Plan.Ready.of_fragments_eq_empty hwell rfl rfl
  have hterminal : ∀ i, (Plan.create s.config s.supply).1.Holds i → i = s.supply.next := by
    intro i hi
    rcases SortedMap.contains_iff.1 ((hholds i).1 hi) with ⟨n, hn⟩
    change (SortedMap.empty.insert s.supply.next _).get? i = some n at hn
    rw [SortedMap.get?_insert] at hn
    by_contra hne
    rw [if_neg (Ne.symm hne)] at hn
    contradiction
  exact
    { nodup_ids := h.nodup_ids
      issued_nodes := fun i hi => UInt64.lt_trans (h.issued_nodes i hi) hlt
      roots_on_top := h.roots_on_top
      ready := by
        intro p hp
        rcases List.mem_append.1 hp with hp | hp
        · exact h.ready p hp
        · rw [List.mem_singleton.1 hp]
          exact hready
      issued_plans := by
        intro p hp i hi
        rcases List.mem_append.1 hp with hp | hp
        · exact UInt64.lt_trans (h.issued_plans p hp i hi) hlt
        · rw [List.mem_singleton.1 hp] at hi
          rw [hterminal i hi]
          exact hlt
      apart := by
        intro p hp i hi
        rcases List.mem_append.1 hp with hp | hp
        · exact h.apart p hp i hi
        · rw [List.mem_singleton.1 hp]
          intro hheld
          rw [hterminal i hheld] at hi
          exact UInt64.lt_irrefl _ (h.issued_nodes _ hi) }

/-- One of the plans may be replaced by one that owns no more than it and some nodes that
are used up. -/
theorem Sound.replace (h : s.Sound) {before after : List Plan} {p q : Plan}
    (found : s.plans = before ++ p :: after) {used rest : List PlanNode}
    (taken : s.nodes.Perm (used ++ rest)) (hready : q.Ready)
    (hholds : ∀ i, q.Holds i → p.Holds i ∨ i ∈ used.flatMap PlanNode.ids) :
    Sound { s with nodes := rest, plans := before ++ q :: after } := by
  have hperm : (s.nodes.flatMap PlanNode.ids).Perm
      (used.flatMap PlanNode.ids ++ rest.flatMap PlanNode.ids) := by
    rw [← List.flatMap_append]
    exact taken.flatMap_right _
  have hnodup := List.nodup_append'.1 (hperm.nodup_iff.1 h.nodup_ids)
  have hmem : ∀ r ∈ before ++ q :: after, r = q ∨ r ∈ s.plans := by
    intro r hr
    rw [found]
    simp only [List.mem_append, List.mem_cons] at hr ⊢
    tauto
  have hp : p ∈ s.plans := found ▸ List.mem_append_right before List.mem_cons_self
  have hused : ∀ i ∈ used.flatMap PlanNode.ids, i ∈ s.nodes.flatMap PlanNode.ids := fun i hi =>
    hperm.mem_iff.2 (List.mem_append_left _ hi)
  have hrest : ∀ i ∈ rest.flatMap PlanNode.ids, i ∈ s.nodes.flatMap PlanNode.ids := fun i hi =>
    hperm.mem_iff.2 (List.mem_append_right _ hi)
  exact
    { nodup_ids := hnodup.2.1
      issued_nodes := fun i hi => h.issued_nodes i (hrest i hi)
      roots_on_top := fun t ht =>
        h.roots_on_top t (taken.mem_iff.2 (List.mem_append_right used ht))
      ready := by
        intro r hr
        rcases hmem r hr with rfl | hr
        · exact hready
        · exact h.ready r hr
      issued_plans := by
        intro r hr i hi
        rcases hmem r hr with rfl | hr
        · rcases hholds i hi with hi | hi
          · exact h.issued_plans p hp i hi
          · exact h.issued_nodes i (hused i hi)
        · exact h.issued_plans r hr i hi
      apart := by
        intro r hr i hi
        rcases hmem r hr with rfl | hr
        · intro hheld
          rcases hholds i hheld with hheld | hheld
          · exact h.apart p hp i (hrest i hi) hheld
          · exact hnodup.2.2 hheld hi
        · exact h.apart r hr i (hrest i hi) }

/-- Registering a node hands its identifiers over to the plan. -/
theorem Sound.register (h : s.Sound) {before after : List Plan} {p : Plan} {tree : PlanNode}
    {rest : List PlanNode} (taken : s.nodes.Perm (tree :: rest))
    (found : s.plans = before ++ p :: after) :
    Sound { s with nodes := rest, plans := before ++ (p.register tree).2 :: after } := by
  have htree : tree ∈ s.nodes := taken.mem_iff.2 List.mem_cons_self
  have hp : p ∈ s.plans := found ▸ List.mem_append_right before List.mem_cons_self
  have hsublist : ((Plan.unwrapRoot tree).ids).Sublist tree.ids := tree.ids_unwrapRoot_sublist
  have hids : tree.ids.Sublist (s.nodes.flatMap PlanNode.ids) :=
    List.sublist_flatten_of_mem (List.mem_map_of_mem htree)
  obtain ⟨hready, hholds⟩ := (h.ready p hp).register (h.roots_on_top tree htree)
    (h.nodup_ids.sublist (hsublist.trans hids))
    fun i hi => h.apart p hp i ((hsublist.trans hids).subset hi)
  have taken : s.nodes.Perm ([tree] ++ rest) := taken
  refine h.replace found taken hready fun i hi => ?_
  refine ((hholds i).1 hi).imp_right fun hi => ?_
  rw [List.flatMap_singleton]
  exact hsublist.subset hi

/-- A build turns pending nodes into vertices, with the same plan as their owner. -/
theorem Sound.build (h : s.Sound) {before after : List Plan} {p : Plan}
    (found : s.plans = before ++ p :: after) :
    Sound { s with plans := before ++ p.build.plan :: after } := by
  have hp : p ∈ s.plans := found ▸ List.mem_append_right before List.mem_cons_self
  obtain ⟨-, hready, hholds⟩ := (h.ready p hp).build
  have taken : s.nodes.Perm ([] ++ s.nodes) := List.Perm.refl _
  exact h.replace found taken hready fun i hi => .inl ((hholds i).1 hi)

/-! ### Steps and courses -/

/-- A step moves the supply on by the identifiers that it draws. -/
theorem Step.toNat_next {n : Nat} (hstep : Step s n s')
    (hroom : s.supply.next.toNat + n < UInt64.size) :
    s'.supply.next.toNat = s.supply.next.toNat + n := by
  cases hstep with
  | leaf source =>
    rcases source.make_eq s.supply with ⟨schema, op, hmake⟩
    rw [make, hmake]
    exact toNat_next_add_one hroom
  | @unary child rest op =>
    rcases op.make_eq child s.supply with ⟨schema, hmake⟩
    rw [make, hmake]
    exact toNat_next_add_one hroom
  | @binary left right rest op =>
    rcases op.make_eq left right s.supply with ⟨schema, hmake⟩
    rw [make, hmake]
    exact toNat_next_add_one hroom
  | newPlan => exact toNat_next_add_one hroom
  | register => rfl
  | build => rfl

/-- Each step keeps every identifier with one owner. -/
theorem Sound.step {n : Nat} (h : s.Sound) (hstep : Step s n s')
    (hroom : s.supply.next.toNat + n < UInt64.size) : s'.Sound := by
  cases hstep with
  | leaf source => exact h.leaf hroom source
  | unary op taken below => exact h.unary hroom op taken below
  | binary op taken below_left below_right =>
    exact h.binary hroom op taken below_left below_right
  | newPlan => exact h.newPlan hroom
  | register taken found => exact h.register taken found
  | build found => exact h.build found

/-- As long as the supply does not start over, every course keeps every identifier with one
owner. -/
theorem Sound.run {n : Nat} (h : s.Sound) (hrun : Run s n s')
    (hroom : s.supply.next.toNat + n < UInt64.size) :
    s'.Sound ∧ s'.supply.next.toNat = s.supply.next.toNat + n := by
  induction hrun with
  | refl => exact ⟨h, rfl⟩
  | @step m k u v hrun hstep ih =>
    obtain ⟨hsound, hnext⟩ := ih (by omega)
    have hroom' : u.supply.next.toNat + k < UInt64.size := by omega
    refine ⟨hsound.step hstep hroom', ?_⟩
    rw [hstep.toNat_next hroom', hnext, Nat.add_assoc]

/-- The sessions at their beginning: new ones, and those that go on with a plan that was
read back. -/
inductive Opening : Session → Prop
  | start (config : PlannerConfig) (supply : IdSupply) : Opening (start config supply)
  | resume {w : Wire} {reader : PlannerConfig} {p : Plan} {supply : IdSupply}
      (h : w.toPlan reader = .ok (p, supply)) (config : PlannerConfig) :
      Opening (resume config supply p)

/-- At any time of a session whose supply does not start over, a build of any of its plans
does not fail, all vertices are below the next identifier, and the plan is written to a
wire that is accepted. -/
theorem builds_and_decodes {first : Session} {drawn : Nat} (hfirst : Opening first)
    (hrun : Run first drawn s) (hroom : first.supply.next.toNat + drawn < UInt64.size) :
    ∀ p ∈ s.plans, p.build.failure = none ∧
      (∀ i, p.vertices.contains i = true → i < s.supply.next) ∧
      ∀ reader, ∃ q, (p.toWire s.supply).toPlan reader = .ok (q, s.supply) := by
  have hsound : first.Sound := by
    cases hfirst with
    | start config supply => exact sound_start config supply
    | resume h config => exact sound_resume h config
  have hlast := (hsound.run hrun hroom).1
  intro p hp
  have hissued : ∀ i, p.vertices.contains i = true → i < s.supply.next := fun i hi =>
    hlast.issued_plans p hp i (.inl hi)
  refine ⟨(hlast.ready p hp).build.1, hissued, fun reader => ⟨p.decoded s.supply reader, ?_⟩⟩
  exact (hlast.ready p hp).wellFormed.toPlan_eq_decoded hissued reader

/-- A session that goes on with a plan that was built twice. -/
def resumed : Session :=
  resume .standard ⟨8⟩ (Plan.builtTwice.decoded ⟨8⟩ .standard)

/-- A scan, as it is made there. -/
def newScan : PlanNode :=
  .leaf 8 ⟨[]⟩ (.scan "c" none)

/-- That session after the scan is made, registered with the plan and built. -/
def grown : Session :=
  ⟨.standard, ⟨9⟩, [], [((Plan.builtTwice.decoded ⟨8⟩ .standard).register newScan).2.build.plan]⟩

/-- The session goes on with a plan that was read back, and its new scan is built. -/
theorem builds_and_decodes_grown :
    Opening resumed ∧ Run resumed 1 grown ∧
      ∀ p ∈ grown.plans, p.build.failure = none ∧
        ∃ q, (p.toWire ⟨9⟩).toPlan .standard = .ok (q, ⟨9⟩) := by
  have hdecode := Plan.builtTwice_reachable.wellFormed.toPlan_eq_decoded
    Plan.builtTwice_issued .standard
  have hopening : Opening resumed := .resume hdecode .standard
  have hmade : Run resumed 1 ⟨.standard, ⟨9⟩, [newScan], resumed.plans⟩ :=
    .step .refl (.leaf resumed (.scan "c" none ⟨[]⟩))
  have hrun : Run resumed 1 grown :=
    .step (.step hmade (.register (List.Perm.refl _) (List.nil_append _).symm))
      (.build (List.nil_append _).symm)
  have hall := builds_and_decodes hopening hrun (by decide)
  exact ⟨hopening, hrun, fun p hp => ⟨(hall p hp).1, (hall p hp).2.2 .standard⟩⟩

end Session

end QueryGraph
