import QueryGraph.Proofs.Plan.Alike
import QueryGraph.Proofs.Plan.Reachable
import QueryGraph.Proofs.Plan.ScanPairs
import QueryGraph.Proofs.Plan.Unfolding

/-!
# Comparing plans is comparing their unfoldings

Two plans are compared by walking down from each pair of fragments.  The walk keeps a stack
of pairs of vertices that it still has to visit.  A round takes the pair on top; it ends the
walk where the vertices differ or their children do not correspond, and else puts the pairs
of their children on the stack, the first ones on top.  No vertex is remembered, so one that
is shared is visited once for each path to it.

Every visit leads further down, and no path goes down forever, so the walk comes to an end.
What it finds is whether the trees below the two vertices coincide.

Main definitions:

- {lit}`Plan.walkRound`: a round of the walk.
- {lit}`Plan.WalkEnds`: the walk comes to an end, with a verdict.
- {lit}`Plan.UnfoldsLike`: plans with the same flags and scans and with trees that coincide.

Main results:

- {lit}`Plan.walkEnds_cons`: what a walk finds below the pair on top of the stack.
- {lit}`Plan.Unfolds.sameBelow_iff`: the walk compares unfoldings.
- {lit}`Plan.UnfoldsLike.symm`, {lit}`Plan.UnfoldsLike.trans`: unfolding alike is symmetric and
  transitive.
- {lit}`Plan.sameStructure_iff_unfoldsLike`: the comparison of plans that can come about ends,
  decides whether they unfold alike, and is symmetric and transitive.
-/

namespace QueryGraph

theorem agreesAll_eq_zip {α : Type} (same : α → α → Bool) (as bs : List α) :
    agreesAll same as bs = (as.length == bs.length && (as.zip bs).all fun e => same e.1 e.2) := by
  induction as generalizing bs with
  | nil => cases bs <;> rfl
  | cons a as ih =>
    cases bs with
    | nil => rfl
    | cons b bs => simp [agreesAll, ih, Bool.and_left_comm]

namespace Plan

/-! ## The walk -/

section Walk

variable (mode : CompareMode) (a b : Plan)

/-- Whether two vertices match, and have as many children on edges that match. -/
def matchAt (x y : NodeId) : Bool :=
  agreesOption mode.sameNode (a.vertex? x) (b.vertex? y) && (a.vertex? x).isSome
    && ((a.orderedChildren x).length == (b.orderedChildren y).length
      && ((a.orderedChildren x).zip (b.orderedChildren y)).all fun e =>
        mode.sameEdge e.1.2 e.2.2)

/-- The children of two vertices, pair by pair. -/
def childPairs (x y : NodeId) : List (NodeId × NodeId) :=
  ((a.orderedChildren x).zip (b.orderedChildren y)).map fun e => (e.1.1, e.2.1)

/-- A round of the walk over a stack of pairs: the verdict, or the next stack. -/
def walkRound : List (NodeId × NodeId) → Bool ⊕ List (NodeId × NodeId)
  | [] => .inl true
  | (x, y) :: rest =>
    if matchAt mode a b x y then .inr (childPairs a b x y ++ rest) else .inl false

/-- The walk over a stack of pairs comes to an end, with a verdict. -/
inductive WalkEnds : List (NodeId × NodeId) → Bool → Prop
  | verdict {stack : List (NodeId × NodeId)} {r : Bool}
      (h : walkRound mode a b stack = .inl r) : WalkEnds stack r
  | round {stack next : List (NodeId × NodeId)} {r : Bool}
      (h : walkRound mode a b stack = .inr next) (rest : WalkEnds next r) : WalkEnds stack r

end Walk

variable {mode : CompareMode} {a b c : Plan} {x y : NodeId} {r s : Bool}
  {stack rest pairs : List (NodeId × NodeId)}

/-- A walk has no more than one verdict. -/
theorem WalkEnds.unique (h : WalkEnds mode a b stack r) (h' : WalkEnds mode a b stack s) :
    r = s := by
  induction h with
  | verdict hr =>
    cases h' with
    | verdict hs => exact Sum.inl.inj (hr.symm.trans hs)
    | round hnext _ => rw [hr] at hnext; cases hnext
  | round hnext _ ih =>
    cases h' with
    | verdict hs => rw [hnext] at hs; cases hs
    | round hnext' hrest =>
      obtain rfl := Sum.inr.inj (hnext.symm.trans hnext')
      exact ih hrest

/-- The bounded comparison of two vertices, by what a round looks at. -/
theorem sameBelow_succ (bound : Nat) :
    sameBelow mode a b (bound + 1) x y =
      (matchAt mode a b x y &&
        (childPairs a b x y).all fun e => sameBelow mode a b bound e.1 e.2) := by
  have hsplit : ((a.orderedChildren x).zip (b.orderedChildren y)).all
      (fun e => mode.sameEdge e.1.2 e.2.2 && sameBelow mode a b bound e.1.1 e.2.1) =
        (((a.orderedChildren x).zip (b.orderedChildren y)).all (fun e =>
            mode.sameEdge e.1.2 e.2.2)
          && (childPairs a b x y).all fun e => sameBelow mode a b bound e.1 e.2) := by
    unfold childPairs
    rw [List.all_map]
    induction (a.orderedChildren x).zip (b.orderedChildren y) with
    | nil => rfl
    | cons e es ih => simp [ih, Bool.and_assoc, Bool.and_left_comm]
  rw [sameBelow, agreesAll_eq_zip, hsplit, matchAt]
  simp only [Bool.and_assoc]

/-- Pairs on top of a stack are visited one after the other. -/
theorem walkEnds_append {same : NodeId × NodeId → Bool}
    (hvisit : ∀ e ∈ pairs, ∀ rest r, WalkEnds mode a b rest r →
      WalkEnds mode a b (e :: rest) (same e && r))
    (h : WalkEnds mode a b rest r) :
    WalkEnds mode a b (pairs ++ rest) (pairs.all same && r) := by
  induction pairs with
  | nil => exact h
  | cons e pairs ih =>
    obtain ⟨he, hpairs⟩ := List.forall_mem_cons.1 hvisit
    rw [List.all_cons, Bool.and_assoc]
    exact he _ _ (ih hpairs)

section Ends

variable {rank : NodeId → Nat} (hrank : ∀ c w, a.edges.Leads c w → rank c < rank w)
  (ha : a.edges.Coherent)

include hrank ha

/-- Every pair that a round puts on the stack starts at a vertex of lower rank. -/
theorem rank_childPairs : ∀ e ∈ childPairs a b x y, rank e.1 < rank x := by
  intro e he
  obtain ⟨d, hd, rfl⟩ := List.mem_map.1 he
  exact hrank _ _ (leads_of_mem_orderedChildren ha (List.of_mem_zip hd).1)

/-- The walk visits all that is below the pair on top, and then goes on with the rest.  The
bound only has to be above the rank of the vertex: every visit leads to a lower one. -/
theorem walkEnds_cons {bound : Nat} (hbound : rank x < bound) (h : WalkEnds mode a b rest r) :
    WalkEnds mode a b ((x, y) :: rest) (sameBelow mode a b bound x y && r) := by
  induction bound generalizing x y rest r with
  | zero => exact absurd hbound (Nat.not_lt_zero _)
  | succ bound ih =>
    rw [sameBelow_succ]
    by_cases hmatch : matchAt mode a b x y = true
    · have hround : walkRound mode a b ((x, y) :: rest) = .inr (childPairs a b x y ++ rest) := by
        rw [walkRound, if_pos hmatch]
      rw [hmatch, Bool.true_and]
      refine .round hround (walkEnds_append (fun e he rest r hrest => ?_) h)
      have hlower := rank_childPairs hrank ha e he
      exact ih (by omega) hrest
    · rw [Bool.not_eq_true] at hmatch
      have hround : walkRound mode a b ((x, y) :: rest) = .inl false := by
        rw [walkRound, hmatch]
        rfl
      rw [hmatch, Bool.false_and, Bool.false_and]
      exact .verdict hround

end Ends

/-- The walk from a pair of vertices ends, with what the bounded comparison says. -/
theorem WellFormed.walkEnds_iff (ha : a.WellFormed) :
    WalkEnds mode a b [(x, y)] r ↔ r = sameBelow mode a b (a.vertexCount + 1) x y := by
  obtain ⟨rank, hrank, hbound⟩ := ha.exists_rank
  have hends : WalkEnds mode a b [(x, y)] (sameBelow mode a b (a.vertexCount + 1) x y) := by
    have hempty : WalkEnds mode a b [] true := .verdict rfl
    have hpair := walkEnds_cons hrank ha.coherent (y := y) (Nat.lt_succ_of_le (hbound x)) hempty
    rwa [Bool.and_true] at hpair
  constructor
  · intro h
    exact h.unique hends
  · rintro rfl
    exact hends

/-! ## Unfoldings -/

/-- The bounded comparison of two vertices finds out whether their trees coincide. -/
theorem Unfolds.sameBelow_iff {t u : Unfolding} {rank : NodeId → Nat} {bound : Nat}
    (hrank : ∀ c w, a.edges.Leads c w → rank c < rank w) (ha : a.edges.Coherent)
    (ht : a.Unfolds x t) (hu : b.Unfolds y u) (hbound : rank x < bound) :
    sameBelow .content a b bound x y = true ↔ t.Coincides u := by
  induction bound generalizing x y t u with
  | zero => exact absurd hbound (Nat.not_lt_zero _)
  | succ bound ih =>
    obtain ⟨n, bs⟩ := t
    obtain ⟨m, cs⟩ := u
    obtain ⟨hn, hbs⟩ := unfolds_node_iff.1 ht
    obtain ⟨hm, hcs⟩ := unfolds_node_iff.1 hu
    have hbranches : List.Forall₂
        (fun c d => (CompareMode.content.sameEdge c.2 d.2 &&
          sameBelow .content a b bound c.1 d.1) = true) (a.orderedChildren x) (b.orderedChildren y)
        ↔ List.Forall₂ (fun c d => c.1 = d.1 ∧ c.2.Coincides d.2) bs cs := by
      refine forall₂_congr_of_forall₂ hbs hcs ?_
      rintro e he f - c d ⟨hc, htree⟩ ⟨hd, htree'⟩
      have hlower : rank e.1 < rank x := hrank _ _ (leads_of_mem_orderedChildren ha he)
      rw [Bool.and_eq_true, ih htree htree' (by omega), CompareMode.sameEdge, beq_iff_eq, hc, hd]
    rw [Unfolding.coincides_node_iff, ← hbranches, ← agreesAll_eq_true_iff, sameBelow, hn, hm]
    simp [agreesOption, CompareMode.sameNode, PlanNode.sameContent_iff_matches]

/-- Whether scans are absent on both sides or can be paired. -/
def InputsMatch : Option InputScans → Option InputScans → Prop
  | none, none => True
  | some s, some r => InputScans.Paired s.nodes r.nodes
  | _, _ => False

/-- Recorded scans are compared by pairing them. -/
theorem inputsMatch_iff {s r : Option InputScans} :
    agreesOption CompareMode.content.sameInputs s r = true ↔ InputsMatch s r := by
  cases s <;> cases r <;>
    simp [agreesOption, InputsMatch, CompareMode.sameInputs, InputScans.sameContent_iff_paired]

theorem InputsMatch.symm {s r : Option InputScans} (h : InputsMatch s r) : InputsMatch r s := by
  match s, r, h with
  | none, none, _ => exact trivial
  | some _, some _, hpaired => exact InputScans.Paired.symm hpaired

theorem InputsMatch.trans {s r q : Option InputScans} (h : InputsMatch s r)
    (h' : InputsMatch r q) : InputsMatch s q := by
  match s, r, q, h, h' with
  | none, none, none, _, _ => exact trivial
  | some _, some _, some _, hpaired, hpaired' => exact InputScans.Paired.trans hpaired hpaired'

/-- Plans with the same flags, terminals that match, scans that match, and as many
fragments, whose trees coincide one by one. -/
structure UnfoldsLike (a b : Plan) : Prop where
  hasJoin : a.hasJoin = b.hasJoin
  hasUnion : a.hasUnion = b.hasUnion
  terminal : a.terminal.Matches b.terminal
  inputs : InputsMatch a.inputs b.inputs
  fragmentCount : a.topLevelIds.length = b.topLevelIds.length
  fragments : ∀ (i : Nat) (x y : NodeId), a.topLevelIds[i]? = some x →
    b.topLevelIds[i]? = some y → ∃ t u, a.Unfolds x t ∧ b.Unfolds y u ∧ t.Coincides u

namespace UnfoldsLike

theorem symm (h : a.UnfoldsLike b) : b.UnfoldsLike a where
  hasJoin := h.hasJoin.symm
  hasUnion := h.hasUnion.symm
  terminal := h.terminal.symm
  inputs := h.inputs.symm
  fragmentCount := h.fragmentCount.symm
  fragments := by
    intro i y x hy hx
    obtain ⟨t, u, ht, hu, htu⟩ := h.fragments i x y hx hy
    exact ⟨u, t, hu, ht, htu.symm⟩

/-- Plans that unfold like a third one unfold alike. -/
theorem trans (h : a.UnfoldsLike b) (h' : b.UnfoldsLike c) : a.UnfoldsLike c where
  hasJoin := h.hasJoin.trans h'.hasJoin
  hasUnion := h.hasUnion.trans h'.hasUnion
  terminal := h.terminal.trans h'.terminal
  inputs := h.inputs.trans h'.inputs
  fragmentCount := h.fragmentCount.trans h'.fragmentCount
  fragments := by
    intro i x z hx hz
    obtain ⟨y, hy⟩ := exists_getElem?_of_length_eq h'.fragmentCount hz
    obtain ⟨t, u, ht, hu, htu⟩ := h.fragments i x y hx hy
    obtain ⟨u', w, hu', hw, huw⟩ := h'.fragments i y z hy hz
    -- The vertex in the middle has one tree, so both steps speak of the same.
    obtain rfl := hu.unique hu'
    exact ⟨t, w, ht, hw, htu.trans huw⟩

end UnfoldsLike

/-- The comparison of two fragments finds out whether they have trees that coincide. -/
theorem WellFormed.sameBelow_iff_exists_unfolds (ha : a.WellFormed) (hb : b.WellFormed)
    (hx : x ∈ a.topLevelIds) (hy : y ∈ b.topLevelIds) :
    sameBelow .content a b (a.vertexCount + 1) x y = true ↔
      ∃ t u, a.Unfolds x t ∧ b.Unfolds y u ∧ t.Coincides u := by
  obtain ⟨rank, hrank, hbound⟩ := ha.exists_rank
  have hlow : rank x < a.vertexCount + 1 := Nat.lt_succ_of_le (hbound x)
  constructor
  · intro hsame
    obtain ⟨t, ht⟩ := ha.exists_unfolds (ha.contains_of_mem_topLevelIds hx)
    obtain ⟨u, hu⟩ := hb.exists_unfolds (hb.contains_of_mem_topLevelIds hy)
    exact ⟨t, u, ht, hu, (ht.sameBelow_iff hrank ha.coherent hu hlow).1 hsame⟩
  · rintro ⟨t, u, ht, hu, htu⟩
    exact (ht.sameBelow_iff hrank ha.coherent hu hlow).2 htu

/-- Well-formed plans have the same structure if and only if they unfold alike. -/
theorem WellFormed.sameStructure_iff (ha : a.WellFormed) (hb : b.WellFormed) :
    sameStructure .content a b = true ↔ a.UnfoldsLike b := by
  have hfragments : agreesAll (sameBelow .content a b (a.vertexCount + 1)) a.topLevelIds
      b.topLevelIds = true ↔ a.topLevelIds.length = b.topLevelIds.length ∧
        ∀ (i : Nat) (x y : NodeId), a.topLevelIds[i]? = some x → b.topLevelIds[i]? = some y →
          ∃ t u, a.Unfolds x t ∧ b.Unfolds y u ∧ t.Coincides u := by
    rw [agreesAll_eq_true_iff, forall₂_iff_getElem?]
    refine and_congr_right fun _ => forall₃_congr fun i x y => forall₂_congr fun hx hy => ?_
    exact ha.sameBelow_iff_exists_unfolds hb (List.mem_of_getElem? hx) (List.mem_of_getElem? hy)
  simp only [sameStructure, Bool.and_eq_true, beq_iff_eq, hfragments, inputsMatch_iff,
    CompareMode.sameNode, PlanNode.sameContent_iff_matches]
  constructor
  · rintro ⟨⟨⟨⟨hasJoin, hasUnion⟩, terminal⟩, inputs⟩, fragmentCount, fragments⟩
    exact ⟨hasJoin, hasUnion, terminal, inputs, fragmentCount, fragments⟩
  · rintro ⟨hasJoin, hasUnion, terminal, inputs, fragmentCount, fragments⟩
    exact ⟨⟨⟨⟨hasJoin, hasUnion⟩, terminal⟩, inputs⟩, fragmentCount, fragments⟩

/-- The comparison of two plans that can come about.  Each of its walks comes to an end, with
the verdict that the bounded comparison gives.  By content, it finds that the plans have the
same structure if and only if they unfold alike, so it is symmetric and transitive. -/
theorem sameStructure_iff_unfoldsLike (ha : a.Reachable) (hb : b.Reachable) :
    (∀ mode, ∀ x ∈ a.topLevelIds, ∀ y ∈ b.topLevelIds, ∀ verdict,
      WalkEnds mode a b [(x, y)] verdict ↔
        verdict = sameBelow mode a b (a.vertexCount + 1) x y) ∧
    (sameStructure .content a b = true ↔ a.UnfoldsLike b) ∧
    sameStructure .content b a = sameStructure .content a b ∧
    ∀ c : Plan, c.Reachable → sameStructure .content a b = true →
      sameStructure .content b c = true → sameStructure .content a c = true := by
  have hab := ha.wellFormed.sameStructure_iff hb.wellFormed
  have hba := hb.wellFormed.sameStructure_iff ha.wellFormed
  refine ⟨fun _ _ _ _ _ _ => ha.wellFormed.walkEnds_iff, hab, ?_, ?_⟩
  · rw [Bool.eq_iff_iff, hba, hab]
    exact ⟨UnfoldsLike.symm, UnfoldsLike.symm⟩
  · intro c hc h h'
    rw [hab] at h
    rw [hb.wellFormed.sameStructure_iff hc.wellFormed] at h'
    exact (ha.wellFormed.sameStructure_iff hc.wellFormed).2 (h.trans h')

/-- A limit and a sort over one scan. -/
def sharedScan : Wire where
  supplyState := 4
  hasJoin := false
  hasUnion := false
  inputs := none
  terminal := .unary 0 ⟨[]⟩ .root none
  vertices := .ofList
    [(0, .unary 0 ⟨[]⟩ .root none), (1, .leaf 1 ⟨[]⟩ (.scan "a" none)),
      (2, .unary 2 ⟨[]⟩ (.limit 3) none), (3, .unary 3 ⟨[]⟩ (.sort []) none)]
  adjacency := .ofList
    [(1, [⟨2, .single⟩, ⟨3, .single⟩]), (2, [⟨0, .single⟩]), (3, [⟨0, .single⟩])]

/-- A limit and a sort over two scans of the same table, under other identifiers. -/
def copiedScan : Wire where
  supplyState := 9
  hasJoin := false
  hasUnion := false
  inputs := none
  terminal := .unary 0 ⟨[]⟩ .root none
  vertices := .ofList
    [(0, .unary 0 ⟨[]⟩ .root none), (5, .unary 5 ⟨[]⟩ (.limit 3) none),
      (6, .leaf 6 ⟨[]⟩ (.scan "a" none)), (7, .leaf 7 ⟨[]⟩ (.scan "a" none)),
      (8, .unary 8 ⟨[]⟩ (.sort []) none)]
  adjacency := .ofList
    [(5, [⟨0, .single⟩]), (6, [⟨5, .single⟩]), (7, [⟨8, .single⟩]), (8, [⟨0, .single⟩])]

/-- Sharing a scan does not show, nor do the identifiers. -/
theorem sameStructure_iff_unfoldsLike_sharedScan :
    ∃ a b : Plan, a.Reachable ∧ b.Reachable ∧
      sharedScan.toPlan .standard = .ok (a, ⟨4⟩) ∧ copiedScan.toPlan .standard = .ok (b, ⟨9⟩) ∧
      a.vertexCount = 4 ∧ b.vertexCount = 5 ∧
      WalkEnds .content a b [(2, 5)] true ∧ a.UnfoldsLike b ∧
      sameStructure .content b a = true ∧ sameStructure .content a a = true := by
  have ha := Wire.toPlan_eq_of_isOk
    (show (sharedScan.toPlan .standard).isOk = true by decide +kernel)
  have hb := Wire.toPlan_eq_of_isOk
    (show (copiedScan.toPlan .standard).isOk = true by decide +kernel)
  obtain ⟨hwalk, hiff, hsymm, htrans⟩ :=
    sameStructure_iff_unfoldsLike (Reachable.decode ha) (Reachable.decode hb)
  have hab : sameStructure .content (sharedScan.assemble .standard sharedScan.rebuilt)
      (copiedScan.assemble .standard copiedScan.rebuilt) = true := by decide +kernel
  have hba := hsymm.trans hab
  exact ⟨_, _, .decode ha, .decode hb, ha, hb, by decide +kernel, by decide +kernel,
    (hwalk .content 2 (by decide +kernel) 5 (by decide +kernel) true).2 (by decide +kernel),
    hiff.1 hab, hba, htrans _ (.decode ha) hab hba⟩

end Plan

end QueryGraph
