import Mathlib.Logic.Function.Basic
import QueryGraph.Proofs.Json.Plans
import QueryGraph.Proofs.Node.Constants

/-!
# What is read depends on the constants

Floating point constants are all that may change between writing and reading.  So what is
read of an expression, a tree or a wire is the same again if and only if each of its
constants is, and something is read of it if and only if something is read of each of them.

Main definitions:

- {lit}`Datum.isFinite`: a value that is not an infinity and not what is no number.
- {lit}`RereadsAs`: what is read of something depends on given constants.

Main results:

- {lit}`Datum.reread_eq_none`: nothing is read of a value that is not finite.
- {lit}`Expr.rereadsAs`, {lit}`PlanNode.rereadsAs`, {lit}`InputScans.rereadsAs`: what is
  read of expressions, trees and scans depends on their constants.
- {lit}`Wire.parse?_render_exact`: what is read of a wire without floating point constants.
-/

namespace QueryGraph

/-! ## Values -/

namespace Datum

/-- Whether a value is neither an infinity nor what is no number. -/
def isFinite : Datum → Bool
  | .float4 x => x.magnitude < BinaryFormat.single.infinity
  | .float8 x => x.magnitude < BinaryFormat.double.infinity
  | _ => true

/-- An infinity and what is no number have no spelling as numbers. -/
theorem ofFloat_eq_null {f : BinaryFormat} (range : PlainRange) {x : BinaryFloat f}
    (h : ¬x.magnitude < f.infinity) : Json.ofFloat range x = .null := by
  have hvalue : x.value = .nan ∨ ∃ s, x.value = .infinite s := by
    unfold BinaryFloat.value
    by_cases heq : x.magnitude = f.infinity
    · exact .inr ⟨x.negative, if_pos heq⟩
    · have hlt : f.infinity < x.magnitude := by omega
      exact .inl ((if_neg heq).trans (if_pos hlt))
  unfold Json.ofFloat JsonNumber.ofFloat?
  rcases hvalue with hvalue | ⟨s, hvalue⟩ <;> rw [hvalue]

/-- Nothing is read of a value that is not finite: it is written as null. -/
theorem reread_eq_none {d : Datum} (h : d.isFinite = false) : d.reread = none := by
  cases d with
  | float4 x =>
    have hnull : toJson x = Json.null := ofFloat_eq_null .single (of_decide_eq_false h)
    show (ofJson? 0 (toJson x)).map Datum.float4 = none
    rw [hnull]
    rfl
  | float8 x =>
    have hnull : toJson x = Json.null := ofFloat_eq_null .double (of_decide_eq_false h)
    show (ofJson? 0 (toJson x)).map Datum.float8 = none
    rw [hnull]
    rfl
  | _ => contradiction

end Datum

/-! ## Dependence on constants -/

/-- What is read of something depends on given constants. -/
structure RereadsAs {α : Type} (a : α) (read : Option α) (constants : List Datum) : Prop where
  /-- It is the same if every constant is. -/
  exact_iff : read = some a ↔ ∀ d ∈ constants, d.reread = some d
  /-- It is anything if every constant is. -/
  isSome_iff : read.isSome = true ↔ ∀ d ∈ constants, d.reread.isSome = true

namespace RereadsAs

variable {α β γ δ : Type} {a : α} {b : β} {c : γ} {x : Option α} {y : Option β} {z : Option γ}
  {cs ds es : List Datum}

/-- Without constants, what was written is read. -/
theorem of_some (a : α) : RereadsAs a (some a) [] :=
  ⟨by simp, by simp⟩

/-- A thing with one part depends on the constants of that part. -/
theorem map {f : α → β} (hf : Function.Injective f) (h : RereadsAs a x cs) :
    RereadsAs (f a) (x.map f) cs where
  exact_iff := by
    rw [← h.exact_iff, Option.map_eq_some_iff]
    constructor
    · rintro ⟨b, hb, heq⟩
      rw [hb, hf heq]
    · exact fun hx => ⟨a, hx, rfl⟩
  isSome_iff := by rw [Option.isSome_map, h.isSome_iff]

/-- A thing with two parts depends on the constants of both. -/
theorem and {f : α → β → γ} (hf : Function.Injective2 f) (ha : RereadsAs a x cs)
    (hb : RereadsAs b y ds) :
    RereadsAs (f a b) (x.bind fun a => y.bind fun b => some (f a b)) (cs ++ ds) where
  exact_iff := by
    rw [List.forall_mem_append, ← ha.exact_iff, ← hb.exact_iff]
    cases x with
    | none => simp
    | some a' =>
      cases y with
      | none => simp
      | some b' =>
        simp only [Option.bind_some, Option.some.injEq]
        exact ⟨fun heq => hf heq, fun heq => by rw [heq.1, heq.2]⟩
  isSome_iff := by
    rw [List.forall_mem_append, ← ha.isSome_iff, ← hb.isSome_iff]
    cases x <;> cases y <;> simp

/-- A thing with three parts depends on the constants of all three. -/
theorem and_and {f : α → β → γ → δ}
    (hf : ∀ {a a' b b' c c'}, f a b c = f a' b' c' → a = a' ∧ b = b' ∧ c = c')
    (ha : RereadsAs a x cs) (hb : RereadsAs b y ds) (hc : RereadsAs c z es) :
    RereadsAs (f a b c) (x.bind fun a => y.bind fun b => z.bind fun c => some (f a b c))
      (cs ++ (ds ++ es)) := by
  have hpair : Function.Injective2 (Prod.mk : β → γ → β × γ) := fun _ _ _ _ heq => Prod.mk.inj heq
  have hf' : Function.Injective2 fun a (p : β × γ) => f a p.1 p.2 := by
    intro a a' p p' heq
    rcases hf heq with ⟨hfst, hsnd, hthd⟩
    exact ⟨hfst, Prod.ext hsnd hthd⟩
  have hall := ha.and hf' (hb.and hpair hc)
  simpa only [Option.bind_assoc, Option.bind_some] using hall

/-- Many things depend on the constants of all of them. -/
theorem mapM {items : List α} {read : α → Option α} {constants : α → List Datum}
    (h : ∀ a ∈ items, RereadsAs a (read a) (constants a)) :
    RereadsAs items (items.mapM read) (items.flatMap constants) := by
  induction items with
  | nil => exact of_some []
  | cons a items ih =>
    have hrest := ih fun b hb => h b (List.mem_cons_of_mem a hb)
    have hcons : Function.Injective2 (List.cons : α → List α → List α) :=
      fun _ _ _ _ heq => List.cons.inj heq
    rw [List.mapM_cons, List.flatMap_cons]
    exact (h a List.mem_cons_self).and hcons hrest

end RereadsAs

/-! ## Expressions and operators -/

/-- A constant depends on itself. -/
theorem Datum.rereadsAs (d : Datum) : RereadsAs d d.reread [d] :=
  ⟨by simp, by simp⟩

/-- What is read of an expression depends on its constants, not on its columns and types. -/
theorem Expr.rereadsAs (e : Expr) : RereadsAs e e.reread e.constants := by
  induction e with
  | const d => exact d.rereadsAs.map fun _ _ h => Expr.const.inj h
  | field c => exact .of_some _
  | binary k l r t ihl ihr =>
    exact ihl.and (fun _ _ _ _ h => ⟨(Expr.binary.inj h).2.1, (Expr.binary.inj h).2.2.1⟩) ihr

/-- The name of a target is always read back, so only its expression matters. -/
theorem Target.rereadsAs (t : Target) : RereadsAs t (LawfulJson.reread t) t.expr.constants := by
  have hwrap : Function.Injective fun e => (⟨e, t.aliasName⟩ : Target) :=
    fun _ _ h => (Target.mk.inj h).1
  have hread := t.expr.rereadsAs.map hwrap
  rwa [Option.map_eq_bind] at hread

/-- Targets depend on the constants of all their expressions. -/
theorem rereadsAs_targets (targets : List Target) :
    RereadsAs targets (LawfulJson.reread targets) (targetConstants targets) :=
  .mapM fun t _ => t.rereadsAs

theorem LeafOp.rereadsAs (op : LeafOp) : RereadsAs op op.reread op.constants := by
  cases op with
  | scan table aliasName => exact .of_some _
  | exprs targets => exact (rereadsAs_targets targets).map fun _ _ h => LeafOp.exprs.inj h

theorem UnaryOp.rereadsAs (op : UnaryOp) : RereadsAs op op.reread op.constants := by
  cases op with
  | projection targets =>
    exact (rereadsAs_targets targets).map fun _ _ h => UnaryOp.projection.inj h
  | groupBy keys targets =>
    exact (rereadsAs_targets targets).map fun _ _ h => (UnaryOp.groupBy.inj h).2
  | selection predicate => exact predicate.rereadsAs.map fun _ _ h => UnaryOp.selection.inj h
  | having predicate => exact predicate.rereadsAs.map fun _ _ h => UnaryOp.having.inj h
  | _ => exact .of_some _

theorem BinaryOp.rereadsAs (op : BinaryOp) : RereadsAs op op.reread op.constants := by
  cases op with
  | join joinType predicate =>
    cases predicate with
    | none => exact .of_some _
    | some predicate =>
      have hsome := predicate.rereadsAs.map (f := some) fun _ _ h => Option.some.inj h
      exact hsome.map fun _ _ h => (BinaryOp.join.inj h).2
  | _ => exact .of_some _

/-! ## Trees and maps -/

namespace PlanNode

/-- What is in a slot depends on the constants below it. -/
theorem rereadsAs_slot {slot : Option PlanNode}
    (h : ∀ c ∈ slot, RereadsAs c c.reread c.constants) :
    RereadsAs slot (rereadSlot slot) (slot.toList.flatMap constants) := by
  cases slot with
  | none => exact .of_some none
  | some c =>
    have hc := (h c rfl).map (f := some) fun _ _ h => Option.some.inj h
    rwa [Option.toList_some, List.flatMap_singleton]

theorem constants_unary (i : NodeId) (s : Schema) (op : UnaryOp) (child : Option PlanNode) :
    (unary i s op child).constants = op.constants ++ child.toList.flatMap constants := by
  rw [constants_eq, ownConstants, inputs, List.flatMap_map]

theorem constants_binary (i : NodeId) (s : Schema) (op : BinaryOp)
    (left right : Option PlanNode) :
    (binary i s op left right).constants =
      op.constants ++ (left.toList.flatMap constants ++ right.toList.flatMap constants) := by
  rw [constants_eq, ownConstants, inputs, List.flatMap_append, List.flatMap_map, List.flatMap_map]

/-- What is read of a tree depends on the constants of all its nodes. -/
theorem rereadsAs (n : PlanNode) : RereadsAs n n.reread n.constants := by
  induction n with
  | leaf i s op =>
    have hop := op.rereadsAs.map (f := leaf i s) fun _ _ h => (leaf.inj h).2.2
    rw [constants_eq, inputs, List.flatMap_nil, List.append_nil]
    rwa [Option.map_eq_bind] at hop
  | unary i s op child ih =>
    rw [reread_unary, constants_unary]
    exact op.rereadsAs.and (fun _ _ _ _ h => (unary.inj h).2.2) (rereadsAs_slot ih)
  | binary i s op left right ihl ihr =>
    rw [reread_binary, constants_binary]
    exact op.rereadsAs.and_and (fun h => (binary.inj h).2.2) (rereadsAs_slot ihl)
      (rereadsAs_slot ihr)

end PlanNode

namespace SortedMap

variable {α : Type} [JsonFormat α] [LawfulJson α]

/-- Keys are read back. -/
theorem map_fst_rereadEntries {entries read : List (NodeId × α)}
    (h : rereadEntries entries = some read) : read.map Prod.fst = entries.map Prod.fst := by
  induction entries generalizing read with
  | nil =>
    cases h
    rfl
  | cons e entries ih =>
    simp only [rereadEntries, List.mapM_cons, Option.bind_eq_bind, Option.bind_eq_some_iff,
      Option.map_eq_some_iff, Option.pure_def, Option.some.injEq] at h
    rcases h with ⟨_, ⟨a, -, rfl⟩, rest, hrest, rfl⟩
    rw [List.map_cons, List.map_cons, ih hrest]

/-- What is read of a map has the entries that were read. -/
theorem reread_eq_some_iff {m n : IdMap α} :
    reread m = some n ↔ rereadEntries m.entries = some n.entries := by
  show (rereadEntries m.entries).map ofList = some n ↔ _
  rw [Option.map_eq_some_iff]
  constructor
  · rintro ⟨read, hread, hn⟩
    have hkeys := map_fst_rereadEntries hread
    have hentries := ofList_entries ⟨read, hkeys ▸ m.ascending⟩
    rw [hread, congrArg entries (hn.symm.trans hentries)]
  · exact fun h => ⟨n.entries, h, ofList_entries n⟩

theorem keys_of_reread {m n : IdMap α} (h : reread m = some n) : n.keys = m.keys :=
  map_fst_rereadEntries (reread_eq_some_iff.1 h)

/-- What is read of a map depends on its values. -/
theorem rereadsAs {m : IdMap α} {constants : α → List Datum}
    (h : ∀ a, RereadsAs a (reread a) (constants a)) :
    RereadsAs m (reread m) (m.values.flatMap constants) := by
  have hentries : RereadsAs m.entries (rereadEntries m.entries)
      (m.entries.flatMap fun e => constants e.2) :=
    .mapM fun e _ => (h e.2).map fun _ _ heq => (Prod.mk.inj heq).2
  unfold values
  rw [List.flatMap_map]
  refine ⟨reread_eq_some_iff.trans hentries.exact_iff, ?_⟩
  rw [← hentries.isSome_iff]
  show ((rereadEntries m.entries).map ofList).isSome = true ↔ _
  rw [Option.isSome_map]

end SortedMap

/-- Recorded scans depend on the constants of the nodes they keep. -/
theorem InputScans.rereadsAs (s : InputScans) :
    RereadsAs s (LawfulJson.reread s) s.constants := by
  have hscans : RereadsAs s.scans (reread s.scans) s.constants :=
    SortedMap.rereadsAs PlanNode.rereadsAs
  have hs := hscans.map (f := InputScans.mk) fun _ _ h => InputScans.mk.inj h
  rwa [Option.map_eq_bind] at hs

/-- The constants in a wire. -/
def Wire.constants (w : Wire) : List Datum :=
  w.inputs.toList.flatMap InputScans.constants ++
    (w.terminal.constants ++ w.vertices.values.flatMap PlanNode.constants)

/-- What is read of a wire depends on its constants. -/
theorem Wire.rereadsAs (w : Wire) : RereadsAs w w.reread w.constants := by
  have hinputs : RereadsAs w.inputs (LawfulJson.reread w.inputs)
      (w.inputs.toList.flatMap InputScans.constants) := by
    cases w.inputs with
    | none => exact .of_some none
    | some s =>
      rw [Option.toList_some, List.flatMap_singleton]
      exact s.rereadsAs.map fun _ _ h => Option.some.inj h
  have hwire : ∀ {i i' : Option InputScans} {t t' : PlanNode} {v v' : IdMap PlanNode},
      { w with inputs := i, terminal := t, vertices := v } =
        { w with inputs := i', terminal := t', vertices := v' } → i = i' ∧ t = t' ∧ v = v' := by
    intro i i' t t' v v' h
    injection h with _ _ _ hi ht hv
    exact ⟨hi, ht, hv⟩
  exact hinputs.and_and hwire w.terminal.rereadsAs (SortedMap.rereadsAs PlanNode.rereadsAs)

/-! ## Wires without floating point constants -/

/-- Only floating point numbers may change. -/
theorem Datum.reread_eq_some {d : Datum} (h : d.dataType.isFloat = false) :
    d.reread = some d := by
  cases d with
  | float4 => contradiction
  | float8 => contradiction
  | _ => rfl

namespace Wire

/-- A wire without floating point constants is what its text is read as, if the text nests no
deeper than the reader goes.  Deeper text is refused. -/
theorem parse?_render_exact {w : Wire} (hexact : ∀ d ∈ w.constants, d.dataType.isFloat = false) :
    ((toJson w).depth ≤ nestingLimit → JsonFormat.parse? (JsonFormat.render w) = some w) ∧
      (nestingLimit < (toJson w).depth →
        (JsonFormat.parse? (JsonFormat.render w) : Option Wire) = none) := by
  have hread : w.reread = some w :=
    w.rereadsAs.exact_iff.2 fun d hd => Datum.reread_eq_some (hexact d hd)
  rw [JsonFormat.parse?_render]
  constructor
  · intro hdepth
    rw [if_pos hdepth]
    exact hread
  · intro hdepth
    exact if_neg (Nat.not_le.2 hdepth)

/-- A wire of texts with quotes, backslashes, control characters and letters of many
languages, the greatest and the least numbers, and absent values. -/
def quoted : Wire where
  supplyState := 18446744073709551615
  hasJoin := true
  hasUnion := false
  inputs := none
  terminal := .unary 0 ⟨[]⟩ .root none
  vertices := .ofList
    [(18446744073709551615, .unary 18446744073709551615 ⟨[⟨"\"\\/", .text⟩]⟩
        (.selection (.binary .and (.const (.text "\x00\x1f\n\t\"größe\\")) (.const .null) .boolean))
        (some (.leaf 2 ⟨[]⟩ (.exprs [⟨.const (.int2 (-32768)), none⟩,
          ⟨.const (.int4 2147483647), some "数"⟩,
          ⟨.const (.int8 (-9223372036854775808)), some "\x7f"⟩])))),
      (10, .binary 10 ⟨[]⟩ (.join .cross none) none (some (.leaf 1 ⟨[]⟩ (.scan "" none))))]
  adjacency := .ofList [(18446744073709551614, [⟨0, .single⟩]), (9, [])]

/-- Its text is read back as the same wire. -/
theorem parse?_render_exact_quoted :
    (toJson quoted).depth = 12 ∧ JsonFormat.parse? (JsonFormat.render quoted) = some quoted := by
  have hexact : ∀ d ∈ quoted.constants, d.dataType.isFloat = false := by decide +kernel
  have hdepth : (toJson quoted).depth = 12 := by decide +kernel
  refine ⟨hdepth, (parse?_render_exact hexact).1 ?_⟩
  rw [hdepth]
  decide

end Wire

end QueryGraph
