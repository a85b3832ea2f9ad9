import QueryGraph.Proofs.Json.Constants
import QueryGraph.Proofs.Octets.Plans
import QueryGraph.Proofs.Plan.Alike
import QueryGraph.Proofs.Wire.RoundTrip

/-!
# The encodings of a plan

Octets keep every plan.  JSON text keeps a plan if and only if the text nests no deeper than
the reader goes and each constant is read back: infinities and what is no number are written
as null, which is no floating point number, and the reader rounds some others differently.
The writer does not look at either, so it writes texts that are not read.

Main results:

- {lit}`Plan.encodings_kept`: what either encoding of a plan is read as.
-/

namespace QueryGraph

namespace Plan

variable {p : Plan} {supply : IdSupply}

/-! ## Octets -/

/-- The octets of a plan are read as its wire. -/
theorem ofOctets_toOctets (hsize : (p.toOctets supply).length < sizeBound)
    (config : PlannerConfig) :
    ofOctets (p.toOctets supply) config = (p.toWire supply).toPlan config := by
  have hread : Wire.ofOctets? (p.toOctets supply ++ []) = some (p.toWire supply) :=
    Wire.ofOctets?_octets hsize []
  rw [List.append_nil] at hread
  rw [ofOctets, hread]

/-! ## JSON text -/

/-- How many arrays and objects are open at once in the text of a plan. -/
def jsonDepth (p : Plan) (supply : IdSupply) : Nat :=
  (toJson (p.toWire supply)).depth

/-- The text of a plan is read as what is read of its wire, if it does not nest too deep. -/
theorem ofJsonText_toJsonText (p : Plan) (supply : IdSupply) (config : PlannerConfig) :
    ofJsonText (p.toJsonText supply) config =
      match if p.jsonDepth supply ≤ nestingLimit then (p.toWire supply).reread else none with
      | some w => w.toPlan config
      | none => .error .malformedText := by
  rw [ofJsonText, toJsonText, JsonFormat.parse?_render]
  rfl

/-- Something that is read of the wire of a plan and makes a plan with the same wire is that
wire: it has the same keys, and every vertex is what the plan that was made has there. -/
theorem eq_toWire_of_reread {config : PlannerConfig} {w : Wire} {q : Plan}
    (hread : (p.toWire supply).reread = some w) (hdecode : w.toPlan config = .ok (q, supply))
    (hwire : q.toWire supply = p.toWire supply) : w = p.toWire supply := by
  rcases Wire.toPlan_eq_ok_iff.1 hdecode with ⟨hchecked, -, -, rfl, -⟩
  have hinputs : w.inputs = p.inputs := congrArg Wire.inputs hwire
  have hterminal : w.terminal = p.terminal := congrArg Wire.terminal hwire
  have hassembled : (w.assemble config w.rebuilt).vertices = p.vertices :=
    congrArg Wire.vertices hwire
  have hget : ∀ i n, p.vertices.get? i = some n ↔
      w.vertices.get? i = some n ∨ (i = w.terminal.id ∧ n = w.terminal) := by
    intro i n
    rw [← hassembled]
    exact hchecked.get?_vertices_assemble_iff w.rebuilt
  simp only [Wire.reread, Option.bind_eq_some_iff, Option.some.injEq] at hread
  rcases hread with ⟨inputs, -, terminal, -, vertices, hvertices, rfl⟩
  have hkeys : vertices.keys = p.vertices.keys := SortedMap.keys_of_reread hvertices
  have hsame : vertices = p.vertices := by
    refine SortedMap.ext_get? fun i => Option.ext fun n => ⟨fun hn => (hget i n).2 (.inl hn), ?_⟩
    intro hn
    have hi : i ∈ vertices.keys :=
      hkeys ▸ SortedMap.mem_keys_iff.2 (SortedMap.contains_iff.2 ⟨n, hn⟩)
    rcases SortedMap.contains_iff.1 (SortedMap.mem_keys_iff.1 hi) with ⟨m, hm⟩
    have hmn := (hget i m).2 (.inl hm)
    rw [hm, ← hmn, hn]
  rw [hsame, show inputs = p.inputs from hinputs, show terminal = p.terminal from hterminal]
  rfl

namespace WellFormed

variable (h : p.WellFormed)

include h

/-- The constants of a plan are those of its wire: the terminal has none. -/
theorem mem_constants_toWire_iff {d : Datum} :
    d ∈ (p.toWire supply).constants ↔ d ∈ p.constants := by
  have hterminal : p.terminal.constants = [] := by
    rcases PlanNode.eq_root_of_kind h.terminal_kind h.terminal_alone with ⟨i, s, heq⟩
    rw [heq]
    rfl
  show d ∈ p.inputs.toList.flatMap InputScans.constants ++
    (p.terminal.constants ++ p.vertices.values.flatMap PlanNode.constants) ↔ _
  rw [hterminal, List.nil_append, List.mem_append, or_comm, ← List.mem_append]
  rfl

/-- JSON text keeps a plan if and only if it does not nest too deep and every constant is
read back. -/
theorem ofJsonText_eq_iff (hissued : ∀ i, p.vertices.contains i = true → i < supply.next)
    (config : PlannerConfig) :
    (∃ q, ofJsonText (p.toJsonText supply) config = .ok (q, supply) ∧
        q.toWire supply = p.toWire supply) ↔
      p.jsonDepth supply ≤ nestingLimit ∧ ∀ d ∈ p.constants, d.reread = some d := by
  have hexact : (p.toWire supply).reread = some (p.toWire supply) ↔
      ∀ d ∈ p.constants, d.reread = some d := by
    refine (p.toWire supply).rereadsAs.exact_iff.trans (forall_congr' fun d => ?_)
    rw [h.mem_constants_toWire_iff]
  rw [ofJsonText_toJsonText, ← hexact]
  by_cases hdepth : p.jsonDepth supply ≤ nestingLimit
  · rw [if_pos hdepth]
    constructor
    · rintro ⟨q, hdecode, hwire⟩
      cases hread : (p.toWire supply).reread with
      | none =>
        rw [hread] at hdecode
        contradiction
      | some w =>
        rw [hread] at hdecode
        exact ⟨hdepth, congrArg some (eq_toWire_of_reread hread hdecode hwire)⟩
    · rintro ⟨-, hread⟩
      rw [hread]
      exact ⟨p.decoded supply config, h.toPlan_eq_decoded hissued config,
        h.toWire_decoded hissued config⟩
  · rw [if_neg hdepth]
    constructor
    · rintro ⟨q, hdecode, -⟩
      contradiction
    · exact fun hcond => absurd hcond.1 hdepth

/-- Text that nests too deep is refused, and so is text with a constant that is not finite. -/
theorem ofJsonText_eq_error
    (hbad : nestingLimit < p.jsonDepth supply ∨ ∃ d ∈ p.constants, d.isFinite = false)
    (config : PlannerConfig) :
    ofJsonText (p.toJsonText supply) config = .error .malformedText := by
  rw [ofJsonText_toJsonText]
  by_cases hdepth : p.jsonDepth supply ≤ nestingLimit
  · rcases hbad.resolve_left (Nat.not_lt.2 hdepth) with ⟨d, hd, hfinite⟩
    have hnone : (p.toWire supply).reread = none := by
      rw [← Option.not_isSome_iff_eq_none, (p.toWire supply).rereadsAs.isSome_iff]
      intro hall
      have hsome := hall d (h.mem_constants_toWire_iff.2 hd)
      rw [Datum.reread_eq_none hfinite] at hsome
      contradiction
    rw [hnone, ite_self]
  · rw [if_neg hdepth]

end WellFormed

/-- Every plan that can come about and all of whose vertices are below the next identifier
of the supply is read back from its octets, unless they are more than a size can tell.  It
is read back from its text if and only if the text does not nest too deep and every constant
is read back to the bit.  Text that nests deeper, or that has an infinity or what is no
number among its constants, is written and refused. -/
theorem encodings_kept (h : p.Reachable)
    (hissued : ∀ i, p.vertices.contains i = true → i < supply.next) (config : PlannerConfig) :
    ((p.toOctets supply).length < sizeBound →
      ∃ q, ofOctets (p.toOctets supply) config = .ok (q, supply) ∧
        q.toWire supply = p.toWire supply) ∧
    ((∃ q, ofJsonText (p.toJsonText supply) config = .ok (q, supply) ∧
        q.toWire supply = p.toWire supply) ↔
      p.jsonDepth supply ≤ nestingLimit ∧ ∀ d ∈ p.constants, d.reread = some d) ∧
    (nestingLimit < p.jsonDepth supply ∨ (∃ d ∈ p.constants, d.isFinite = false) →
      ofJsonText (p.toJsonText supply) config = .error .malformedText) := by
  have hwell := h.wellFormed
  refine ⟨fun hsize => ?_, hwell.ofJsonText_eq_iff hissued config, fun hbad =>
    hwell.ofJsonText_eq_error hbad config⟩
  rw [ofOctets_toOctets hsize]
  exact ⟨p.decoded supply config, hwell.toPlan_eq_decoded hissued config,
    hwell.toWire_decoded hissued config⟩

/-- The plan that was built twice has no constant that may change, and its encodings are
short and flat. -/
theorem encodings_kept_builtTwice :
    (∃ q, ofOctets (builtTwice.toOctets ⟨8⟩) .standard = .ok (q, ⟨8⟩) ∧
        q.toWire ⟨8⟩ = builtTwice.toWire ⟨8⟩) ∧
      ∃ q, ofJsonText (builtTwice.toJsonText ⟨8⟩) .standard = .ok (q, ⟨8⟩) ∧
        q.toWire ⟨8⟩ = builtTwice.toWire ⟨8⟩ := by
  have hsize : (builtTwice.toOctets ⟨8⟩).length < sizeBound := by decide +kernel
  have hdepth : builtTwice.jsonDepth ⟨8⟩ ≤ nestingLimit := by decide +kernel
  have hexact : ∀ d ∈ builtTwice.constants, d.reread = some d := by decide +kernel
  rcases encodings_kept builtTwice_reachable builtTwice_issued .standard with
    ⟨hoctets, hjson, -⟩
  exact ⟨hoctets hsize, hjson.2 ⟨hdepth, hexact⟩⟩

/-- A selection by an infinity, in a plan that is built. -/
def selectedByInfinity : Plan :=
  (create .standard ⟨0⟩).1.run
    [.register (.unary 2 ⟨[]⟩ (.selection (.const (.float8 (.infinite .double false))))
      (some (.leaf 1 ⟨[]⟩ (.scan "a" none)))), .build]

/-- The octets of that plan are read back, and its text is refused. -/
theorem text_refused_selectedByInfinity :
    selectedByInfinity.built = true ∧
      (∀ i, selectedByInfinity.vertices.contains i = true → i < (IdSupply.mk 3).next) ∧
      ofOctets (selectedByInfinity.toOctets ⟨3⟩) .standard =
        (selectedByInfinity.toWire ⟨3⟩).toPlan .standard ∧
      ofJsonText (selectedByInfinity.toJsonText ⟨3⟩) .standard = .error .malformedText := by
  have hreachable : selectedByInfinity.Reachable := (Reachable.create .standard ⟨0⟩).run _
  have hsize : (selectedByInfinity.toOctets ⟨3⟩).length < sizeBound := by decide +kernel
  have hinfinite : ∃ d ∈ selectedByInfinity.constants, d.isFinite = false := by decide +kernel
  exact ⟨by decide +kernel, issued_of_all_keys (by decide +kernel),
    ofOctets_toOctets hsize .standard,
    hreachable.wellFormed.ofJsonText_eq_error (.inr hinfinite) .standard⟩

end Plan

end QueryGraph
