import QueryGraph.Proofs.Wire.Decoding

/-!
# Plans that can come about

A plan starts new or decoded.  Its caller then registers fragments, clears it,
builds it and removes edges, in any order and as often as wanted, and may go on
where a build failed.

Main definitions:

- {lit}`Plan.Call`: a call that changes a plan.
- {lit}`Plan.run`: the plan after some calls.
- {lit}`Plan.Reachable`: the plans that can come about.
- {lit}`Plan.Kept`: properties of a graph that every step of a call keeps.

Main results:

- {lit}`Plan.Reachable.wellFormed`: all of them are well-formed.
- {lit}`Plan.Kept.run`: what every step keeps, all calls keep.
-/

namespace QueryGraph

namespace Plan

/-- A call that changes a plan, other than the removal of an edge. -/
inductive Call where
  | register (tree : PlanNode)
  | setOnly (tree : PlanNode)
  | clear
  | build

/-- The plan after a call.  A build that fails still keeps what it added. -/
def execute (p : Plan) : Call → Plan
  | .register tree => (p.register tree).2
  | .setOnly tree => (p.setOnly tree).2
  | .clear => p.clear
  | .build => p.build.plan

/-- The plan after some calls. -/
def run (p : Plan) (calls : List Call) : Plan :=
  calls.foldl execute p

@[simp] theorem run_nil (p : Plan) : p.run [] = p :=
  rfl

@[simp] theorem run_cons (p : Plan) (call : Call) (calls : List Call) :
    p.run (call :: calls) = (p.execute call).run calls :=
  rfl

/-- The plans that can come about. -/
inductive Reachable : Plan → Prop
  | create (config : PlannerConfig) (supply : IdSupply) : Reachable (create config supply).1
  | decode {w : Wire} {config : PlannerConfig} {p : Plan} {supply : IdSupply}
      (h : w.toPlan config = .ok (p, supply)) : Reachable p
  | execute {p : Plan} (h : Reachable p) (call : Call) : Reachable (p.execute call)
  | removeEdge {p q : Plan} {child parent : NodeId} {type : EdgeType} (h : Reachable p)
      (hremove : p.removeEdge child parent = .ok (type, q)) : Reachable q

variable {p q : Plan}

/-- Every call keeps a plan well-formed. -/
theorem WellFormed.execute (h : p.WellFormed) (call : Call) : (p.execute call).WellFormed := by
  cases call with
  | register tree => exact h.register tree
  | setOnly tree => exact h.setOnly tree
  | clear => exact h.clear
  | build => exact h.build

/-- All plans that can come about are well-formed. -/
theorem Reachable.wellFormed (h : p.Reachable) : p.WellFormed := by
  induction h with
  | create config supply => exact WellFormed.create config supply
  | decode h => exact Wire.wellFormed_of_toPlan h
  | execute _ call ih => exact ih.execute call
  | removeEdge _ hremove ih => exact ih.removeEdge hremove

/-- Plans after any calls can come about. -/
theorem Reachable.run (h : p.Reachable) (calls : List Call) : (p.run calls).Reachable := by
  induction calls generalizing p with
  | nil => exact h
  | cons call calls ih => exact ih (h.execute call)

/-! ## What calls keep -/

/-- A property of the graph of a plan that is there from the start and that every step of a
call keeps: registering a fragment, adding a tree, and ending a build. -/
structure Kept (holds : Plan → Prop) : Prop where
  start : ∀ config n, n.kind = .root → holds (ofTerminal config n)
  fragments : ∀ p fragments, holds p → holds { p with fragments, built := false }
  commitTree : ∀ p t, p.WellFormed → t.Lowerable p.vertices.contains → holds p →
    holds (p.commitTree t)
  finish : ∀ p, holds p → holds p.finish

namespace Kept

variable {holds : Plan → Prop} (h : Kept holds)

include h

/-- Wherever a build has come to and however it goes on, it keeps the property. -/
theorem lowersTo {ts : List PlanNode} {error : Option LoweringError} (hwell : p.WellFormed)
    (hbuilt : p.built = false) (hto : LowersTo p ts q error) (hp : holds p) : holds q := by
  induction hto with
  | done p => exact h.finish p hp
  | step hlow _ ih =>
    exact ih (hwell.commitTree hbuilt hlow) hbuilt (h.commitTree _ _ hwell hlow hp)
  | stop _ => exact hp

/-- A build keeps what every tree that it adds keeps. -/
theorem build (hwell : p.WellFormed) (hp : holds p) : holds p.build.plan := by
  cases hbuilt : p.built with
  | true =>
    rw [build_of_built hbuilt]
    exact hp
  | false => exact h.lowersTo hwell hbuilt (hwell.captured.lowersTo_build hbuilt) hp

/-- Registering a tree keeps what does not depend on fragments. -/
theorem register (tree : PlanNode) (hp : holds p) : holds (p.register tree).2 := by
  cases hlowered : p.isLowered (unwrapRoot tree).id with
  | true =>
    rw [register_of_isLowered hlowered]
    exact hp
  | false =>
    rw [register_of_not_isLowered hlowered]
    exact h.fragments p _ hp

/-- Every call keeps what registering and building keep. -/
theorem execute (hwell : p.WellFormed) (hp : holds p) (call : Call) : holds (p.execute call) := by
  have hclear : holds p.clear := h.start p.config p.terminal hwell.terminal_kind
  cases call with
  | register tree => exact h.register tree hp
  | setOnly tree => exact h.register tree hclear
  | clear => exact hclear
  | build => exact h.build hwell hp

/-- What every step keeps, all calls keep. -/
theorem run (hwell : p.WellFormed) (hp : holds p) (calls : List Call) : holds (p.run calls) := by
  induction calls generalizing p with
  | nil => exact hp
  | cons call calls ih => exact ih (hwell.execute call) (h.execute hwell hp call)

/-- Plans that were made from fragments have the property. -/
theorem run_create (config : PlannerConfig) (supply : IdSupply) (calls : List Call) :
    holds ((create config supply).1.run calls) :=
  h.run (.create config supply) (h.start config _ rfl) calls

end Kept

end Plan

end QueryGraph
