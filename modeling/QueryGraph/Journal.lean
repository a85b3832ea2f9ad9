import QueryGraph.Plan.Lowering
import QueryGraph.Plan.Text

/-!
# What a session logs

The records that the operations on expressions and plans leave in a log.  Each is
computed from what the operation was given and what it came to, so the operations
themselves know nothing of a log.

Main definitions:

- {lit}`LogRecord`: a level and a text.
- {lit}`Journal.ofBuild`, {lit}`Journal.ofRegister` and so on: the records of each
  operation.
-/

namespace QueryGraph

/-- How much a record matters. -/
inductive LogLevel where
  | trace
  | debug
  | warn
deriving DecidableEq, Repr

/-- The name of a level. -/
def LogLevel.name : LogLevel → String
  | .trace => "TRACE"
  | .debug => "DEBUG"
  | .warn => "WARN"

/-- An entry of a log. -/
structure LogRecord where
  level : LogLevel
  text : String
deriving DecidableEq, Repr

namespace Journal

/-- The record of typing an operator: a warning where a permissive policy falls
back to the left operand's type. -/
def ofTyping (policy : PromotionPolicy) (kind : ExprKind) (left right : DataType) :
    List LogRecord :=
  if kind.isArithmetic && Promotion.fallsBack policy left right then
    [⟨.warn, "No promotion rule for " ++ left.name ++ " " ++ kind.symbol ++ " " ++ right.name
      ++ ", falling back to " ++ left.name⟩]
  else []

/-- The record of clearing a plan. -/
def ofClear (p : Plan) : List LogRecord :=
  [⟨.debug, "Clearing execution plan (terminal " ++ toString p.terminal.id ++ ")"⟩]

/-- The record of registering a fragment. -/
def ofRegister (p : Plan) (tree : PlanNode) : List LogRecord :=
  let top := Plan.unwrapRoot tree
  if p.isLowered top.id then
    [⟨.warn, "Fragment " ++ toString top.id
      ++ " is already lowered into this plan, ignoring the new tree"⟩]
  else
    [⟨.debug, "Registered fragment " ++ toString top.id ++ " with "
      ++ toString (Fragment.capture top).size ++ " node(s)"⟩]

/-- The records of registering a fragment as the only one. -/
def ofSetOnly (p : Plan) (tree : PlanNode) : List LogRecord :=
  ofClear p ++ ofRegister p.clear tree

/-- The sizes of a plan's graph. -/
def sizes (p : Plan) : String :=
  toString p.vertexCount ++ " vertices, " ++ toString p.edgeCount ++ " edges"

/-- The records of a build that started from a plan.  The walk is logged only
where the settings ask for it, and the graph only where the build came to its
end. -/
def ofBuild (p : Plan) (outcome : BuildOutcome) : List LogRecord :=
  if p.built then []
  else
    let started : LogRecord :=
      ⟨.debug, "Building execution plan from " ++ toString p.pending.length ++ " fragment(s)"⟩
    let walked := if p.config.traceLowering
      then outcome.walked.map fun n => ⟨.trace, "Lowering " ++ n.render⟩
      else []
    let finished := match outcome.failure with
      | some _ => []
      | none =>
        [⟨.debug, "Built execution plan: " ++ sizes outcome.plan ++ "\n" ++ outcome.plan.render⟩]
    started :: walked ++ finished

/-- The record of rebuilding a plan from a wire. -/
def ofDecode (p : Plan) : List LogRecord :=
  [⟨.debug, "Decoded execution plan: " ++ sizes p⟩]

/-- The record of writing a plan as JSON text. -/
def ofJsonText (text : String) : List LogRecord :=
  [⟨.debug, "Encoded execution plan to " ++ toString text.utf8ByteSize ++ " bytes of JSON"⟩]

/-- The record of writing a plan as octets. -/
def ofOctets (list : List UInt8) : List LogRecord :=
  [⟨.debug, "Encoded execution plan to " ++ toString list.length ++ " bytes"⟩]

end Journal

end QueryGraph
