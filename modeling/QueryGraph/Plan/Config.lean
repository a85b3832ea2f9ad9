import QueryGraph.Expr.Promotion

/-!
# Planner settings

Main definitions:

- {lit}`PlannerConfig`: the settings of a planning session.
-/

namespace QueryGraph

/-- The settings of a planning session. -/
structure PlannerConfig where
  /-- What arithmetic does with operand types outside the lattice. -/
  promotion : PromotionPolicy
  /-- Whether every node that enters a plan is logged. -/
  traceLowering : Bool
deriving DecidableEq, Repr

namespace PlannerConfig

/-- The settings where nothing is said. -/
def standard : PlannerConfig :=
  ⟨.strict, false⟩

/-- The settings that take the left operand's type in doubt. -/
def permissive : PlannerConfig :=
  { standard with promotion := .permissive }

end PlannerConfig

end QueryGraph
