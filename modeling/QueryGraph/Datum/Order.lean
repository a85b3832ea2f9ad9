import QueryGraph.Datum.Basic

/-!
# Order of values

Texts, truth values and integers of any width are ordered exactly.  As soon as a
floating point number takes part, both sides are compared as eight byte numbers,
and a side that is no number makes the order unknown.

Main definitions:

- {lit}`Datum.compareWith`: how two present values compare.
-/

namespace QueryGraph

/-- How two present values compare. -/
inductive Comparison where
  /-- The values belong to different classes. -/
  | incomparable
  /-- One of the values is no number. -/
  | unknown
  | known (order : Ordering)
deriving DecidableEq, Repr

namespace Datum

/-- Compares two present values. -/
def compareWith (l r : Datum) : Comparison :=
  match l, r with
  | .text a, .text b => .known (compare a b)
  | .boolean a, .boolean b => .known (compare a b)
  | _, _ =>
    match l.integer?, r.integer? with
    | some a, some b => .known (compare a b)
    | _, _ =>
      match l.float?, r.float? with
      | some a, some b =>
        match a.compare? b with
        | some o => .known o
        | none => .unknown
      | _, _ => .incomparable

end Datum

end QueryGraph
