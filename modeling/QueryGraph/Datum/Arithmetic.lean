import QueryGraph.Datum.Basic
import QueryGraph.Expr.Promotion
import QueryGraph.Number.Arithmetic

/-!
# Arithmetic on values

Integers are combined exactly and the result is then fitted twice: into the
widest integer type, and into the type that the operands call for.  A remainder
exists only where its quotient fits.  Floating point operands are combined as
eight byte numbers, and a four byte result is rounded once more.

Main definitions:

- {lit}`Datum.exactResult?`: the operation on unbounded integers.
- {lit}`Datum.arithmetic`: the operation on values.
-/

namespace QueryGraph

-- Powers mean the same whatever else is imported.
attribute [local instance (high)] instPowNat

/-- Bits of an integer type. -/
def DataType.integerBits : DataType → Nat
  | .int2 => 16
  | .int4 => 32
  | .int8 => 64
  | _ => 0

/-- Whether a signed type of so many bits holds an integer. -/
def FitsBits (bits : Nat) (v : Int) : Prop :=
  -2 ^ (bits - 1) ≤ v ∧ v < 2 ^ (bits - 1)

instance (bits : Nat) (v : Int) : Decidable (FitsBits bits v) :=
  inferInstanceAs (Decidable (_ ∧ _))

namespace Datum

/-- The integer value of a type, wrapped to its bits. -/
def ofInteger (t : DataType) (v : Int) : Datum :=
  match t with
  | .int2 => .int2 (.ofInt v)
  | .int4 => .int4 (.ofInt v)
  | _ => .int8 (.ofInt v)

/-- The operation on unbounded integers.  Division goes toward zero and the
remainder has the sign of the dividend. -/
def exactResult? : ExprKind → Int → Int → Option Int
  | .plus, l, r => some (l + r)
  | .minus, l, r => some (l - r)
  | .multiply, l, r => some (l * r)
  | .divide, l, r => some (l.tdiv r)
  | .modulo, l, r => some (l.tmod r)
  | _, _, _ => none

/-- The integer that has to fit the widest type for an operation to succeed: its
result, or for a remainder the quotient. -/
def checkedResult? : ExprKind → Int → Int → Option Int
  | .modulo, l, r => some (l.tdiv r)
  | kind, l, r => exactResult? kind l r

/-- Whether the operation divides. -/
def divides (kind : ExprKind) : Bool :=
  kind = .divide || kind = .modulo

/-- The operation on integers of the widest type. -/
def wideResult (kind : ExprKind) (l r : Int) : Except EvalError Int :=
  match exactResult? kind l r, checkedResult? kind l r with
  | some result, some checked =>
    if divides kind ∧ r = 0 then .error .divisionByZero
    else if FitsBits 64 checked then .ok result
    else .error (.overflow (.operation l kind r))
  | _, _ => .error (.unsupported kind)

/-- The operation on eight byte numbers. -/
def floatResult (kind : ExprKind) (l r : Binary64) : Except EvalError Binary64 :=
  if divides kind && r.isZero then .error .divisionByZero
  else match kind with
    | .plus => .ok (l.add r)
    | .minus => .ok (l.sub r)
    | .multiply => .ok (l.mul r)
    | .divide => .ok (l.div r)
    | .modulo => .ok (l.rem r)
    | _ => .error (.unsupported kind)

/-- The error of an operator on two values that it is not defined on. -/
def mismatch (kind : ExprKind) (l r : Datum) : EvalError :=
  .incompatible kind l.dataType r.dataType

/-- Arithmetic on two values.  A missing operand makes the result missing. -/
def arithmetic (kind : ExprKind) (l r : Datum) : Except EvalError Datum :=
  if l.isNull || r.isNull then .ok .null
  else match l.float?, r.float? with
    | some x, some y => do
      let t ← Promotion.numeric .strict kind l.dataType r.dataType
      match l.integer?, r.integer? with
      | some a, some b =>
        let v ← wideResult kind a b
        if FitsBits t.integerBits v then .ok (ofInteger t v)
        else .error (.overflow (.narrowing v t))
      | _, _ =>
        let v ← floatResult kind x y
        if t = .float4 then .ok (.float4 (v.convert .single)) else .ok (.float8 v)
    | _, _ => .error (mismatch kind l r)

end Datum

end QueryGraph
