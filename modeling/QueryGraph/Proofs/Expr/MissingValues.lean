import Mathlib.Data.List.Forall2
import QueryGraph.Proofs.Expr.Typing

/-!
# Filling in missing values

A missing value is one that is not known.  What an expression says without it, it goes on
saying when the value becomes known: filling in missing values of a row may turn a missing
result into a present one, or into an error, but it never changes a present result.

Most operators ask for both operands, so a present result means that both were present
before.  A connective may be decided by one operand, and then it does not matter which
truth value the other one takes.

Main definitions:

- {lit}`Datum.FilledBy`, {lit}`Row.FilledBy`: the same, with missing values filled in.

Main results:

- {lit}`Datum.FilledBy.apply`: operators keep this relation between operands and results.
- {lit}`Row.FilledBy.eval`: so do expressions, between rows and results.
- {lit}`Expr.eval_filled`: a present result stays what it is, unless there is an error.
-/

namespace QueryGraph

/-- Whether a value is the same as another, or the other was missing. -/
def Datum.FilledBy (d e : Datum) : Prop :=
  d = .null ∨ e = d

/-- Whether a row is another one with some of the missing values filled in. -/
def Row.FilledBy (u v : Row) : Prop :=
  List.Forall₂ Datum.FilledBy u v

namespace Datum

variable {kind : ExprKind} {a b c d a' b' d' : Datum}

theorem filledBy_refl (d : Datum) : d.FilledBy d :=
  .inr rfl

/-! ## Connectives -/

/-- Whether a truth value is the same as another, or the other was unknown. -/
def TruthFilledBy (x y : Option Bool) : Prop :=
  x = none ∨ y = x

/-- A connective that keeps what it says when an unknown operand becomes known. -/
def KeepsTruth (join : Option Bool → Option Bool → Option Bool) : Prop :=
  ∀ x y x' y', TruthFilledBy x x' → TruthFilledBy y y' → TruthFilledBy (join x y) (join x' y')

/-- An operand that decides a conjunction is false, and decides it against anything. -/
theorem keepsTruth_conjunction : KeepsTruth conjunction := by
  rintro x y x' y' (rfl | rfl) (rfl | rfl)
  · exact .inl rfl
  · rcases y' with _ | _ | _
    · exact .inl rfl
    · exact .inr (by rcases x' with _ | _ | _ <;> rfl)
    · exact .inl rfl
  · rcases x' with _ | _ | _
    · exact .inl rfl
    · exact .inr rfl
    · exact .inl rfl
  · exact .inr rfl

/-- An operand that decides a disjunction is true, and decides it against anything. -/
theorem keepsTruth_disjunction : KeepsTruth disjunction := by
  rintro x y x' y' (rfl | rfl) (rfl | rfl)
  · exact .inl rfl
  · rcases y' with _ | _ | _
    · exact .inl rfl
    · exact .inl rfl
    · exact .inr (by rcases x' with _ | _ | _ <;> rfl)
  · rcases x' with _ | _ | _
    · exact .inl rfl
    · exact .inl rfl
    · exact .inr rfl
  · exact .inr rfl

/-- Operands of a connective have truth values that fill in each other. -/
theorem FilledBy.logicOperand? (h : a.FilledBy b) {x y : Option Bool}
    (ha : a.logicOperand? = some x) (hb : b.logicOperand? = some y) : TruthFilledBy x y := by
  rcases h with rfl | rfl
  · exact .inl (Option.some.inj ha).symm
  · exact .inr (Option.some.inj (hb.symm.trans ha))

/-- What is unknown is missing as a value, so filling in carries over. -/
theorem TruthFilledBy.ofTruth {x y : Option Bool} (h : TruthFilledBy x y) :
    (ofTruth x).FilledBy (ofTruth y) := by
  rcases h with rfl | rfl
  · exact .inl rfl
  · exact filledBy_refl _

theorem connective_eq_ok {join : Option Bool → Option Bool → Option Bool}
    (h : connective join kind a b = .ok d) :
    ∃ x y, a.logicOperand? = some x ∧ b.logicOperand? = some y ∧ d = ofTruth (join x y) := by
  unfold connective at h
  split at h
  case h_1 x y hx hy => exact ⟨x, y, hx, hy, (Except.ok.inj h).symm⟩
  case h_2 => cases h

/-- A connective that keeps what is known keeps it as values fill in. -/
theorem FilledBy.connective {join : Option Bool → Option Bool → Option Bool}
    (hjoin : KeepsTruth join) (ha : a.FilledBy a') (hb : b.FilledBy b')
    (h : connective join kind a b = .ok d) (h' : Datum.connective join kind a' b' = .ok d') :
    d.FilledBy d' := by
  obtain ⟨x, y, hx, hy, rfl⟩ := connective_eq_ok h
  obtain ⟨x', y', hx', hy', rfl⟩ := connective_eq_ok h'
  exact (hjoin x y x' y' (ha.logicOperand? hx hx') (hb.logicOperand? hy hy')).ofTruth

/-! ## Operators that ask for both operands -/

/-- The result of an operator is missing as soon as an operand is. -/
def NeedsBoth (f : Datum → Datum → Except EvalError Datum) : Prop :=
  ∀ a b, a = .null ∨ b = .null → f a b = .ok .null

theorem needsBoth_comparison (kind : ExprKind) : NeedsBoth (comparison kind) := by
  rintro a b (rfl | rfl)
  · rfl
  · simp [comparison, isNull]

theorem needsBoth_arithmetic (kind : ExprKind) : NeedsBoth (arithmetic kind) := by
  rintro a b (rfl | rfl)
  · exact arithmetic_null_left kind b
  · exact arithmetic_null_right kind a

theorem needsBoth_concatenation : NeedsBoth fun a b => .ok (concatenation a b) := by
  rintro a b (rfl | rfl)
  · rfl
  · simp [concatenation, isNull]

/-- Where both operands are asked for, either the result was missing or no operand was. -/
theorem NeedsBoth.filledBy {f : Datum → Datum → Except EvalError Datum} (hf : NeedsBoth f)
    (ha : a.FilledBy a') (hb : b.FilledBy b') (h : f a b = .ok d) (h' : f a' b' = .ok d') :
    d.FilledBy d' := by
  by_cases hnull : a = .null ∨ b = .null
  · rw [hf a b hnull] at h
    exact .inl (Except.ok.inj h).symm
  · rw [not_or] at hnull
    obtain rfl : a' = a := ha.resolve_left hnull.1
    obtain rfl : b' = b := hb.resolve_left hnull.2
    rw [h] at h'
    exact .inr (Except.ok.inj h').symm

/-! ## Any operator -/

/-- Only operators have results. -/
theorem isBinary_of_apply_eq_ok (h : apply kind a b = .ok d) : kind.isBinary = true := by
  cases kind <;> first | rfl | cases h

/-- An operator on operands that are filled in gives its result filled in. -/
theorem FilledBy.apply (ha : a.FilledBy a') (hb : b.FilledBy b')
    (h : Datum.apply kind a b = .ok d) (h' : Datum.apply kind a' b' = .ok d') :
    d.FilledBy d' := by
  rcases ExprKind.isBinary_cases (isBinary_of_apply_eq_ok h) with
    rfl | rfl | hcompares | hcomputes | rfl
  · exact ha.connective keepsTruth_conjunction hb h h'
  · exact ha.connective keepsTruth_disjunction hb h h'
  · rw [apply_of_isComparison hcompares] at h h'
    exact (needsBoth_comparison kind).filledBy ha hb h h'
  · rw [apply_of_isArithmetic hcomputes] at h h'
    exact (needsBoth_arithmetic kind).filledBy ha hb h h'
  · exact needsBoth_concatenation.filledBy ha hb h h'

end Datum

/-! ## Expressions -/

variable {schema : Schema} {u v : Row}

/-- A column that is found in both rows holds the same, or is filled in. -/
theorem Row.FilledBy.lookup? (h : u.FilledBy v) {name : String} {d d' : Datum}
    (hd : u.lookup? schema name = some d) (hd' : v.lookup? schema name = some d') :
    d.FilledBy d' := by
  obtain ⟨i, hi, hget⟩ := Option.bind_eq_some_iff.1 hd
  obtain ⟨i', hi', hget'⟩ := Option.bind_eq_some_iff.1 hd'
  obtain rfl : i = i' := Option.some.inj (hi.symm.trans hi')
  obtain ⟨hlt, rfl⟩ := List.getElem?_eq_some_iff.1 hget
  obtain ⟨hlt', rfl⟩ := List.getElem?_eq_some_iff.1 hget'
  exact List.Forall₂.get h hlt hlt'

/-- The value of a column is that of its name in the row. -/
theorem Expr.field_eq_ok {c : Column} {d : Datum} (h : (field c).eval schema u = .ok d) :
    u.lookup? schema c.name = some d := by
  unfold eval at h
  split at h
  case h_1 d' hd' => rw [hd', Except.ok.inj h]
  case h_2 => cases h

/-- If an expression has a value on both rows, the second one is the first one filled in. -/
theorem Row.FilledBy.eval (h : u.FilledBy v) (e : Expr) {d d' : Datum}
    (hd : e.eval schema u = .ok d) (hd' : e.eval schema v = .ok d') : d.FilledBy d' := by
  induction e generalizing d d' with
  | const c =>
    rw [← Except.ok.inj hd, ← Except.ok.inj hd']
    exact Datum.filledBy_refl c
  | field c => exact h.lookup? (Expr.field_eq_ok hd) (Expr.field_eq_ok hd')
  | binary k l r t ihl ihr =>
    obtain ⟨a, ha, hd⟩ := bind_eq_ok_iff.1 hd
    obtain ⟨b, hb, hd⟩ := bind_eq_ok_iff.1 hd
    obtain ⟨a', ha', hd'⟩ := bind_eq_ok_iff.1 hd'
    obtain ⟨b', hb', hd'⟩ := bind_eq_ok_iff.1 hd'
    exact (ihl ha ha').apply (ihr hb hb') hd hd'

namespace Expr

/-- Filling in missing values of a row never changes a present result: the expression has
the same value or an error. -/
theorem eval_filled (h : u.FilledBy v) (schema : Schema) (e : Expr) {d : Datum}
    (hd : e.eval schema u = .ok d) (hpresent : d ≠ .null) :
    e.eval schema v = .ok d ∨ ∃ err, e.eval schema v = .error err := by
  cases hv : e.eval schema v with
  | error err => exact .inr ⟨err, rfl⟩
  | ok d' =>
    obtain rfl : d' = d := (h.eval e hd hv).resolve_left hpresent
    exact .inl rfl

/-- The columns of an article. -/
def article : Schema :=
  ⟨[⟨"note", .text⟩, ⟨"stock", .int4⟩]⟩

/-- Whether an article is new or there is much of it. -/
def newOrPlenty : Expr :=
  .binary .or (.binary .equal (.field ⟨"note", .text⟩) (.const (.text "new")) .boolean)
    (.binary .greater (.field ⟨"stock", .int4⟩) (.const (.int4 10)) .boolean) .boolean

/-- The disjunction is true though its left side is unknown, and stays true when that is filled
in. -/
theorem eval_filled_newOrPlenty :
    Row.FilledBy [.null, .int4 20] [.text "old", .int4 20]
      ∧ newOrPlenty.eval article [.null, .int4 20] = .ok (.boolean true)
      ∧ (newOrPlenty.eval article [.text "old", .int4 20] = .ok (.boolean true)
        ∨ ∃ err, newOrPlenty.eval article [.text "old", .int4 20] = .error err) := by
  have hfilled : Row.FilledBy [.null, .int4 20] [.text "old", .int4 20] :=
    .cons (.inl rfl) (.cons (.inr rfl) .nil)
  have hvalue : newOrPlenty.eval article [.null, .int4 20] = .ok (.boolean true) := rfl
  exact ⟨hfilled, hvalue, eval_filled hfilled article newOrPlenty hvalue nofun⟩

/-- A value that no text can be compared with turns a decided result into an error. -/
example : newOrPlenty.eval article [.int4 3, .int4 20]
    = .error (.incompatible .equal .int4 .text) :=
  rfl

end Expr

end QueryGraph
