import Mathlib.Data.Bool.Basic
import Mathlib.Data.Int.Order.Basic
import Mathlib.Data.String.Basic
import QueryGraph.Proofs.Expr.Typing

/-!
# Comparisons of exactly comparable values

Integers of any width, texts, and truth values are compared exactly.  Each of these classes
is read into a linear order: an integer as what it stands for, whatever its width, a text
as its characters, a truth value as itself.  The six comparison operators are the six
relations of that order, so they obey its laws, and they always have an answer.

Between two classes there is no order, and every comparison is refused.

Main definitions:

- {lit}`ExactClass`, {lit}`Datum.exactClass?`: the classes, each with the linear order that it
  is read into, and the class of a value.
- {lit}`ExprKind.Relates`: the relation that a comparison operator stands for.
- {lit}`Datum.TotallyOrdered`: the laws of the comparison operators between three values.

Main results:

- {lit}`Datum.compareWith_of_read?`: values of a class compare as what they stand for.
- {lit}`Datum.holds_iff`: a comparison holds between values if its relation holds between
  what they stand for.
- {lit}`Datum.comparisons_total_order`: the operators order every class totally, and refuse
  values of two classes.
-/

namespace QueryGraph

/-! ## Classes -/

/-- A class of values that are compared exactly. -/
inductive ExactClass where
  | integers
  | texts
  | booleans
deriving DecidableEq, Repr

namespace ExactClass

variable {k : ExactClass} {d : Datum}

/-- What the values of a class stand for. -/
def Carrier : ExactClass → Type
  | .integers => Int
  | .texts => String
  | .booleans => Bool

instance : (k : ExactClass) → LinearOrder k.Carrier
  | .integers => inferInstanceAs (LinearOrder Int)
  | .texts => inferInstanceAs (LinearOrder String)
  | .booleans => inferInstanceAs (LinearOrder Bool)

/-- What a value stands for in a class. -/
def read? : (k : ExactClass) → Datum → Option k.Carrier
  | .integers, d => d.integer?
  | .texts, .text s => some s
  | .booleans, .boolean v => some v
  | _, _ => none

/-- A value that is read in a class is not missing. -/
theorem isNull_of_read? {x : k.Carrier} (h : k.read? d = some x) : d.isNull = false := by
  cases d with
  | null => cases k <;> cases h
  | _ => rfl

end ExactClass

/-- The class of a value: integers of any width belong to one.  A missing value and a
floating point number belong to none. -/
def Datum.exactClass? : Datum → Option ExactClass
  | .int2 _ | .int4 _ | .int8 _ => some .integers
  | .text _ => some .texts
  | .boolean _ => some .booleans
  | _ => none

/-- The values of a class stand for something in it. -/
theorem ExactClass.exists_read? {k : ExactClass} {d : Datum} (h : d.exactClass? = some k) :
    ∃ x, k.read? d = some x := by
  cases d <;> cases h <;> exact ⟨_, rfl⟩

/-! ## Operators as relations -/

/-- The relation of a linear order that a comparison operator stands for. -/
def ExprKind.Relates {α : Type} [LinearOrder α] : ExprKind → α → α → Prop
  | .equal, x, y => x = y
  | .notEqual, x, y => x ≠ y
  | .less, x, y => x < y
  | .lessEqual, x, y => x ≤ y
  | .greater, x, y => y < x
  | .greaterEqual, x, y => y ≤ x
  | _, _, _ => False

namespace Datum

variable {k k' : ExactClass} {a b c : Datum} {kind : ExprKind}

/-- An operator holds between two values if it gives true. -/
def Holds (kind : ExprKind) (a b : Datum) : Prop :=
  apply kind a b = .ok (.boolean true)

/-- A comparison of values that are not missing answers by how they compare. -/
theorem apply_of_present (hkind : kind.isComparison = true) (ha : a.isNull = false)
    (hb : b.isNull = false) :
    apply kind a b =
      match a.compareWith b with
      | .known o => .ok (.boolean (accepts kind o))
      | .unknown => .ok .null
      | .incomparable => .error (mismatch kind a b) := by
  rw [apply_of_isComparison hkind, comparison, ha, hb]
  rfl

/-- An operator accepts how two things compare if its relation holds between them. -/
theorem accepts_compare_iff {α : Type} [LinearOrder α] (x y : α) :
    accepts kind (compare x y) = true ↔ kind.Relates x y := by
  cases kind <;>
    simp [accepts, ExprKind.Relates, compare_lt_iff_lt, compare_gt_iff_gt]

section Reading

variable {x y : k.Carrier} (ha : k.read? a = some x) (hb : k.read? b = some y)

include ha hb

/-- Values of a class compare as what they stand for. -/
theorem compareWith_of_read? : a.compareWith b = .known (compare x y) := by
  cases k with
  | integers => cases a <;> cases ha <;> cases b <;> cases hb <;> rfl
  | texts =>
    cases a <;> cases ha
    cases b <;> cases hb
    rfl
  | booleans =>
    cases a <;> cases ha
    cases b <;> cases hb
    rfl

/-- A comparison of values of a class is neither refused nor missing. -/
theorem apply_of_read? (hkind : kind.isComparison = true) :
    apply kind a b = .ok (.boolean (accepts kind (compare x y))) := by
  rw [apply_of_present hkind (ExactClass.isNull_of_read? ha) (ExactClass.isNull_of_read? hb),
    compareWith_of_read? ha hb]

/-- A comparison holds between values of a class if its relation holds between what they
stand for. -/
theorem holds_iff (hkind : kind.isComparison = true) : Holds kind a b ↔ kind.Relates x y := by
  rw [Holds, apply_of_read? ha hb hkind, ← accepts_compare_iff, Except.ok.injEq, boolean.injEq]

/-- An operator gives for two values what another gives for them in the other order, if its
relation is the other one turned around. -/
theorem apply_swap {kind' : ExprKind} (hkind : kind.isComparison = true)
    (hkind' : kind'.isComparison = true)
    (hturned : ∀ x y : k.Carrier, kind.Relates x y ↔ kind'.Relates y x) :
    apply kind a b = apply kind' b a := by
  have haccepts : accepts kind (compare x y) = accepts kind' (compare y x) := by
    rw [Bool.eq_iff_iff, accepts_compare_iff, accepts_compare_iff]
    exact hturned x y
  rw [apply_of_read? ha hb hkind, apply_of_read? hb ha hkind', haccepts]

end Reading

/-- Values of two classes are not comparable. -/
theorem compareWith_of_ne (hne : k ≠ k') (ha : a.exactClass? = some k)
    (hb : b.exactClass? = some k') : a.compareWith b = .incomparable := by
  cases a <;> cases ha <;> cases b <;> cases hb <;> first | rfl | exact absurd rfl hne

/-- A comparison of values of two classes is refused. -/
theorem apply_of_ne (hne : k ≠ k') (ha : a.exactClass? = some k) (hb : b.exactClass? = some k')
    (hkind : kind.isComparison = true) :
    apply kind a b = .error (.incompatible kind a.dataType b.dataType) := by
  obtain ⟨x, hx⟩ := ExactClass.exists_read? ha
  obtain ⟨y, hy⟩ := ExactClass.exists_read? hb
  rw [apply_of_present hkind (ExactClass.isNull_of_read? hx) (ExactClass.isNull_of_read? hy),
    compareWith_of_ne hne ha hb, mismatch]

/-! ## The laws of an order -/

/-- Exactly one of three statements is true. -/
def ExactlyOne (p q r : Prop) : Prop :=
  (p ∧ ¬q ∧ ¬r) ∨ (¬p ∧ q ∧ ¬r) ∨ (¬p ∧ ¬q ∧ r)

/-- The comparison operators between three values, as a total order has them. -/
structure TotallyOrdered (a b c : Datum) : Prop where
  /-- Every comparison is true or false. -/
  decided : ∀ kind, kind.isComparison = true → ∃ v, apply kind a b = .ok (.boolean v)
  trichotomy : ExactlyOne (Holds .less a b) (Holds .equal a b) (Holds .less b a)
  lessEqual : Holds .lessEqual a b ↔ Holds .less a b ∨ Holds .equal a b
  greaterEqual : apply .greaterEqual a b = apply .lessEqual b a
  greater : apply .greater a b = apply .less b a
  notEqual : Holds .notEqual a b ↔ ¬Holds .equal a b
  less_trans : Holds .less a b → Holds .less b c → Holds .less a c
  equal_trans : Holds .equal a b → Holds .equal b c → Holds .equal a c
  equal_less : Holds .equal a b → (Holds .less a c ↔ Holds .less b c)
  less_equal : Holds .equal a b → (Holds .less c a ↔ Holds .less c b)

/-- Three values of a class are totally ordered. -/
theorem totallyOrdered_of_exactClass? (ha : a.exactClass? = some k) (hb : b.exactClass? = some k)
    (hc : c.exactClass? = some k) : TotallyOrdered a b c := by
  obtain ⟨x, hx⟩ := ExactClass.exists_read? ha
  obtain ⟨y, hy⟩ := ExactClass.exists_read? hb
  obtain ⟨z, hz⟩ := ExactClass.exists_read? hc
  constructor
  case decided =>
    intro kind hkind
    exact ⟨_, apply_of_read? hx hy hkind⟩
  case trichotomy =>
    rw [ExactlyOne, holds_iff hx hy rfl, holds_iff hx hy rfl, holds_iff hy hx rfl]
    rcases lt_trichotomy x y with hlt | heq | hgt
    · exact Or.inl ⟨hlt, hlt.ne, hlt.asymm⟩
    · exact Or.inr (Or.inl ⟨heq.not_lt, heq, heq.not_gt⟩)
    · exact Or.inr (Or.inr ⟨hgt.asymm, hgt.ne', hgt⟩)
  case lessEqual =>
    rw [holds_iff hx hy rfl, holds_iff hx hy rfl, holds_iff hx hy rfl]
    exact le_iff_lt_or_eq
  case greaterEqual => exact apply_swap hx hy rfl rfl fun _ _ => Iff.rfl
  case greater => exact apply_swap hx hy rfl rfl fun _ _ => Iff.rfl
  case notEqual =>
    rw [holds_iff hx hy rfl, holds_iff hx hy rfl]
    exact Iff.rfl
  case less_trans =>
    rw [holds_iff hx hy rfl, holds_iff hy hz rfl, holds_iff hx hz rfl]
    exact lt_trans
  case equal_trans =>
    rw [holds_iff hx hy rfl, holds_iff hy hz rfl, holds_iff hx hz rfl]
    exact Eq.trans
  case equal_less =>
    rw [holds_iff hx hy rfl, holds_iff hx hz rfl, holds_iff hy hz rfl]
    rintro (rfl : x = y)
    exact Iff.rfl
  case less_equal =>
    rw [holds_iff hx hy rfl, holds_iff hz hx rfl, holds_iff hz hy rfl]
    rintro (rfl : x = y)
    exact Iff.rfl

/-- The comparison operators order integers, texts and truth values totally: three values of
one class compare as in a total order, and values of two classes do not compare at all.
Expressions compare with the same operators as values. -/
theorem comparisons_total_order :
    (∀ (k : ExactClass) (a b c : Datum), a.exactClass? = some k → b.exactClass? = some k →
      c.exactClass? = some k → TotallyOrdered a b c)
    ∧ (∀ (k k' : ExactClass) (a b : Datum), k ≠ k' → a.exactClass? = some k →
      b.exactClass? = some k' → ∀ kind, kind.isComparison = true →
        apply kind a b = .error (.incompatible kind a.dataType b.dataType))
    ∧ ∀ (a b : Datum) (kind : ExprKind), kind.isComparison = true →
      apply kind a b = comparison kind a b :=
  ⟨fun _ _ _ _ => totallyOrdered_of_exactClass?,
    fun _ _ _ _ hne ha hb _ => apply_of_ne hne ha hb,
    fun a b _ hkind => apply_of_isComparison hkind a b⟩

/-- An integer that is less than a third one is so in any width, and is not compared with a
text. -/
theorem comparisons_total_order_mixedWidths :
    (int2 3).exactClass? = some .integers ∧ (int4 3).exactClass? = some .integers
      ∧ (int8 7).exactClass? = some .integers ∧ (text "7").exactClass? = some .texts
      ∧ Holds .equal (int2 3) (int4 3) ∧ Holds .less (int4 3) (int8 7)
      ∧ Holds .less (int2 3) (int8 7)
      ∧ ExprKind.isComparison .lessEqual = true
      ∧ apply .lessEqual (int2 3) (text "7") =
        .error (.incompatible .lessEqual .int2 .text) := by
  have hshort : (int2 3).exactClass? = some .integers := rfl
  have hmiddle : (int4 3).exactClass? = some .integers := rfl
  have hlong : (int8 7).exactClass? = some .integers := rfl
  have htext : (text "7").exactClass? = some .texts := rfl
  have hequal : Holds .equal (int2 3) (int4 3) := rfl
  have hless : Holds .less (int4 3) (int8 7) := rfl
  obtain ⟨hordered, hrefused, -⟩ := comparisons_total_order
  have horder := hordered _ _ _ _ hshort hmiddle hlong
  exact ⟨hshort, hmiddle, hlong, htext, hequal, hless, (horder.equal_less hequal).2 hless, rfl,
    hrefused _ _ _ _ (by decide) hshort htext _ rfl⟩

end Datum

end QueryGraph
