import QueryGraph.Expr.Eval
import QueryGraph.Node.Target

/-!
# Types of evaluated expressions

The type of an expression is fixed before anything is evaluated, while arithmetic asks
for a common type again, from the values that it meets.  The two agree: a value that is
not missing has the type that was announced for it, so both questions are asked about
the same types.

Main definitions:

- {lit}`Datum.HasType`: a value may stand where a type is announced.
- {lit}`Expr.StrictlyTyped`: the expressions that the strict policy lets one build.
- {lit}`Expr.Fits`: a row that holds what the columns of an expression declare.
- {lit}`Expr.SoundOn`: what the type of an expression says about its value.

Main results:

- {lit}`Datum.apply_hasType`: an operator on values of the announced types.
- {lit}`Expr.typing_sound`: strictly typed expressions, and the schema of a list of
  targets, announce the types of what is evaluated.
-/

namespace QueryGraph

/-- Whether a value may stand where a type is announced: a missing one always may. -/
def Datum.HasType (d : Datum) (t : DataType) : Prop :=
  d = .null ∨ d.dataType = t

instance (d : Datum) (t : DataType) : Decidable (d.HasType t) :=
  inferInstanceAs (Decidable (_ ∨ _))

/-- The types that the strict policy lets arithmetic take: numbers and the untyped
null. -/
def DataType.isOperand (t : DataType) : Bool :=
  t.isNumeric || t = .null

/-- The errors that no typing can exclude: the row has no such column, or the numbers
themselves have no result. -/
def EvalError.isOfValues : EvalError → Bool
  | .columnNotFound _ | .divisionByZero | .overflow _ => true
  | .unsupported _ | .incompatible .. => false

/-! ## Outcomes of two steps -/

/-- Two steps come to a result if both do. -/
theorem bind_eq_ok_iff {ε α β : Type} {x : Except ε α} {f : α → Except ε β} {b : β} :
    x >>= f = .ok b ↔ ∃ a, x = .ok a ∧ f a = .ok b := by
  cases x <;> simp [bind, Except.bind]

/-- Two steps fail where the first fails, or the second does on what the first has come to. -/
theorem bind_eq_error_iff {ε α β : Type} {x : Except ε α} {f : α → Except ε β} {e : ε} :
    x >>= f = .error e ↔ x = .error e ∨ ∃ a, x = .ok a ∧ f a = .error e := by
  cases x <;> simp [bind, Except.bind]

/-! ## The lattice -/

/-- An operator on two operands is of one of five classes. -/
theorem ExprKind.isBinary_cases {kind : ExprKind} (h : kind.isBinary = true) :
    kind = .and ∨ kind = .or ∨ kind.isComparison = true ∨ kind.isArithmetic = true
      ∨ kind = .concatenate := by
  cases kind <;> first | decide | cases h

namespace Promotion

/-- The strict policy takes numbers and untyped nulls only. -/
theorem isOperand_of_numeric {kind : ExprKind} {l r t : DataType}
    (h : numeric .strict kind l r = .ok t) : l.isOperand = true ∧ r.isOperand = true := by
  cases l <;> cases r <;> cases h <;> decide

/-- Two numbers have a common type, which does not depend on the operator.  It is a whole
number type exactly where both of them are. -/
theorem exists_numeric {l r : DataType} (hl : l.isNumeric = true) (hr : r.isNumeric = true) :
    ∃ t, (∀ kind, numeric .strict kind l r = .ok t)
      ∧ t.isInteger = (l.isInteger && r.isInteger)
      ∧ t.isFloat = !(l.isInteger && r.isInteger) := by
  cases l <;> cases hl <;> cases r <;> cases hr <;> exact ⟨_, fun _ => rfl, rfl, rfl⟩

/-- Every comparison is announced as a truth value, whatever it compares. -/
theorem resultType_of_isComparison {kind : ExprKind} (h : kind.isComparison = true)
    (policy : PromotionPolicy) (l r : DataType) : resultType policy kind l r = .ok .boolean := by
  cases kind <;> first | rfl | cases h

/-- Arithmetic is announced with the common type of its operands. -/
theorem resultType_of_isArithmetic {kind : ExprKind} (h : kind.isArithmetic = true)
    (policy : PromotionPolicy) (l r : DataType) :
    resultType policy kind l r = numeric policy kind l r := by
  cases kind <;> first | rfl | cases h

/-- Only arithmetic announces a number or an untyped null. -/
theorem isArithmetic_of_isOperand {kind : ExprKind} {policy : PromotionPolicy}
    {l r t : DataType} (hkind : kind.isBinary = true)
    (h : resultType policy kind l r = .ok t) (ht : t.isOperand = true) :
    kind.isArithmetic = true := by
  rcases ExprKind.isBinary_cases hkind with rfl | rfl | hcompares | hcomputes | rfl
  · cases h; cases ht
  · cases h; cases ht
  · rw [resultType_of_isComparison hcompares] at h
    cases h; cases ht
  · exact hcomputes
  · cases h; cases ht

end Promotion

/-! ## Operators on values of the announced types -/

namespace Datum

/-- A missing value has every type. -/
theorem hasType_null (t : DataType) : HasType .null t :=
  .inl rfl

/-- A value has its own type. -/
theorem hasType_dataType (d : Datum) : d.HasType d.dataType :=
  .inr rfl

/-- A value is no further from being an operand than the type announced for it. -/
theorem HasType.isOperand {d : Datum} {t : DataType} (h : d.HasType t)
    (ht : t.isOperand = true) : d.dataType.isOperand = true := by
  rcases h with rfl | rfl
  · rfl
  · exact ht

theorem ofTruth_hasType (b : Option Bool) : (ofTruth b).HasType .boolean := by
  cases b with
  | none => exact hasType_null _
  | some b => exact .inr rfl

/-- A present value where an operand may stand is a number. -/
theorem float?_isSome_of_isOperand {d : Datum} (hd : d ≠ .null)
    (h : d.dataType.isOperand = true) : d.float?.isSome = true := by
  cases d <;> first | exact (hd rfl).elim | rfl | cases h

theorem connective_hasType {join : Option Bool → Option Bool → Option Bool} {kind : ExprKind}
    {l r d : Datum} (h : connective join kind l r = .ok d) : d.HasType .boolean := by
  unfold connective at h
  split at h
  · cases h
    exact ofTruth_hasType _
  · cases h

theorem comparison_hasType {kind : ExprKind} {l r d : Datum}
    (h : comparison kind l r = .ok d) : d.HasType .boolean := by
  unfold comparison at h
  split at h
  · cases h
    exact hasType_null _
  · split at h
    · cases h
      exact .inr rfl
    · cases h
      exact hasType_null _
    · cases h

theorem concatenation_hasType (l r : Datum) : (concatenation l r).HasType .text := by
  unfold concatenation
  split
  · exact hasType_null _
  · exact .inr rfl

/-- An integer is stored in the type that was asked for. -/
theorem dataType_ofInteger {t : DataType} (ht : t.isInteger = true) (v : Int) :
    (ofInteger t v).dataType = t := by
  cases t <;> first | rfl | cases ht

/-- A floating point number is stored in the type that was asked for. -/
theorem dataType_ofFloat {t : DataType} (ht : t.isFloat = true) (v : Binary64) :
    (if t = .float4 then .float4 (v.convert .single) else .float8 v : Datum).dataType = t := by
  cases t <;> first | rfl | cases ht

/-- The common type of two numbers, seen from the values. -/
theorem exists_numeric {l r : Datum} (hl : l.float?.isSome = true)
    (hr : r.float?.isSome = true) :
    ∃ t, (∀ kind, Promotion.numeric .strict kind l.dataType r.dataType = .ok t)
      ∧ t.isInteger = (l.integer?.isSome && r.integer?.isSome)
      ∧ t.isFloat = !(l.integer?.isSome && r.integer?.isSome) := by
  rw [float?_isSome] at hl hr
  rw [integer?_isSome, integer?_isSome]
  exact Promotion.exists_numeric hl hr

/-- A result that is not missing has the common type of what arithmetic met. -/
theorem arithmetic_eq_ok {kind : ExprKind} {l r d : Datum} (h : arithmetic kind l r = .ok d) :
    d = .null ∨ Promotion.numeric .strict kind l.dataType r.dataType = .ok d.dataType := by
  unfold arithmetic at h
  split at h
  · exact .inl (Except.ok.inj h).symm
  split at h
  case h_2 => cases h
  case h_1 x y hx hy =>
    rcases exists_numeric (Option.isSome_of_eq_some hx) (Option.isSome_of_eq_some hy) with
      ⟨t, hnumeric, hinteger, hfloat⟩
    rw [hnumeric kind] at h ⊢
    refine .inr (congrArg Except.ok ?_)
    rcases bind_eq_ok_iff.1 h with ⟨t', hok, h⟩
    obtain rfl := Except.ok.inj hok
    split at h
    case h_1 a b ha hb =>
      rw [ha, hb] at hinteger
      rcases bind_eq_ok_iff.1 h with ⟨v, -, h⟩
      split at h
      · rw [← Except.ok.inj h, dataType_ofInteger hinteger]
      · cases h
    case h_2 hnone =>
      have hsome : (l.integer?.isSome && r.integer?.isSome) = false := by
        rw [Bool.and_eq_false_iff, Option.isSome_eq_false_iff, Option.isSome_eq_false_iff]
        cases ha : l.integer? with
        | none => exact .inl rfl
        | some a => cases hb : r.integer? with
          | none => exact .inr rfl
          | some b => exact (hnone a b ha hb).elim
      rw [hsome] at hfloat
      rcases bind_eq_ok_iff.1 h with ⟨v, -, h⟩
      rw [← dataType_ofFloat hfloat v]
      split at h <;> rw [← Except.ok.inj h] <;> simp [*]

/-- Whole numbers fail for reasons of their values only. -/
theorem wideResult_error {kind : ExprKind} (hkind : kind.isArithmetic = true) {l r : Int}
    {e : EvalError} (h : wideResult kind l r = .error e) : e.isOfValues = true := by
  unfold wideResult at h
  split at h
  · split at h
    · cases h; rfl
    · split at h <;> cases h
      rfl
  case h_2 hnone =>
    cases kind <;> simp [ExprKind.isArithmetic, exactResult?, checkedResult?] at hkind hnone

/-- Floating point numbers fail for a divisor of zero only. -/
theorem floatResult_error {kind : ExprKind} (hkind : kind.isArithmetic = true)
    {l r : Binary64} {e : EvalError} (h : floatResult kind l r = .error e) :
    e.isOfValues = true := by
  unfold floatResult at h
  split at h
  · cases h; rfl
  · cases kind <;> simp [ExprKind.isArithmetic] at hkind h

/-- Arithmetic fails for reasons of the values, unless something else than numbers and
missing values takes part. -/
theorem arithmetic_eq_error {kind : ExprKind} (hkind : kind.isArithmetic = true) {l r : Datum}
    {e : EvalError} (h : arithmetic kind l r = .error e) :
    e.isOfValues = true ∨ e = mismatch kind l r
      ∧ ¬(l.dataType.isOperand = true ∧ r.dataType.isOperand = true) := by
  unfold arithmetic at h
  split at h
  case isTrue => cases h
  case isFalse hnull =>
    split at h
    case h_1 x y hx hy =>
      rcases exists_numeric (Option.isSome_of_eq_some hx) (Option.isSome_of_eq_some hy) with
        ⟨t, hnumeric, -, -⟩
      rw [hnumeric kind] at h
      refine .inl ?_
      rcases bind_eq_error_iff.1 h with h | ⟨t', -, h⟩
      · cases h
      split at h
      · rcases bind_eq_error_iff.1 h with h | ⟨v, -, h⟩
        · exact wideResult_error hkind h
        · split at h <;> cases h
          rfl
      · rcases bind_eq_error_iff.1 h with h | ⟨v, -, h⟩
        · exact floatResult_error hkind h
        · split at h <;> cases h
    case h_2 hnone =>
      refine .inr ⟨(Except.error.inj h).symm, fun ⟨hl, hr⟩ => ?_⟩
      simp only [Bool.or_eq_true, isNull_iff, not_or] at hnull
      rcases Option.isSome_iff_exists.1 (float?_isSome_of_isOperand hnull.1 hl) with ⟨x, hx⟩
      rcases Option.isSome_iff_exists.1 (float?_isSome_of_isOperand hnull.2 hr) with ⟨y, hy⟩
      exact hnone x y hx hy

theorem connective_eq_error {join : Option Bool → Option Bool → Option Bool} {kind : ExprKind}
    {l r : Datum} {e : EvalError} (h : connective join kind l r = .error e) :
    e = mismatch kind l r := by
  unfold connective at h
  split at h <;> cases h
  rfl

theorem comparison_eq_error {kind : ExprKind} {l r : Datum} {e : EvalError}
    (h : comparison kind l r = .error e) : e = mismatch kind l r := by
  unfold comparison at h
  split at h
  · cases h
  · split at h <;> cases h
    rfl

theorem arithmetic_null_left (kind : ExprKind) (r : Datum) : arithmetic kind .null r = .ok .null :=
  rfl

theorem arithmetic_null_right (kind : ExprKind) (l : Datum) :
    arithmetic kind l .null = .ok .null := by
  simp [arithmetic, isNull]

/-! ### Any operator -/

/-- All six comparisons are evaluated in one way. -/
theorem apply_of_isComparison {kind : ExprKind} (h : kind.isComparison = true) (l r : Datum) :
    apply kind l r = comparison kind l r := by
  cases kind <;> first | rfl | cases h

/-- All five arithmetic operators are evaluated in one way. -/
theorem apply_of_isArithmetic {kind : ExprKind} (h : kind.isArithmetic = true) (l r : Datum) :
    apply kind l r = arithmetic kind l r := by
  cases kind <;> first | rfl | cases h

/-- An operator on values of the announced types gives a value of the type that the
strict policy announces for it. -/
theorem apply_hasType {kind : ExprKind} {l r d : Datum} {s t u : DataType}
    (hl : l.HasType s) (hr : r.HasType t) (hkind : kind.isBinary = true)
    (hu : Promotion.resultType .strict kind s t = .ok u) (h : apply kind l r = .ok d) :
    d.HasType u := by
  rcases ExprKind.isBinary_cases hkind with rfl | rfl | hcompares | hcomputes | rfl
  · rw [← Except.ok.inj hu]
    exact connective_hasType h
  · rw [← Except.ok.inj hu]
    exact connective_hasType h
  · rw [Promotion.resultType_of_isComparison hcompares] at hu
    rw [apply_of_isComparison hcompares] at h
    rw [← Except.ok.inj hu]
    exact comparison_hasType h
  · rw [Promotion.resultType_of_isArithmetic hcomputes] at hu
    rw [apply_of_isArithmetic hcomputes] at h
    rcases hl with rfl | rfl
    · rw [arithmetic_null_left] at h
      exact .inl (Except.ok.inj h).symm
    rcases hr with rfl | rfl
    · rw [arithmetic_null_right] at h
      exact .inl (Except.ok.inj h).symm
    -- Both values are present, so the same question is asked now as when the type was fixed.
    refine (arithmetic_eq_ok h).imp_right fun hd => ?_
    rw [hu] at hd
    exact (Except.ok.inj hd).symm
  · rw [← Except.ok.inj hu, ← Except.ok.inj h]
    exact concatenation_hasType l r

/-- An operator fails for reasons of the values or because it is not defined on such
values. -/
theorem apply_eq_error {kind : ExprKind} (hkind : kind.isBinary = true) {l r : Datum}
    {e : EvalError} (h : apply kind l r = .error e) :
    e.isOfValues = true ∨ e = mismatch kind l r := by
  rcases ExprKind.isBinary_cases hkind with rfl | rfl | hcompares | hcomputes | rfl
  · exact .inr (connective_eq_error h)
  · exact .inr (connective_eq_error h)
  · rw [apply_of_isComparison hcompares] at h
    exact .inr (comparison_eq_error h)
  · rw [apply_of_isArithmetic hcomputes] at h
    exact (arithmetic_eq_error hcomputes h).imp_right And.left
  · cases h

end Datum

/-! ## Expressions -/

namespace Expr

/-- The expressions that are built from constants and columns by the strict policy. -/
inductive StrictlyTyped : Expr → Prop where
  | const (d : Datum) : StrictlyTyped (.const d)
  | field (c : Column) : StrictlyTyped (.field c)
  | binary {k : ExprKind} {l r e : Expr} (left : StrictlyTyped l) (right : StrictlyTyped r)
      (built : binary? .strict k l r = .ok e) : StrictlyTyped e

/-- The columns that an expression reads. -/
def columns : Expr → List Column
  | .const _ => []
  | .field c => [c]
  | .binary _ l r _ => l.columns ++ r.columns

/-- Whether a row holds what the columns of an expression declare, in so far as it has
these columns. -/
def Fits (schema : Schema) (row : Row) (e : Expr) : Prop :=
  ∀ c ∈ e.columns, ∀ d, row.lookup? schema c.name = some d → d.HasType c.dataType

/-- What the type of an expression says about its value on a row. -/
structure SoundOn (schema : Schema) (row : Row) (e : Expr) : Prop where
  /-- A value is missing or has the announced type. -/
  hasType : ∀ d, e.eval schema row = .ok d → d.HasType e.valueType
  /-- No operator is unknown. -/
  supported : ∀ kind, e.eval schema row ≠ .error (.unsupported kind)
  /-- Where a number or an untyped null is announced, only the values can be at fault. -/
  ofValues : e.valueType.isOperand = true →
    ∀ err, e.eval schema row = .error err → err.isOfValues = true

variable {schema : Schema} {row : Row}

/-- An expression that is built has the type that is announced for its operands. -/
theorem binary?_eq_ok {policy : PromotionPolicy} {k : ExprKind} {l r e : Expr}
    (h : binary? policy k l r = .ok e) :
    ∃ t, k.isBinary = true ∧ Promotion.resultType policy k l.valueType r.valueType = .ok t
      ∧ e = .binary k l r t := by
  unfold binary? at h
  split at h
  case isFalse => cases h
  case isTrue hk =>
    rcases bind_eq_ok_iff.1 h with ⟨t, ht, he⟩
    exact ⟨t, hk, ht, (Except.ok.inj he).symm⟩

/-- A row that fits an operator fits both operands. -/
theorem Fits.of_binary {k : ExprKind} {l r : Expr} {t : DataType}
    (h : (binary k l r t).Fits schema row) : l.Fits schema row ∧ r.Fits schema row :=
  List.forall_mem_append.1 h

/-- A constant has the type it announces, and never fails. -/
theorem soundOn_const (d : Datum) : (const d).SoundOn schema row where
  hasType d' h := by
    rw [← Except.ok.inj h]
    exact d.hasType_dataType
  supported kind h := by cases h
  ofValues _ err h := by cases h

/-- On a row that fits, a column has the type it announces, or is not there. -/
theorem soundOn_field {c : Column} (fits : (field c).Fits schema row) :
    (field c).SoundOn schema row := by
  cases hc : row.lookup? schema c.name with
  | none =>
    have heval : (field c).eval schema row = .error (.columnNotFound c.name) := by
      rw [eval, hc]
    constructor <;> simp [heval, EvalError.isOfValues]
  | some d =>
    have heval : (field c).eval schema row = .ok d := by rw [eval, hc]
    constructor <;> simp [heval]
    exact fits c (List.mem_singleton.2 rfl) d hc

/-- An operator keeps the promises of its operands. -/
theorem soundOn_binary {k : ExprKind} {l r : Expr} {t : DataType} (hk : k.isBinary = true)
    (ht : Promotion.resultType .strict k l.valueType r.valueType = .ok t)
    (hl : l.SoundOn schema row) (hr : r.SoundOn schema row) :
    (binary k l r t).SoundOn schema row where
  hasType d h := by
    rcases bind_eq_ok_iff.1 h with ⟨a, ha, h⟩
    rcases bind_eq_ok_iff.1 h with ⟨b, hb, h⟩
    exact Datum.apply_hasType (hl.hasType a ha) (hr.hasType b hb) hk ht h
  supported kind h := by
    rcases bind_eq_error_iff.1 h with h | ⟨a, -, h⟩
    · exact hl.supported kind h
    rcases bind_eq_error_iff.1 h with h | ⟨b, -, h⟩
    · exact hr.supported kind h
    rcases Datum.apply_eq_error hk h with h | h <;> cases h
  ofValues hoperand err h := by
    have hcomputes := Promotion.isArithmetic_of_isOperand hk ht hoperand
    rw [Promotion.resultType_of_isArithmetic hcomputes] at ht
    have hoperands := Promotion.isOperand_of_numeric ht
    rcases bind_eq_error_iff.1 h with h | ⟨a, ha, h⟩
    · exact hl.ofValues hoperands.1 err h
    rcases bind_eq_error_iff.1 h with h | ⟨b, hb, h⟩
    · exact hr.ofValues hoperands.2 err h
    rw [Datum.apply_of_isArithmetic hcomputes] at h
    rcases Datum.arithmetic_eq_error hcomputes h with h | ⟨-, h⟩
    · exact h
    · exact (h ⟨(hl.hasType a ha).isOperand hoperands.1,
        (hr.hasType b hb).isOperand hoperands.2⟩).elim

/-- Types announced by the strict policy hold of the values, by induction on the expression. -/
theorem StrictlyTyped.soundOn {e : Expr} (typed : e.StrictlyTyped)
    (fits : e.Fits schema row) : e.SoundOn schema row := by
  induction typed with
  | const d => exact soundOn_const d
  | field c => exact soundOn_field fits
  | binary _ _ built ihl ihr =>
    rcases binary?_eq_ok built with ⟨t, hk, ht, rfl⟩
    exact soundOn_binary hk ht (ihl fits.of_binary.1) (ihr fits.of_binary.2)

/-- The types of strictly typed expressions are sound on every row that holds what the
columns declare, so the schema of a list of targets announces the types of what its
targets evaluate to. -/
theorem typing_sound (schema : Schema) (row : Row) :
    (∀ e : Expr, e.StrictlyTyped → e.Fits schema row → e.SoundOn schema row)
      ∧ ∀ (targets : List Target) (i : Nat) (t : Target), targets[i]? = some t →
        t.expr.StrictlyTyped → t.expr.Fits schema row →
        ∃ c, (targetsSchema targets).column? i = some c
          ∧ ∀ d, t.expr.eval schema row = .ok d → d.HasType c.dataType := by
  refine ⟨fun e => StrictlyTyped.soundOn, fun targets i t hi typed fits => ?_⟩
  refine ⟨t.column, ?_, (typed.soundOn fits).hasType⟩
  show (targets.map Target.column)[i]? = some t.column
  rw [List.getElem?_map, hi]
  rfl

/-- A short integer column times an integer column. -/
def product : Expr :=
  .binary .multiply (.field ⟨"a", .int2⟩) (.field ⟨"b", .int4⟩) .int4

/-- The product divided by an untyped null. -/
def quotientByNull : Expr :=
  .binary .divide product (.const .null) .int4

/-- A schema with the columns of the product. -/
def factors : Schema :=
  ⟨[⟨"a", .int2⟩, ⟨"b", .int4⟩]⟩

/-- The strict policy accepts the quotient. -/
theorem quotientByNull_strictlyTyped : quotientByNull.StrictlyTyped := by
  have hproduct : binary? .strict .multiply (.field ⟨"a", .int2⟩) (.field ⟨"b", .int4⟩)
      = .ok product := rfl
  have hquotient : binary? .strict .divide product (.const .null) = .ok quotientByNull := rfl
  exact .binary (.binary (.field _) (.field _) hproduct) (.const _) hquotient

/-- The row holds what the columns of the quotient declare. -/
theorem quotientByNull_fits : quotientByNull.Fits factors [.int2 7, .int4 3] := by
  have hvalues : ∀ c ∈ quotientByNull.columns,
      ∃ d, Row.lookup? factors [.int2 7, .int4 3] c.name = some d ∧ d.HasType c.dataType := by
    intro c hc
    simp only [quotientByNull, product, columns, List.cons_append, List.nil_append,
      List.mem_cons, List.not_mem_nil, or_false] at hc
    rcases hc with rfl | rfl
    · exact ⟨.int2 7, rfl, Datum.hasType_dataType _⟩
    · exact ⟨.int4 3, rfl, Datum.hasType_dataType _⟩
  intro c hc d hd
  rcases hvalues c hc with ⟨d', hd', htype⟩
  rw [hd, Option.some.injEq] at hd'
  exact hd' ▸ htype

/-- The quotient by an untyped null keeps its type, in the schema of its target as well. -/
theorem typing_sound_quotientByNull :
    quotientByNull.SoundOn factors [.int2 7, .int4 3]
      ∧ ∃ c, (targetsSchema [⟨quotientByNull, some "n"⟩]).column? 0 = some c
        ∧ ∀ d, quotientByNull.eval factors [.int2 7, .int4 3] = .ok d → d.HasType c.dataType :=
  ⟨(typing_sound _ _).1 _ quotientByNull_strictlyTyped quotientByNull_fits,
    (typing_sound _ _).2 _ 0 ⟨quotientByNull, some "n"⟩ rfl quotientByNull_strictlyTyped
      quotientByNull_fits⟩

end Expr

end QueryGraph
