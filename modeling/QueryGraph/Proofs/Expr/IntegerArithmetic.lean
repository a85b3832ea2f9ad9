import QueryGraph.Proofs.Expr.Typing

/-!
# Arithmetic on integers

Integers of different types are combined in the widest type, and the result is then taken
into the type that the operands call for.  Both steps are checked, so nothing wraps: an
operator fails exactly where there is no result, because the divisor is zero, or where the
result does not fit.

One remainder is the exception.  The least integer of the widest type divided by minus one
leaves nothing, and zero fits any type; but a remainder is only taken where its quotient
fits too, and this quotient does not.

Main definitions:

- {lit}`ExprKind.onIntegers?`: what an operator gives on unbounded integers.
- {lit}`ExprKind.QuotientTooLarge`: the remainder that is refused although it fits.

Main results:

- {lit}`Datum.fitsBits_of_integer?`, {lit}`Datum.integer?_ofInteger`: a type holds the
  integers that fit its bits, and no other.
- {lit}`Datum.integer?_of_apply_eq_ok`: a value on integers is the exact result.
- {lit}`Datum.apply_of_integers`: how an operator ends on integers.
-/

namespace QueryGraph

/-- What an operator gives on unbounded integers.  A quotient is cut toward zero, a
remainder has the sign of the dividend, and nothing is divided by zero. -/
def ExprKind.onIntegers? : ExprKind → Int → Int → Option Int
  | .plus, a, b => some (a + b)
  | .minus, a, b => some (a - b)
  | .multiply, a, b => some (a * b)
  | .divide, a, b => if b = 0 then none else some (a.tdiv b)
  | .modulo, a, b => if b = 0 then none else some (a.tmod b)
  | _, _, _ => none

/-- Whether an operator is asked to divide by zero. -/
def ExprKind.DividesByZero (kind : ExprKind) (b : Int) : Prop :=
  (kind = .divide ∨ kind = .modulo) ∧ b = 0

instance (kind : ExprKind) (b : Int) : Decidable (kind.DividesByZero b) :=
  inferInstanceAs (Decidable (_ ∧ _))

/-- The remainder whose quotient does not fit the widest type: that of the least integer
by minus one. -/
def ExprKind.QuotientTooLarge (kind : ExprKind) (a b : Int) : Prop :=
  kind = .modulo ∧ a = Int64.minValue.toInt ∧ b = -1

instance (kind : ExprKind) (a b : Int) : Decidable (kind.QuotientTooLarge a b) :=
  inferInstanceAs (Decidable (_ ∧ _))

namespace Promotion

/-- The common type of two integer types is the wider one. -/
theorem exists_wider {l r : DataType} (hl : l.isInteger = true) (hr : r.isInteger = true) :
    ∃ t, (∀ kind, numeric .strict kind l r = .ok t) ∧ t.isInteger = true ∧ (t = l ∨ t = r)
      ∧ l.integerBits ≤ t.integerBits ∧ r.integerBits ≤ t.integerBits := by
  cases l <;> cases hl <;> cases r <;> cases hr <;> exact ⟨_, fun _ => rfl, by decide⟩

end Promotion

/-! ## Ranges -/

/-- The range of 64 bits, in figures. -/
theorem fitsBits_wide_iff {v : Int} :
    FitsBits 64 v ↔ -9223372036854775808 ≤ v ∧ v < 9223372036854775808 :=
  Iff.rfl

/-- What fits an integer type fits the widest. -/
theorem FitsBits.wide {t : DataType} (ht : t.isInteger = true) {v : Int}
    (h : FitsBits t.integerBits v) : FitsBits 64 v := by
  rw [fitsBits_wide_iff]
  cases t <;> cases ht <;> simp [FitsBits, DataType.integerBits] at h <;> omega

/-- A quotient of integers of the widest type fits, but for one. -/
theorem fitsBits_tdiv_iff {a b : Int} (ha : FitsBits 64 a) (hb : b ≠ 0) :
    FitsBits 64 (a.tdiv b) ↔ ¬(a = Int64.minValue.toInt ∧ b = -1) := by
  have hmin : Int64.minValue.toInt = -9223372036854775808 := rfl
  rw [fitsBits_wide_iff] at ha ⊢
  rw [hmin]
  by_cases hone : b.natAbs = 1
  · obtain rfl | rfl : b = 1 ∨ b = -1 := by omega
    · rw [Int.tdiv_one]
      omega
    · rw [Int.tdiv_neg, Int.tdiv_one]
      omega
  · -- The quotient is no more than half as large as the dividend.
    have hhalf : (a.tdiv b).natAbs ≤ a.natAbs / 2 := by
      rw [Int.natAbs_tdiv]
      exact Nat.div_le_div_left (by omega) (by decide)
    omega

/-- A remainder fits where the dividend does. -/
theorem fitsBits_tmod {a : Int} (ha : FitsBits 64 a) (b : Int) : FitsBits 64 (a.tmod b) := by
  rw [fitsBits_wide_iff] at ha ⊢
  have hle : (a.tmod b).natAbs ≤ a.natAbs := by
    rw [Int.natAbs_tmod]
    exact Nat.mod_le _ _
  by_cases hsign : 0 ≤ a
  · have := Int.tmod_nonneg b hsign
    omega
  · have hneg := Int.tmod_nonneg b (a := -a) (by omega)
    rw [Int.neg_tmod] at hneg
    omega

namespace Datum

variable {kind : ExprKind} {l r d : Datum} {a b v : Int} {t : DataType}

/-- An integer value fits its type. -/
theorem fitsBits_of_integer? (h : d.integer? = some v) : FitsBits d.dataType.integerBits v := by
  cases d <;> cases h
  · exact ⟨Int16.le_toInt _, Int16.toInt_lt _⟩
  · exact ⟨Int32.le_toInt _, Int32.toInt_lt _⟩
  · exact ⟨Int64.le_toInt _, Int64.toInt_lt _⟩

/-- An integer that fits a type is a value of it. -/
theorem integer?_ofInteger (ht : t.isInteger = true) (h : FitsBits t.integerBits v) :
    (ofInteger t v).integer? = some v := by
  cases t <;> cases ht
  · exact congrArg some (Int16.toInt_ofInt_of_le h.1 h.2)
  · exact congrArg some (Int32.toInt_ofInt_of_le h.1 h.2)
  · exact congrArg some (Int64.toInt_ofInt_of_le h.1 h.2)

/-- A value that is read as an integer has an integer type. -/
theorem isInteger_of_integer? (h : d.integer? = some v) : d.dataType.isInteger = true := by
  rw [← integer?_isSome, h]
  rfl

/-! ## One operator -/

/-- There is a result on unbounded integers unless the divisor is zero. -/
theorem exists_onIntegers? (hkind : kind.isArithmetic = true)
    (hzero : ¬kind.DividesByZero b) : ∃ v, kind.onIntegers? a b = some v := by
  cases kind <;> cases hkind
  · exact ⟨_, rfl⟩
  · exact ⟨_, rfl⟩
  · exact ⟨_, rfl⟩
  · exact ⟨_, if_neg fun hb => hzero ⟨.inl rfl, hb⟩⟩
  · exact ⟨_, if_neg fun hb => hzero ⟨.inr rfl, hb⟩⟩

/-- Quotients are rounded towards zero. -/
theorem onIntegers?_quotient_eq_some_iff :
    ExprKind.onIntegers? .divide a b = some v ↔ b ≠ 0 ∧ a.tdiv b = v := by
  by_cases hb : b = 0 <;> simp [ExprKind.onIntegers?, hb]

/-- Remainders have the sign of the dividend. -/
theorem onIntegers?_remainder_eq_some_iff :
    ExprKind.onIntegers? .modulo a b = some v ↔ b ≠ 0 ∧ a.tmod b = v := by
  by_cases hb : b = 0 <;> simp [ExprKind.onIntegers?, hb]

/-- Division by zero is found before an overflow is. -/
theorem wideResult_of_dividesByZero (h : kind.DividesByZero b) :
    wideResult kind a b = .error .divisionByZero := by
  obtain ⟨rfl | rfl, rfl⟩ := h <;> rfl

/-- In the widest type, a result is given where it fits, and refused in one case more. -/
theorem wideResult_eq (hkind : kind.isArithmetic = true) (ha : FitsBits 64 a)
    (hv : kind.onIntegers? a b = some v) :
    wideResult kind a b =
      if FitsBits 64 v ∧ ¬kind.QuotientTooLarge a b then .ok v
      else .error (.overflow (.operation a kind b)) := by
  have hother : kind ≠ .modulo → (FitsBits 64 v ∧ ¬kind.QuotientTooLarge a b ↔ FitsBits 64 v) :=
    fun hne => and_iff_left fun hlarge => hne hlarge.1
  cases kind <;> cases hkind
  case plus | minus | multiply =>
    cases hv
    simp only [hother nofun]
    rfl
  case divide =>
    obtain ⟨hb, rfl⟩ := onIntegers?_quotient_eq_some_iff.1 hv
    simp only [hother nofun]
    exact if_neg fun h => hb h.2
  case modulo =>
    obtain ⟨hb, rfl⟩ := onIntegers?_remainder_eq_some_iff.1 hv
    have hfits : FitsBits 64 (a.tmod b) ∧ ¬ExprKind.QuotientTooLarge .modulo a b ↔
        FitsBits 64 (a.tdiv b) := by
      rw [fitsBits_tdiv_iff ha hb, and_iff_right (fitsBits_tmod ha b), ExprKind.QuotientTooLarge,
        and_iff_right rfl]
    simp only [hfits]
    exact if_neg fun h => hb h.2

variable (hkind : kind.isArithmetic = true) (ha : l.integer? = some a) (hb : r.integer? = some b)
  (ht : Promotion.numeric .strict kind l.dataType r.dataType = .ok t)

include hkind ha hb ht

/-- Integers are combined in the widest type, and the result is taken into their common
type. -/
theorem apply_of_integer? :
    apply kind l r = wideResult kind a b >>= fun v =>
      if FitsBits t.integerBits v then .ok (ofInteger t v)
      else .error (.overflow (.narrowing v t)) := by
  have hpresent : ∀ {d : Datum} {v : Int}, d.integer? = some v → d.isNull = false ∧
      ∃ x, d.float? = some x := by
    intro d v hd
    cases d <;> cases hd <;> exact ⟨rfl, _, rfl⟩
  obtain ⟨hl, x, hx⟩ := hpresent ha
  obtain ⟨hr, y, hy⟩ := hpresent hb
  rw [apply_of_isArithmetic hkind, arithmetic, hl, hr, hx, hy, ha, hb]
  simp only [ht]
  rfl

/-- Dividing a value by zero fails for that reason, in all widths. -/
theorem apply_of_dividesByZero (hzero : kind.DividesByZero b) :
    apply kind l r = .error .divisionByZero := by
  rw [apply_of_integer? hkind ha hb ht, wideResult_of_dividesByZero hzero]
  rfl

/-- A result is given where it fits the common type, and refused in one case more. -/
theorem apply_of_onIntegers? (hv : kind.onIntegers? a b = some v) :
    ∃ cause, apply kind l r =
      if FitsBits t.integerBits v ∧ ¬kind.QuotientTooLarge a b then .ok (ofInteger t v)
      else .error (.overflow cause) := by
  have hl := isInteger_of_integer? ha
  obtain ⟨t', ht', htype, -, hleft, -⟩ :=
    Promotion.exists_wider hl (isInteger_of_integer? hb)
  obtain rfl : t' = t := Except.ok.inj ((ht' kind).symm.trans ht)
  have hwide := wideResult_eq hkind ((fitsBits_of_integer? ha).wide hl) hv
  rw [apply_of_integer? hkind ha hb ht, hwide]
  by_cases hlarge : kind.QuotientTooLarge a b
  · exact ⟨.operation a kind b, by simp [hlarge, bind, Except.bind]⟩
  by_cases hfits : FitsBits t'.integerBits v
  · have h64 := hfits.wide htype
    exact ⟨.narrowing v t', by simp [hlarge, hfits, h64, bind, Except.bind]⟩
  by_cases h64 : FitsBits 64 v
  · exact ⟨.narrowing v t', by simp [hlarge, hfits, h64, bind, Except.bind]⟩
  · exact ⟨.operation a kind b, by simp [hfits, h64, bind, Except.bind]⟩

omit ht

/-- A value of an operator on integers is an integer of the wider type, the result itself. -/
theorem integer?_of_apply_eq_ok (h : apply kind l r = .ok d) :
    ∃ v, kind.onIntegers? a b = some v ∧ d.integer? = some v
      ∧ (d.dataType = l.dataType ∨ d.dataType = r.dataType)
      ∧ l.dataType.integerBits ≤ d.dataType.integerBits
      ∧ r.dataType.integerBits ≤ d.dataType.integerBits := by
  obtain ⟨t, ht, htype, hoperand, hleft, hright⟩ :=
    Promotion.exists_wider (isInteger_of_integer? ha) (isInteger_of_integer? hb)
  by_cases hzero : kind.DividesByZero b
  · rw [apply_of_dividesByZero hkind ha hb (ht kind) hzero] at h
    cases h
  obtain ⟨v, hv⟩ := exists_onIntegers? (a := a) hkind hzero
  obtain ⟨cause, happly⟩ := apply_of_onIntegers? hkind ha hb (ht kind) hv
  rw [happly] at h
  split at h
  case isTrue hfits =>
    obtain rfl := Except.ok.inj h
    rw [dataType_ofInteger htype]
    exact ⟨v, hv, integer?_ofInteger htype hfits.1, hoperand, hleft, hright⟩
  case isFalse => cases h

/-- Two integers have a common type, and an operator on them divides by zero exactly where
the divisor is zero.  Otherwise there is a result on unbounded integers.  It is too large
exactly where it does not fit the common type, or is the remainder whose quotient is too
large; in all other cases it is given, as a value of the common type. -/
theorem apply_of_integers :
    ∃ t, Promotion.numeric .strict kind l.dataType r.dataType = .ok t
      ∧ (apply kind l r = .error .divisionByZero ↔ kind.DividesByZero b)
      ∧ (¬kind.DividesByZero b → ∃ v, kind.onIntegers? a b = some v
        ∧ ((∃ cause, apply kind l r = .error (.overflow cause)) ↔
          ¬FitsBits t.integerBits v ∨ kind.QuotientTooLarge a b)
        ∧ (FitsBits t.integerBits v → ¬kind.QuotientTooLarge a b →
          ∃ d, apply kind l r = .ok d ∧ d.dataType = t ∧ d.integer? = some v)) := by
  obtain ⟨t, ht, htype, -⟩ :=
    Promotion.exists_wider (isInteger_of_integer? ha) (isInteger_of_integer? hb)
  by_cases hzero : kind.DividesByZero b
  · have herror := apply_of_dividesByZero hkind ha hb (ht kind) hzero
    exact ⟨t, ht kind, iff_of_true herror hzero, fun h => (h hzero).elim⟩
  obtain ⟨v, hv⟩ := exists_onIntegers? (a := a) hkind hzero
  obtain ⟨cause, happly⟩ := apply_of_onIntegers? hkind ha hb (ht kind) hv
  have hgiven : FitsBits t.integerBits v ∧ ¬kind.QuotientTooLarge a b →
      apply kind l r = .ok (ofInteger t v) := fun h => happly.trans (if_pos h)
  have hrefused : ¬(FitsBits t.integerBits v ∧ ¬kind.QuotientTooLarge a b) →
      apply kind l r = .error (.overflow cause) := fun h => happly.trans (if_neg h)
  refine ⟨t, ht kind, iff_of_false ?_ hzero, fun _ => ⟨v, hv, ⟨?_, ?_⟩, ?_⟩⟩
  · rw [happly]
    split <;> simp
  · rintro ⟨cause', herror⟩
    by_cases hboth : FitsBits t.integerBits v ∧ ¬kind.QuotientTooLarge a b
    · rw [hgiven hboth] at herror
      cases herror
    · exact (Decidable.not_and_iff_not_or_not.1 hboth).imp_right Decidable.not_not.1
  · intro h
    exact ⟨cause, hrefused fun hboth => h.elim (· hboth.1) hboth.2⟩
  · intro hfits hlarge
    exact ⟨ofInteger t v, hgiven ⟨hfits, hlarge⟩, dataType_ofInteger htype v,
      integer?_ofInteger htype hfits⟩

omit hkind ha hb

/-- The least short integer divided by minus one is too large for its type, though not for
the type in which it is computed. -/
theorem apply_of_integers_leastShort :
    ExprKind.isArithmetic .divide = true ∧ (int2 Int16.minValue).integer? = some (-32768)
      ∧ (int2 (-1)).integer? = some (-1)
      ∧ ∃ cause, apply .divide (.int2 Int16.minValue) (.int2 (-1)) = .error (.overflow cause) := by
  have hkind : ExprKind.isArithmetic .divide = true := rfl
  have hleast : (int2 Int16.minValue).integer? = some (-32768) := rfl
  have hminus : (int2 (-1)).integer? = some (-1) := rfl
  obtain ⟨t, ht, -, houtcome⟩ := apply_of_integers hkind hleast hminus
  obtain ⟨v, hv, hoverflow, -⟩ := houtcome (by decide)
  obtain rfl : .int2 = t := Except.ok.inj ht
  obtain rfl : 32768 = v := Option.some.inj hv
  exact ⟨hkind, hleast, hminus, hoverflow.2 (.inl (by decide))⟩

/-- The least long integer leaves nothing when it is divided by minus one.  Zero fits, but
the remainder is refused. -/
theorem apply_leastRemainder :
    ExprKind.onIntegers? .modulo Int64.minValue.toInt (-1) = some 0
      ∧ Promotion.numeric .strict .modulo .int8 .int8 = .ok .int8
      ∧ FitsBits DataType.int8.integerBits 0
      ∧ apply .modulo (.int8 Int64.minValue) (.int8 (-1)) =
        .error (.overflow (.operation Int64.minValue.toInt .modulo (-1))) :=
  ⟨rfl, rfl, by decide, rfl⟩

/-- In the narrower types the same remainder is given. -/
example : apply .modulo (.int4 Int32.minValue) (.int4 (-1)) = .ok (.int4 0) := rfl

end Datum

end QueryGraph
