import QueryGraph.Json.Parser
import QueryGraph.Json.Printer
import QueryGraph.Proofs.Json.Text

/-!
# Parsing what was printed

A value that is printed is parsed again as the same value: it is spelled with as few
characters as possible, and what follows a part of it never goes on with that part.  The
length of the text is bound enough for the parser.

Main definitions:

- {lit}`Json.Spelled`: values whose strings and names may stand between quotes.
- {lit}`Json.Ends`: what may follow a value.

Main results:

- {lit}`Json.parseNumber_print`: numbers are parsed as they were printed.
- {lit}`Json.parse?_print`: so are values.
-/

namespace QueryGraph

namespace Json

/-! ## Numbers -/

/-- Whether a text does not go on with a number. -/
def Ends : List Char → Prop
  | [] => True
  | c :: _ => Digit.ofChar? c = none ∧ c ≠ '.' ∧ c ≠ 'e' ∧ c ≠ 'E'

/-- Whether a text does not start with a digit. -/
def EndsDigits : List Char → Prop
  | [] => True
  | c :: _ => Digit.ofChar? c = none

/-- What does not go on with a number does not go on with its digits. -/
theorem Ends.endsDigits {rest : List Char} (h : Ends rest) : EndsDigits rest := by
  cases rest with
  | nil => trivial
  | cons c rest => exact h.1

/-- The digits in front are taken, up to the first character that is none. -/
theorem spanDigits_map_toChar (ds : List Digit) {rest : List Char} (h : EndsDigits rest) :
    spanDigits (ds.map Digit.toChar ++ rest) = (ds, rest) := by
  induction ds with
  | nil =>
    cases rest with
    | nil => rfl
    | cons c rest =>
      rw [List.map_nil, List.nil_append, spanDigits, show Digit.ofChar? c = none from h]
  | cons d ds ih =>
    rw [List.map_cons, List.cons_append, spanDigits, Digit.ofChar?_toChar, ih]

/-- Digits are parsed as they were printed, if there are any. -/
theorem parseDigits_map_toChar {ds : List Digit} (hne : ds ≠ []) {rest : List Char}
    (h : EndsDigits rest) : parseDigits (ds.map Digit.toChar ++ rest) = some (ds, rest) := by
  rw [parseDigits, spanDigits_map_toChar ds h]
  cases ds with
  | nil => contradiction
  | cons d ds => rfl

/-- The part before the point has no zero in front of other digits. -/
theorem parseWhole_natText (n : Nat) {rest : List Char} (h : EndsDigits rest) :
    parseWhole (natText n ++ rest) = some (n, rest) := by
  have hvalue := natOfDigits_digitsOfNat n
  have hzero := @eq_nil_of_digitsOfNat_eq_zero_cons n
  rw [parseWhole, natText, parseDigits_map_toChar (digitsOfNat_ne_nil n) h]
  generalize digitsOfNat n = ds at hvalue hzero
  rw [Option.bind_eq_bind, Option.bind_some]
  split
  next d ds rest heq =>
    have hds := hzero (Prod.mk.inj heq).1
    contradiction
  next digits rest _ heq =>
    rw [← (Prod.mk.inj heq).1, ← (Prod.mk.inj heq).2, hvalue]
    rfl

/-- The text of the digits after the point. -/
def fractionText (ds : List Digit) : List Char :=
  if ds.isEmpty then [] else '.' :: ds.map Digit.toChar

/-- The text of an exponent. -/
def exponentText : Option Int → List Char
  | none => []
  | some e => 'e' :: (if e < 0 then '-' else '+') :: natText e.natAbs

/-- A number is printed as sign, whole part, fraction and exponent. -/
theorem print_eq (n : JsonNumber) :
    n.print = (if n.negative then ['-'] else []) ++
      (natText n.whole ++ (fractionText n.fraction ++ exponentText n.exponent)) := by
  rw [JsonNumber.print, List.append_assoc, List.append_assoc]
  rfl

theorem endsDigits_exponentText (e : Option Int) {rest : List Char} (h : Ends rest) :
    EndsDigits (exponentText e ++ rest) := by
  cases e with
  | none => exact h.endsDigits
  | some e => rfl

theorem endsDigits_fractionText (ds : List Digit) {rest : List Char} (h : EndsDigits rest) :
    EndsDigits (fractionText ds ++ rest) := by
  cases ds with
  | nil => exact h
  | cons d ds => rfl

/-- An exponent is parsed as it was printed, or found absent. -/
theorem parseExponent_exponentText (e : Option Int) {rest : List Char} (h : Ends rest) :
    parseExponent (exponentText e ++ rest) = some (e, rest) := by
  cases e with
  | none =>
    cases rest with
    | nil => rfl
    | cons c rest => simp [exponentText, parseExponent, h.2.2.1, h.2.2.2]
  | some e =>
    have hdigits := parseDigits_map_toChar (digitsOfNat_ne_nil e.natAbs) h.endsDigits
    have hvalue := natOfDigits_digitsOfNat e.natAbs
    have hmagnitude : (if e < 0 then -(e.natAbs : Int) else e.natAbs) = e := by split <;> omega
    simp only [exponentText, natText]
    generalize e.natAbs = magnitude at hdigits hvalue hmagnitude ⊢
    by_cases hneg : e < 0
    · rw [if_pos hneg] at hmagnitude
      simp [parseExponent, parseExponentDigits, hneg, hdigits, hvalue, hmagnitude]
    · rw [if_neg hneg] at hmagnitude
      simp [parseExponent, parseExponentDigits, hneg, hdigits, hvalue, hmagnitude]

/-- A fraction is parsed as it was printed, and the exponent is left. -/
theorem parseFraction_fractionText (ds : List Digit) {e : Option Int} {rest : List Char}
    (h : Ends rest) :
    parseFraction (fractionText ds ++ (exponentText e ++ rest)) =
      some (ds, exponentText e ++ rest) := by
  cases ds with
  | cons d ds =>
    exact parseDigits_map_toChar (List.cons_ne_nil d ds) (endsDigits_exponentText e h)
  | nil =>
    show parseFraction (exponentText e ++ rest) = _
    cases e with
    | some e => rfl
    | none =>
      cases rest with
      | nil => rfl
      | cons c rest =>
        show parseFraction (c :: rest) = some ([], c :: rest)
        rw [parseFraction]
        intro _ hc
        exact h.2.1 (List.cons.inj hc).1

/-- What stands behind the sign is parsed part by part. -/
theorem parseUnsigned_print (n : JsonNumber) {rest : List Char} (h : Ends rest) :
    parseUnsigned n.negative
        (natText n.whole ++ (fractionText n.fraction ++ (exponentText n.exponent ++ rest))) =
      some (n, rest) := by
  have hwhole := parseWhole_natText n.whole
    (endsDigits_fractionText n.fraction (endsDigits_exponentText n.exponent h))
  simp only [parseUnsigned, hwhole, parseFraction_fractionText n.fraction h,
    parseExponent_exponentText n.exponent h, Option.bind_eq_bind, Option.bind_some]
  rfl

/-- The text of a natural starts with a digit. -/
theorem exists_natText_eq (n : Nat) :
    ∃ (d : Digit) (cs : List Char), natText n = d.toChar :: cs := by
  unfold natText
  cases h : digitsOfNat n with
  | nil => exact absurd h (digitsOfNat_ne_nil n)
  | cons d ds => exact ⟨d, ds.map Digit.toChar, rfl⟩

/-- A number is parsed as it was printed. -/
theorem parseNumber_print (n : JsonNumber) {rest : List Char} (h : Ends rest) :
    parseNumber (n.print ++ rest) = some (n, rest) := by
  have hunsigned := parseUnsigned_print n h
  rw [print_eq]
  cases hsign : n.negative with
  | true =>
    rw [hsign] at hunsigned
    simp only [if_true, List.append_assoc]
    exact hunsigned
  | false =>
    rw [hsign] at hunsigned
    rcases exists_natText_eq n.whole with ⟨d, cs, hd⟩
    have hnot : ∀ d : Digit, d.toChar ≠ '-' := by decide
    simp only [Bool.false_eq_true, if_false, List.nil_append, List.append_assoc]
    rw [hd] at hunsigned ⊢
    rw [List.cons_append, parseNumber]
    · exact hunsigned
    · exact fun _ hc => hnot d (List.cons.inj hc).1

/-! ## Values -/

mutual

/-- Whether all strings and names in a value may stand between quotes. -/
def Spelled : Json → Prop
  | .str s => JsonText.Spelling s
  | .arr items => SpelledItems items
  | .obj members => SpelledMembers members
  | _ => True

/-- Whether all strings and names in some items may stand between quotes. -/
def SpelledItems : List Json → Prop
  | [] => True
  | j :: rest => j.Spelled ∧ SpelledItems rest

/-- Whether all strings and names in some members may stand between quotes. -/
def SpelledMembers : List (List Char × Json) → Prop
  | [] => True
  | (name, j) :: rest => JsonText.Spelling name ∧ j.Spelled ∧ SpelledMembers rest

end

theorem skipBlanks_cons {c : Char} (h : isBlank c = false) (cs : List Char) :
    skipBlanks (c :: cs) = c :: cs :=
  List.dropWhile_cons_of_neg (by rw [h]; exact Bool.false_ne_true)

/-- A number starts with a sign or a digit. -/
theorem exists_print_number_eq (n : JsonNumber) :
    ∃ c cs, n.print = c :: cs ∧ (c = '-' ∨ ∃ d : Digit, c = d.toChar) := by
  rw [print_eq]
  cases n.negative with
  | true => exact ⟨'-', _, rfl, .inl rfl⟩
  | false =>
    rcases exists_natText_eq n.whole with ⟨d, cs, hd⟩
    rw [hd]
    exact ⟨d.toChar, _, rfl, .inr ⟨d, rfl⟩⟩

/-- No other value starts with a sign or a digit, and neither is blank or a bracket. -/
theorem numberStart_ne {c : Char} (h : c = '-' ∨ ∃ d : Digit, c = d.toChar) :
    isBlank c = false ∧ c ≠ ']' ∧ c ≠ 'n' ∧ c ≠ 't' ∧ c ≠ 'f' ∧ c ≠ '"' ∧ c ≠ '[' ∧ c ≠ '\x7b' := by
  rcases h with rfl | ⟨d, rfl⟩
  · decide
  · revert d
    decide

/-- A value starts with a character that is neither blank nor a closing bracket. -/
theorem exists_print_eq (j : Json) :
    ∃ c cs, j.print = c :: cs ∧ isBlank c = false ∧ c ≠ ']' := by
  cases j with
  | null => exact ⟨'n', _, rfl, rfl, by decide⟩
  | bool b => cases b <;> exact ⟨_, _, rfl, rfl, by decide⟩
  | num n =>
    rcases exists_print_number_eq n with ⟨c, cs, hprint, hstart⟩
    rcases numberStart_ne hstart with ⟨hblank, hbracket, -⟩
    exact ⟨c, cs, hprint, hblank, hbracket⟩
  | str s => exact ⟨'"', _, rfl, rfl, by decide⟩
  | arr items => cases items <;> exact ⟨'[', _, rfl, rfl, by decide⟩
  | obj members => cases members <;> exact ⟨'\x7b', _, rfl, rfl, by decide⟩

/-- A value that starts like a number is parsed as one. -/
theorem parseValue_print_number (n : JsonNumber) {rest : List Char} (h : Ends rest)
    (bound : Nat) : parseValue (bound + 1) (n.print ++ rest) = some (.num n, rest) := by
  have hparse := parseNumber_print n h
  rcases exists_print_number_eq n with ⟨c, cs, hprint, hstart⟩
  rcases numberStart_ne hstart with ⟨hblank, -, hn, ht, hf, hquote, hbracket, hbrace⟩
  rw [hprint, List.cons_append] at hparse ⊢
  rw [parseValue, skipBlanks_cons hblank]
  split <;> simp_all

theorem ends_printItems (items : List Json) (rest : List Char) :
    Ends (printItems items ++ rest) := by
  cases items <;> exact ⟨rfl, by decide, by decide, by decide⟩

theorem ends_printMembers (members : List (List Char × Json)) (rest : List Char) :
    Ends (printMembers members ++ rest) := by
  cases members with
  | nil => exact ⟨rfl, by decide, by decide, by decide⟩
  | cons m members => exact ⟨rfl, by decide, by decide, by decide⟩

/-- An array whose first item is at hand. -/
theorem parseValue_array {c : Char} (hblank : isBlank c = false) (hbracket : c ≠ ']')
    (cs : List Char) (bound : Nat) :
    parseValue (bound + 1) ('[' :: c :: cs) =
      (parseValue bound (c :: cs)).bind fun first =>
        (parseItems bound first.2).bind fun others =>
          some (.arr (first.1 :: others.1), others.2) := by
  rw [parseValue, skipBlanks_cons rfl]
  simp only [skipBlanks_cons hblank]
  split
  next heq => exact absurd (List.cons.inj heq).1 hbracket
  next => rfl

/-- An object whose first name is at hand. -/
theorem parseValue_object (cs : List Char) (bound : Nat) :
    parseValue (bound + 1) ('\x7b' :: '"' :: cs) =
      (parseName ('"' :: cs)).bind fun name =>
        (parseValue bound name.2).bind fun first =>
          (parseMembers bound first.2).bind fun others =>
            some (.obj ((name.1, first.1) :: others.1), others.2) :=
  rfl

/-- The name of a member is parsed with the colon behind it. -/
theorem parseName_print {name : List Char} (h : JsonText.Spelling name) (rest : List Char) :
    parseName ('"' :: (name ++ '"' :: ':' :: rest)) = some (name, rest) := by
  rw [parseName, skipBlanks_cons rfl]
  simp only [h (':' :: rest), Option.bind_eq_bind, Option.bind_some]
  rfl

mutual

/-- A value is parsed as it was printed, with any bound that is not below the length of its
text. -/
theorem parseValue_print : ∀ (j : Json) {bound : Nat} {rest : List Char}, j.Spelled →
    j.print.length ≤ bound → Ends rest → parseValue bound (j.print ++ rest) = some (j, rest)
  | j, 0, _, _, hbound, _ => by
    rcases exists_print_eq j with ⟨c, cs, hprint, -⟩
    rw [hprint] at hbound
    exact absurd hbound (Nat.not_succ_le_zero _)
  | .null, _ + 1, _, _, _, _ => rfl
  | .bool true, _ + 1, _, _, _, _ => rfl
  | .bool false, _ + 1, _, _, _, _ => rfl
  | .num n, bound + 1, _, _, _, hends => parseValue_print_number n hends bound
  | .str s, bound + 1, rest, hspelled, _, _ => by
    have hscan : JsonText.scan (s ++ '"' :: rest) = some (s, rest) := hspelled rest
    rw [print, List.append_assoc, List.cons_append, List.singleton_append, parseValue,
      skipBlanks_cons rfl]
    simp only [hscan, Option.map_some]
  | .arr [], _ + 1, _, _, _, _ => rfl
  | .arr (j :: items), bound + 1, rest, hspelled, hbound, _ => by
    rw [print, List.length_append, List.length_cons] at hbound
    have hfirst : parseValue bound (j.print ++ (printItems items ++ rest)) =
        some (j, printItems items ++ rest) :=
      parseValue_print j hspelled.1 (by omega) (ends_printItems items rest)
    have hothers : parseItems bound (printItems items ++ rest) = some (items, rest) :=
      parseItems_print items hspelled.2 (by omega)
    rcases exists_print_eq j with ⟨c, cs, hprint, hblank, hbracket⟩
    rw [print, List.cons_append, List.cons_append, List.append_assoc]
    rw [hprint, List.cons_append] at hfirst ⊢
    rw [parseValue_array hblank hbracket, hfirst, Option.bind_some, hothers, Option.bind_some]
  | .obj [], _ + 1, _, _, _, _ => rfl
  | .obj ((name, j) :: members), bound + 1, rest, hspelled, hbound, _ => by
    simp only [print, List.length_append, List.length_cons] at hbound
    have hname := parseName_print hspelled.1 (j.print ++ (printMembers members ++ rest))
    have hfirst : parseValue bound (j.print ++ (printMembers members ++ rest)) =
        some (j, printMembers members ++ rest) :=
      parseValue_print j hspelled.2.1 (by omega) (ends_printMembers members rest)
    have hothers : parseMembers bound (printMembers members ++ rest) = some (members, rest) :=
      parseMembers_print members hspelled.2.2 (by omega)
    simp only [print, List.cons_append, List.append_assoc]
    rw [parseValue_object, hname, Option.bind_some, hfirst, Option.bind_some, hothers,
      Option.bind_some]

/-- The items behind the first one are parsed as they were printed. -/
theorem parseItems_print : ∀ (items : List Json) {bound : Nat} {rest : List Char},
    SpelledItems items → (printItems items).length ≤ bound →
    parseItems bound (printItems items ++ rest) = some (items, rest)
  | items, 0, _, _, hbound => by cases items <;> exact absurd hbound (Nat.not_succ_le_zero _)
  | [], _ + 1, _, _, _ => rfl
  | j :: items, bound + 1, rest, hspelled, hbound => by
    rw [printItems, List.length_append, List.length_cons] at hbound
    have hfirst : parseValue bound (j.print ++ (printItems items ++ rest)) =
        some (j, printItems items ++ rest) :=
      parseValue_print j hspelled.1 (by omega) (ends_printItems items rest)
    have hothers : parseItems bound (printItems items ++ rest) = some (items, rest) :=
      parseItems_print items hspelled.2 (by omega)
    rw [printItems, List.cons_append, List.cons_append, List.append_assoc, parseItems,
      skipBlanks_cons rfl]
    simp only [hfirst, hothers, Option.bind_eq_bind, Option.bind_some]
    rfl

/-- The members behind the first one are parsed with their names and in their order. -/
theorem parseMembers_print : ∀ (members : List (List Char × Json)) {bound : Nat}
    {rest : List Char}, SpelledMembers members → (printMembers members).length ≤ bound →
    parseMembers bound (printMembers members ++ rest) = some (members, rest)
  | members, 0, _, _, hbound => by
    cases members with
    | nil => exact absurd hbound (Nat.not_succ_le_zero _)
    | cons m members => exact absurd hbound (Nat.not_succ_le_zero _)
  | [], _ + 1, _, _, _ => rfl
  | (name, j) :: members, bound + 1, rest, hspelled, hbound => by
    simp only [printMembers, List.length_append, List.length_cons] at hbound
    have hname := parseName_print hspelled.1 (j.print ++ (printMembers members ++ rest))
    have hfirst : parseValue bound (j.print ++ (printMembers members ++ rest)) =
        some (j, printMembers members ++ rest) :=
      parseValue_print j hspelled.2.1 (by omega) (ends_printMembers members rest)
    have hothers : parseMembers bound (printMembers members ++ rest) = some (members, rest) :=
      parseMembers_print members hspelled.2.2 (by omega)
    simp only [printMembers, List.cons_append, List.append_assoc]
    rw [parseMembers, skipBlanks_cons rfl]
    simp only [hname, hfirst, hothers, Option.bind_eq_bind, Option.bind_some]
    rfl

end

/-- A value is parsed as it was printed. -/
theorem parse?_print {j : Json} (h : j.Spelled) : parse? j.print = some j := by
  have hparse : parseValue (j.print.length + 1) (j.print ++ []) = some (j, []) :=
    parseValue_print j h (Nat.le_succ _) trivial
  rw [List.append_nil] at hparse
  simp only [parse?, hparse, Option.bind_eq_bind, Option.bind_some]
  rfl

end Json

end QueryGraph
