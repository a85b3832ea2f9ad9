import Mathlib.Tactic.SplitIfs
import QueryGraph.Json.Format

/-!
# Reading texts and digits back

The spelling of a text has no quote that is not escaped, so a scanner that looks for the
closing quote stops where the spelling stops, and each escape stands for one character.
Identifiers as names of members are spelled by their digits.

Main definitions:

- {lit}`JsonText.Spelling`: what may stand between quotes.

Main results:

- {lit}`JsonText.spelling_encode`, {lit}`JsonText.decode_encode`: the spelling of a text
  may stand between quotes and stands for the text.
- {lit}`natOfDigits_digitsOfNat`: digits stand for the natural they were taken from.
- {lit}`Json.idOfName?_idName`: names of members stand for their identifiers.
-/

namespace QueryGraph

namespace JsonText

/-- What may stand between quotes: the scanner finds the quote behind it. -/
def Spelling (s : List Char) : Prop :=
  ∀ rest, scan (s ++ '"' :: rest) = some (s, rest)

/-! ## Characters -/

/-- A character that has an escape letter is what the letter stands for. -/
theorem escapedBy?_of_escapeLetter? {c letter : Char} (h : escapeLetter? c = some letter) :
    letter ≠ 'u' ∧ escapedBy? letter = some c := by
  unfold escapeLetter? at h
  split_ifs at h <;> cases h <;> subst_vars <;> decide

/-- Four digits spell a control character. -/
theorem hexQuad?_of_lt : ∀ n < 0x20,
    hexQuad? '0' '0' (Nat.digitChar (n / 16)) (Nat.digitChar (n % 16)) = some n := by
  decide

/-- A character without an escape that is not a control character stands for itself. -/
theorem ne_of_escapeLetter?_eq_none {c : Char} (h : escapeLetter? c = none) :
    c ≠ '"' ∧ c ≠ '\\' := by
  constructor <;> rintro rfl <;> contradiction

/-- The scanner takes a backslash and the letter behind it together. -/
theorem scan_letter {letter c : Char} (hletter : letter ≠ 'u') (h : escapedBy? letter = some c)
    (rest : List Char) :
    scan ('\\' :: letter :: rest) = (scan rest).map fun found =>
      ('\\' :: letter :: found.1, found.2) := by
  rw [scan.eq_3 letter rest fun _ _ _ _ _ hu _ => hletter hu, h]

/-- A character that needs no escape is taken as it is. -/
theorem scan_plain {c : Char} (hquote : c ≠ '"') (hescape : c ≠ '\\')
    (hcontrol : isControl c = false) (rest : List Char) :
    scan (c :: rest) = (scan rest).map fun found => (c :: found.1, found.2) := by
  rw [scan.eq_4 c rest (fun _ _ _ _ _ hc _ => hescape hc) (fun _ _ hc _ => hescape hc),
    if_neg hquote, hcontrol, decide_eq_false hescape]
  rfl

/-- A backslash and a letter stand for one character. -/
theorem decode_letter {letter c : Char} (hletter : letter ≠ 'u')
    (h : escapedBy? letter = some c) (rest : List Char) :
    decode ('\\' :: letter :: rest) = (decode rest).map (c :: ·) := by
  rw [decode.eq_3 letter rest fun _ _ _ _ _ hu _ => hletter hu, h]

/-- A character that needs no escape stands for itself. -/
theorem decode_plain {c : Char} (hescape : c ≠ '\\') (rest : List Char) :
    decode (c :: rest) = (decode rest).map (c :: ·) := by
  rw [decode.eq_4 c rest (fun _ _ _ _ _ hc _ => hescape hc) (fun _ _ hc _ => hescape hc),
    if_neg hescape]

/-- The scanner takes the spelling of a character as it is. -/
theorem scan_encodeChar (c : Char) (rest : List Char) :
    scan (encodeChar c ++ rest) =
      (scan rest).map fun found => (encodeChar c ++ found.1, found.2) := by
  unfold encodeChar
  cases hletter : escapeLetter? c with
  | some letter =>
    rcases escapedBy?_of_escapeLetter? hletter with ⟨hu, hback⟩
    exact scan_letter hu hback rest
  | none =>
    rcases ne_of_escapeLetter?_eq_none hletter with ⟨hquote, hescape⟩
    cases hcontrol : isControl c with
    | false => exact scan_plain hquote hescape hcontrol rest
    | true =>
      have hquad := hexQuad?_of_lt c.toNat (of_decide_eq_true hcontrol)
      simp only [if_true, List.cons_append, List.nil_append, scan, hquad]

/-- The spelling of a character stands for it. -/
theorem decode_encodeChar (c : Char) (rest : List Char) :
    decode (encodeChar c ++ rest) = (decode rest).map (c :: ·) := by
  unfold encodeChar
  cases hletter : escapeLetter? c with
  | some letter =>
    rcases escapedBy?_of_escapeLetter? hletter with ⟨hu, hback⟩
    exact decode_letter hu hback rest
  | none =>
    rcases ne_of_escapeLetter?_eq_none hletter with ⟨-, hescape⟩
    cases hcontrol : isControl c with
    | false => exact decode_plain hescape rest
    | true =>
      have hlt : c.toNat < 0x20 := of_decide_eq_true hcontrol
      have hquad := hexQuad?_of_lt c.toNat hlt
      have hlow : isLowSurrogate c.toNat = false := by
        simp only [isLowSurrogate, Bool.and_eq_false_iff, decide_eq_false_iff_not]
        omega
      have hhigh : isHighSurrogate c.toNat = false := by
        simp only [isHighSurrogate, Bool.and_eq_false_iff, decide_eq_false_iff_not]
        omega
      simp only [if_true, List.cons_append, List.nil_append, decode, hquad, hlow, hhigh,
        Bool.false_eq_true, if_false, Char.ofNat_toNat]

/-! ## Texts -/

/-- The spelling of a text may stand between quotes. -/
theorem spelling_encode (text : List Char) : Spelling (encode text) := by
  intro rest
  induction text with
  | nil => rfl
  | cons c text ih =>
    show scan ((encodeChar c ++ encode text) ++ _) = some (encodeChar c ++ encode text, rest)
    rw [List.append_assoc, scan_encodeChar, ih, Option.map_some]

/-- The spelling of a text stands for it. -/
theorem decode_encode (text : List Char) : decode (encode text) = some text := by
  induction text with
  | nil => rfl
  | cons c text ih =>
    show decode (encodeChar c ++ encode text) = _
    rw [decode_encodeChar, ih, Option.map_some]

/-- Characters that need no escape may stand between quotes as they are. -/
theorem spelling_of_plain {s : List Char}
    (h : ∀ c ∈ s, c ≠ '"' ∧ c ≠ '\\' ∧ isControl c = false) : Spelling s := by
  intro rest
  induction s with
  | nil => rfl
  | cons c s ih =>
    rcases h c List.mem_cons_self with ⟨hquote, hescape, hcontrol⟩
    have hs := ih fun d hd => h d (List.mem_cons_of_mem c hd)
    rw [List.cons_append, scan_plain hquote hescape hcontrol, hs, Option.map_some]

end JsonText

/-! ## Digits -/

/-- The character of a digit stands for it. -/
theorem Digit.ofChar?_toChar (d : Digit) : ofChar? d.toChar = some d := by
  revert d
  decide

/-- Reading what was written item by item. -/
theorem mapM_map_eq_some {α β γ : Type} {items : List α} {write : α → β} {read : β → Option γ}
    {value : α → γ} (h : ∀ a ∈ items, read (write a) = some (value a)) :
    (items.map write).mapM read = some (items.map value) := by
  induction items with
  | nil => rfl
  | cons a items ih =>
    have hrest := ih fun b hb => h b (List.mem_cons_of_mem a hb)
    rw [List.map_cons, List.mapM_cons, h a List.mem_cons_self, hrest]
    rfl

/-- Printed digits are digits. -/
theorem mapM_ofChar?_toChar (ds : List Digit) :
    (ds.map Digit.toChar).mapM Digit.ofChar? = some ds := by
  rw [mapM_map_eq_some fun d _ => Digit.ofChar?_toChar d, List.map_id']

/-- A natural below ten has one digit. -/
theorem digitsOfNat_of_lt {n : Nat} (h : n < 10) : digitsOfNat n = [⟨n, h⟩] := by
  have hchar : Digit.ofChar? (Nat.digitChar n) = some ⟨n, h⟩ := Digit.ofChar?_toChar ⟨n, h⟩
  rw [digitsOfNat, Nat.toDigits_of_lt_base h, List.filterMap_cons_some hchar, List.filterMap_nil]

/-- Any other natural has one digit more than its tenth. -/
theorem digitsOfNat_of_le {n : Nat} (h : 10 ≤ n) :
    digitsOfNat n = digitsOfNat (n / 10) ++ [⟨n % 10, Nat.mod_lt n (by decide)⟩] := by
  have hchar : Digit.ofChar? (Nat.digitChar (n % 10)) = some ⟨n % 10, Nat.mod_lt n (by decide)⟩ :=
    Digit.ofChar?_toChar ⟨n % 10, Nat.mod_lt n (by decide)⟩
  rw [digitsOfNat, Nat.toDigits_of_base_le (by decide) h, List.filterMap_append,
    List.filterMap_cons_some hchar, List.filterMap_nil, digitsOfNat]

/-- One more digit at the end shifts the number by a place. -/
theorem natOfDigits_append_singleton (ds : List Digit) (d : Digit) :
    natOfDigits (ds ++ [d]) = 10 * natOfDigits ds + d.val := by
  unfold natOfDigits
  rw [List.foldl_append, List.foldl_cons, List.foldl_nil]

/-- The digits of a natural stand for it. -/
theorem natOfDigits_digitsOfNat (n : Nat) : natOfDigits (digitsOfNat n) = n := by
  induction n using Nat.strongRecOn with
  | ind n ih =>
    rcases Nat.lt_or_ge n 10 with hlt | hge
    · rw [digitsOfNat_of_lt hlt]
      exact Nat.zero_add n
    · rw [digitsOfNat_of_le hge, natOfDigits_append_singleton, ih (n / 10) (by omega)]
      exact Nat.div_add_mod n 10

theorem digitsOfNat_ne_nil (n : Nat) : digitsOfNat n ≠ [] := by
  rcases Nat.lt_or_ge n 10 with hlt | hge
  · rw [digitsOfNat_of_lt hlt]
    exact List.cons_ne_nil _ _
  · rw [digitsOfNat_of_le hge]
    exact List.append_ne_nil_of_right_ne_nil _ (List.cons_ne_nil _ _)

/-- A zero in front is the only digit. -/
theorem eq_nil_of_digitsOfNat_eq_zero_cons {n : Nat} {ds : List Digit}
    (h : digitsOfNat n = 0 :: ds) : ds = [] := by
  induction n using Nat.strongRecOn generalizing ds with
  | ind n ih =>
    rcases Nat.lt_or_ge n 10 with hlt | hge
    · rw [digitsOfNat_of_lt hlt] at h
      exact (List.cons.inj h).2.symm
    · -- The digits of the tenth of the number start with that zero, so the tenth is zero.
      rw [digitsOfNat_of_le hge] at h
      rcases List.append_eq_cons_iff.1 h with ⟨hnil, -⟩ | ⟨es, hes, -⟩
      · exact absurd hnil (digitsOfNat_ne_nil _)
      · have hzero := natOfDigits_digitsOfNat (n / 10)
        rw [hes, ih (n / 10) (by omega) hes] at hzero
        have htenth : n / 10 = 0 := hzero.symm
        omega

namespace Json

/-- The name of a member stands for the identifier that it spells. -/
theorem idOfName?_idName (id : NodeId) : idOfName? (idName id) = some id := by
  unfold idOfName? idName
  rw [mapM_ofChar?_toChar, Option.bind_eq_bind, Option.bind_some, natOfDigits_digitsOfNat,
    if_pos ⟨rfl, id.toNat_lt⟩, UInt64.ofNat_toNat]

/-- Digits need no escape. -/
theorem spelling_idName (id : NodeId) : JsonText.Spelling (idName id) := by
  have hplain : ∀ d : Digit, d.toChar ≠ '"' ∧ d.toChar ≠ '\\' ∧
      JsonText.isControl d.toChar = false := by
    decide
  refine JsonText.spelling_of_plain fun c hc => ?_
  rcases List.mem_map.1 hc with ⟨d, -, rfl⟩
  exact hplain d

end Json

end QueryGraph
