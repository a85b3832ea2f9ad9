import Mathlib.Data.List.Nodup
import QueryGraph.Node.Target
import QueryGraph.Proofs.Expr.ExactIntegers

/-!
# Reading the text of an expression

The text of an expression tells its shape.  Operators stand between their operands without
any order of precedence, so only the parentheses around nested operators say what belongs
together.  They are enough, as long as the texts of constants and columns cannot be taken
for something else: words without blanks, parentheses and quotes, or quoted texts.

Read from the left, the text of an operand shows where it ends, whatever follows it: a word
goes on up to the next blank or closing parenthesis, a quoted text up to the next quote, and
a nested operator up to the end of its right operand, which is read in the same way.

Main definitions:

- {lit}`IsLeafText`: words and quoted texts.
- {lit}`Expr.Legible`: expressions over such texts.
- {lit}`Expr.ReadsAs`: expressions of one shape, with the same operators and the same texts.

Main results:

- {lit}`Expr.textDetermines_of_legible`: an operand and its end are told by the text.
- {lit}`Expr.render_eq_iff_readsAs`: equal texts are read alike, and so are equal names of
  output columns.
-/

namespace QueryGraph

/-! ## Texts that show where they end -/

/-- If the items of two lists have a property that the items behind them lack, what stands
in front of equal lists is equal. -/
theorem span_append_inj {α : Type} {p : α → Bool} {s t rest rest' : List α}
    (hs : ∀ c ∈ s, p c = true) (ht : ∀ c ∈ t, p c = true)
    (hrest : ∀ c ∈ rest.head?, p c = false) (hrest' : ∀ c ∈ rest'.head?, p c = false)
    (h : s ++ rest = t ++ rest') : s = t ∧ rest = rest' := by
  have htake : ∀ (s rest : List α), (∀ c ∈ s, p c = true) → (∀ c ∈ rest.head?, p c = false) →
      (s ++ rest).takeWhile p = s := by
    intro s rest hs hrest
    rw [List.takeWhile_append_of_pos hs]
    cases rest with
    | nil => simp
    | cons c rest => simp [hrest c rfl]
  obtain rfl : s = t := by rw [← htake s rest hs hrest, h, htake t rest' ht hrest']
  exact ⟨rfl, List.append_cancel_left h⟩

/-- Whether a character may stand in a word: it is no blank, parenthesis or quote. -/
def isWordChar (c : Char) : Bool :=
  c ≠ ' ' && c ≠ '(' && c ≠ ')' && c ≠ '\''

/-- A text without blanks, parentheses and quotes. -/
def IsWord (cs : List Char) : Prop :=
  ∀ c ∈ cs, isWordChar c = true

instance (cs : List Char) : Decidable (IsWord cs) :=
  decidable_of_iff (cs.all isWordChar = true) List.all_eq_true

/-- A text in quotes, without a quote inside. -/
def IsQuoted (cs : List Char) : Prop :=
  ∃ inner : List Char, '\'' ∉ inner ∧ cs = '\'' :: (inner ++ ['\''])

/-- A word or a quoted text. -/
def IsLeafText (cs : List Char) : Prop :=
  IsWord cs ∨ IsQuoted cs

/-- Whether an operand may end before a text: nothing follows, or a blank or a closing
parenthesis. -/
def EndsOperand (rest : List Char) : Prop :=
  ∀ c ∈ rest.head?, c = ' ' ∨ c = ')'

variable {cs ds rest rest' : List Char}

theorem endsOperand_nil : EndsOperand [] := by
  simp [EndsOperand]

theorem endsOperand_blank (cs : List Char) : EndsOperand (' ' :: cs) := by
  simp [EndsOperand]

theorem endsOperand_close (cs : List Char) : EndsOperand (')' :: cs) := by
  simp [EndsOperand]

/-- What stands behind an operand does not go on with a word. -/
theorem EndsOperand.isWordChar_eq_false (h : EndsOperand rest) :
    ∀ c ∈ rest.head?, isWordChar c = false := by
  intro c hc
  rcases h c hc with rfl | rfl <;> rfl

/-- A word with its end does not start with an opening parenthesis or a quote. -/
theorem IsWord.head_append (hcs : IsWord cs) (hrest : EndsOperand rest) {c : Char}
    (hc : c ∈ (cs ++ rest).head?) : c ≠ '(' ∧ c ≠ '\'' := by
  cases cs with
  | nil =>
    rcases hrest c hc with rfl | rfl <;> decide
  | cons d cs =>
    obtain rfl : d = c := Option.some.inj hc
    have hword := hcs d List.mem_cons_self
    simp only [isWordChar, Bool.and_eq_true, decide_eq_true_eq] at hword
    exact ⟨hword.1.1.2, hword.2⟩

/-- The text of a leaf does not start with a parenthesis. -/
theorem IsLeafText.head_append (hcs : IsLeafText cs) (hrest : EndsOperand rest) {c : Char}
    (hc : c ∈ (cs ++ rest).head?) : c ≠ '(' := by
  rcases hcs with hword | ⟨inner, -, rfl⟩
  · exact (hword.head_append hrest hc).1
  · obtain rfl : '\'' = c := Option.some.inj hc
    decide

/-- A word or a quoted text is told by what starts with it, and so is what follows. -/
theorem IsLeafText.append_inj (hcs : IsLeafText cs) (hds : IsLeafText ds)
    (hrest : EndsOperand rest) (hrest' : EndsOperand rest') (h : cs ++ rest = ds ++ rest') :
    cs = ds ∧ rest = rest' := by
  rcases hcs with hcs | ⟨inner, hinner, rfl⟩ <;> rcases hds with hds | ⟨inner', hinner', rfl⟩
  · exact span_append_inj hcs hds hrest.isWordChar_eq_false hrest'.isWordChar_eq_false h
  · exact absurd rfl (hcs.head_append hrest (h ▸ rfl)).2
  · exact absurd rfl (hds.head_append hrest' (h ▸ rfl)).2
  · have hinside : inner ++ '\'' :: rest = inner' ++ '\'' :: rest' := by
      simpa using h
    have hne : ∀ c ∈ inner, (c != '\'') = true := fun c hc =>
      bne_iff_ne.2 (ne_of_mem_of_not_mem hc hinner)
    have hne' : ∀ c ∈ inner', (c != '\'') = true := fun c hc =>
      bne_iff_ne.2 (ne_of_mem_of_not_mem hc hinner')
    obtain ⟨rfl, hquotes⟩ := span_append_inj hne hne' (by simp) (by simp) hinside
    exact ⟨rfl, (List.cons.inj hquotes).2⟩

/-! ## Operators -/

namespace ExprKind

variable {k k' : ExprKind}

/-- The list of operators is complete. -/
theorem mem_binaryKinds_iff : k ∈ binaryKinds ↔ k.isBinary = true := by
  unfold binaryKinds
  rw [List.mem_filter]
  exact and_iff_right (Enumeration.mem_members k)

/-- No two operators have the same spelling. -/
theorem symbol_inj (hk : k.isBinary = true) (hk' : k'.isBinary = true)
    (h : k.symbol = k'.symbol) : k = k' := by
  have hnodup : (binaryKinds.map symbol).Nodup := by decide
  exact List.inj_on_of_nodup_map hnodup (mem_binaryKinds_iff.2 hk) (mem_binaryKinds_iff.2 hk') h

/-- The spelling of an operator has no blank inside, so the next blank ends it. -/
theorem ne_blank_of_mem_symbol (hk : k.isBinary = true) :
    ∀ c ∈ k.symbol.toList, (c != ' ') = true := by
  have hall : ∀ k ∈ binaryKinds, k.symbol.toList.all (· != ' ') = true := by decide
  exact List.all_eq_true.1 (hall k (mem_binaryKinds_iff.2 hk))

/-- A spelling between blanks tells the operator. -/
theorem symbol_append_inj (hk : k.isBinary = true) (hk' : k'.isBinary = true)
    (h : k.symbol.toList ++ ' ' :: rest = k'.symbol.toList ++ ' ' :: rest') :
    k = k' ∧ rest = rest' := by
  obtain ⟨hsymbol, hrest⟩ := span_append_inj (ne_blank_of_mem_symbol hk)
    (ne_blank_of_mem_symbol hk') (by simp) (by simp) h
  exact ⟨symbol_inj hk hk' (String.toList_inj.1 hsymbol), (List.cons.inj hrest).2⟩

end ExprKind

/-! ## Expressions -/

namespace Expr

/-- An expression over operators that join two operands, of which the constants and columns
have texts that cannot be taken for something else. -/
structure Legible (e : Expr) : Prop where
  operators : ∀ k ∈ e.operators, k.isBinary = true
  leaves : ∀ leaf ∈ e.leaves, IsLeafText leaf.render.toList

/-- Expressions of the same shape, with the same operator at every node and the same text at
every leaf. -/
inductive ReadsAs : Expr → Expr → Prop
  | leaf {a b : Expr} (left : a.isOperator = false) (right : b.isOperator = false)
      (text : a.render = b.render) : ReadsAs a b
  | binary {k : ExprKind} {l r l' r' : Expr} {t t' : DataType} (left : ReadsAs l l')
      (right : ReadsAs r r') : ReadsAs (.binary k l r t) (.binary k l' r' t')

variable {k k' : ExprKind} {a b l r l' r' : Expr} {t t' : DataType}

/-- The parts of a legible expression are legible. -/
theorem Legible.of_binary (h : (binary k l r t).Legible) :
    k.isBinary = true ∧ l.Legible ∧ r.Legible := by
  obtain ⟨hk, hoperators⟩ := List.forall_mem_cons.1 h.operators
  obtain ⟨hlOperators, hrOperators⟩ := List.forall_mem_append.1 hoperators
  obtain ⟨hlLeaves, hrLeaves⟩ := List.forall_mem_append.1 h.leaves
  exact ⟨hk, ⟨hlOperators, hlLeaves⟩, ⟨hrOperators, hrLeaves⟩⟩

/-- A leaf is its only leaf. -/
theorem leaves_of_isOperator_eq_false (h : a.isOperator = false) : a.leaves = [a] := by
  cases a with
  | binary => cases h
  | _ => rfl

/-- A legible leaf is a word or a quoted text. -/
theorem Legible.isLeafText (h : a.Legible) (ha : a.isOperator = false) :
    IsLeafText a.render.toList :=
  h.leaves a (leaves_of_isOperator_eq_false ha ▸ List.mem_singleton.2 rfl)

/-- The characters of an operand. -/
def operandChars (e : Expr) : List Char :=
  (render.operand e).toList

/-- A leaf stands without parentheses. -/
theorem operandChars_of_isOperator_eq_false (h : a.isOperator = false) :
    a.operandChars = a.render.toList := by
  unfold operandChars render.operand
  rw [if_neg (by simp [h])]

/-- An operator that is an operand stands in parentheses. -/
theorem operandChars_binary :
    (binary k l r t).operandChars = '(' :: ((binary k l r t).render.toList ++ [')']) := by
  unfold operandChars render.operand parenthesize
  simp [isOperator]

/-- The text of an operator is its left operand, its spelling and its right operand, with
blanks between them. -/
theorem render_binary_toList : (binary k l r t).render.toList =
    l.operandChars ++ ' ' :: (k.symbol.toList ++ ' ' :: r.operandChars) := by
  rw [render]
  simp [operandChars]

/-- Whether what starts with the text of one operand starts with the text of another one only
if they read alike, and then the same follows. -/
def TextDetermines (a b : Expr) : Prop :=
  ∀ rest rest', EndsOperand rest → EndsOperand rest' →
    a.operandChars ++ rest = b.operandChars ++ rest' → a.ReadsAs b ∧ rest = rest'

/-- The text of an operator is read from left to right: the left operand, the spelling, and
the right operand. -/
theorem binary_append_inj (hk : k.isBinary = true) (hk' : k'.isBinary = true)
    (hl : l.TextDetermines l') (hr : r.TextDetermines r') (hrest : EndsOperand rest)
    (hrest' : EndsOperand rest')
    (h : (binary k l r t).render.toList ++ rest = (binary k' l' r' t').render.toList ++ rest') :
    (binary k l r t).ReadsAs (binary k' l' r' t') ∧ rest = rest' := by
  simp only [render_binary_toList, List.append_assoc, List.cons_append] at h
  obtain ⟨hleft, hbehind⟩ := hl _ _ (endsOperand_blank _) (endsOperand_blank _) h
  obtain ⟨rfl, hoperand⟩ := ExprKind.symbol_append_inj hk hk' (List.cons.inj hbehind).2
  obtain ⟨hright, hends⟩ := hr _ _ hrest hrest' hoperand
  exact ⟨.binary hleft hright, hends⟩

/-- The text of a leaf tells where it ends. -/
theorem Legible.textDetermines_of_leaves (ha : a.Legible) (hb : b.Legible)
    (haLeaf : a.isOperator = false) (hbLeaf : b.isOperator = false) : a.TextDetermines b := by
  intro rest rest' hrest hrest' h
  rw [operandChars_of_isOperator_eq_false haLeaf, operandChars_of_isOperator_eq_false hbLeaf] at h
  obtain ⟨htext, h⟩ := (ha.isLeafText haLeaf).append_inj (hb.isLeafText hbLeaf) hrest hrest' h
  exact ⟨.leaf haLeaf hbLeaf (String.toList_inj.1 htext), h⟩

/-- A nested operator starts with a parenthesis, and no leaf does. -/
theorem Legible.leaf_append_ne_binary (ha : a.Legible) (haLeaf : a.isOperator = false)
    (hrest : EndsOperand rest) :
    a.operandChars ++ rest ≠ (binary k l r t).operandChars ++ rest' := by
  intro h
  rw [operandChars_of_isOperator_eq_false haLeaf, operandChars_binary] at h
  exact (ha.isLeafText haLeaf).head_append hrest (h ▸ rfl) rfl

/-- The text of a leaf is not the beginning of any other operand. -/
theorem Legible.textDetermines_of_leaf (ha : a.Legible) (hb : b.Legible)
    (haLeaf : a.isOperator = false) : a.TextDetermines b := by
  cases b with
  | binary => exact fun _ _ hrest _ h => absurd h (ha.leaf_append_ne_binary haLeaf hrest)
  | _ => exact ha.textDetermines_of_leaves hb haLeaf rfl

/-- The text of an operand tells how it is read, and where it ends. -/
theorem textDetermines_of_legible (ha : a.Legible) (hb : b.Legible) : a.TextDetermines b := by
  induction a generalizing b with
  | const d => exact ha.textDetermines_of_leaf hb rfl
  | field c => exact ha.textDetermines_of_leaf hb rfl
  | binary k l r t ihl ihr =>
    intro rest rest' hrest hrest' h
    cases b with
    | binary k' l' r' t' =>
      obtain ⟨hk, hl, hr⟩ := ha.of_binary
      obtain ⟨hk', hl', hr'⟩ := hb.of_binary
      simp only [operandChars_binary, List.cons_append, List.append_assoc, List.nil_append] at h
      obtain ⟨hreads, h⟩ := binary_append_inj hk hk' (ihl hl hl') (ihr hr hr')
        (endsOperand_close _) (endsOperand_close _) (List.cons.inj h).2
      exact ⟨hreads, (List.cons.inj h).2⟩
    | _ => exact absurd h.symm (hb.leaf_append_ne_binary rfl hrest')

/-! ## Whole texts -/

/-- The text of an operator is not that of a leaf: its left operand ends before a blank. -/
theorem Legible.render_leaf_ne_binary (ha : a.Legible) (haLeaf : a.isOperator = false)
    (hb : (binary k l r t).Legible) : a.render ≠ (binary k l r t).render := by
  intro h
  have hchars := congrArg String.toList h
  rw [render_binary_toList, ← operandChars_of_isOperator_eq_false haLeaf] at hchars
  have hends := ha.textDetermines_of_leaf hb.of_binary.2.1 haLeaf [] _ endsOperand_nil
    (endsOperand_blank _) ((List.append_nil _).trans hchars)
  exact absurd hends.2 (List.cons_ne_nil _ _).symm

/-- Expressions with the same text read alike. -/
theorem readsAs_of_render_eq (ha : a.Legible) (hb : b.Legible) (h : a.render = b.render) :
    a.ReadsAs b := by
  cases haOperator : a.isOperator with
  | false =>
    cases hbOperator : b.isOperator with
    | false => exact .leaf haOperator hbOperator h
    | true =>
      cases b with
      | binary => exact absurd h (ha.render_leaf_ne_binary haOperator hb)
      | _ => cases hbOperator
  | true =>
    cases a with
    | binary k l r t =>
      cases hbOperator : b.isOperator with
      | false => exact absurd h.symm (hb.render_leaf_ne_binary hbOperator ha)
      | true =>
        cases b with
        | binary k' l' r' t' =>
          obtain ⟨hk, hl, hr⟩ := ha.of_binary
          obtain ⟨hk', hl', hr'⟩ := hb.of_binary
          exact (binary_append_inj hk hk' (textDetermines_of_legible hl hl')
            (textDetermines_of_legible hr hr') endsOperand_nil endsOperand_nil
            (congrArg (·.toList ++ []) h)).1
        | _ => cases hbOperator
    | _ => cases haOperator

/-- Expressions that read alike are both leaves, or both operators. -/
theorem ReadsAs.isOperator_eq (h : a.ReadsAs b) : a.isOperator = b.isOperator := by
  cases h with
  | leaf left right _ => rw [left, right]
  | binary => rfl

/-- Expressions that read alike have the same text. -/
theorem ReadsAs.render_eq (h : a.ReadsAs b) : a.render = b.render := by
  induction h with
  | leaf _ _ text => exact text
  | binary left right ihl ihr =>
    unfold render render.operand
    rw [ihl, ihr, left.isOperator_eq, right.isOperator_eq]

/-- The texts of legible expressions are the same if and only if these have the same shape,
the same operators and the same texts at the leaves; and so are the names of the columns that
they make under no name of their own. -/
theorem render_eq_iff_readsAs (ha : a.Legible) (hb : b.Legible) :
    (a.render = b.render ↔ a.ReadsAs b) ∧
      ∀ s t : Target, s.expr = a → t.expr = b → s.aliasName = none → t.aliasName = none →
        (s.column.name = t.column.name ↔ a.ReadsAs b) := by
  have htext : a.render = b.render ↔ a.ReadsAs b :=
    ⟨readsAs_of_render_eq ha hb, ReadsAs.render_eq⟩
  refine ⟨htext, fun s t hs ht hsName htName => ?_⟩
  unfold Target.column
  rw [hsName, htName, hs, ht]
  exact htext

/-- A difference of three operands, two of which are columns, with the first two together. -/
def groupedLeft : Expr :=
  .binary .minus (.binary .minus (.field ⟨"size", .int4⟩) (.const (.text "- (b) -")) .int4)
    (.field ⟨"-", .int4⟩) .int4

/-- The same with the last two together. -/
def groupedRight : Expr :=
  .binary .minus (.field ⟨"size", .int4⟩)
    (.binary .minus (.const (.text "- (b) -")) (.field ⟨"-", .int4⟩) .int4) .int4

/-- The leaves of both groupings are words or quoted texts. -/
theorem isLeafText_of_mem_grouped {leaf : Expr}
    (h : leaf ∈ [.field ⟨"size", .int4⟩, .const (.text "- (b) -"), .field ⟨"-", .int4⟩]) :
    IsLeafText leaf.render.toList := by
  simp only [List.mem_cons, List.not_mem_nil, or_false] at h
  rcases h with rfl | rfl | rfl <;> rw [render]
  · exact .inl (by decide)
  · exact .inr ⟨"- (b) -".toList, by decide, by decide⟩
  · exact .inl (by decide)

/-- The two groupings do not read alike, so their columns have different names. -/
theorem render_eq_iff_readsAs_grouped :
    groupedLeft.Legible ∧ groupedRight.Legible ∧ ¬ groupedLeft.ReadsAs groupedRight ∧
      (Target.mk groupedLeft none).column.name ≠ (Target.mk groupedRight none).column.name := by
  have hleft : groupedLeft.Legible := ⟨by decide, fun _ => isLeafText_of_mem_grouped⟩
  have hright : groupedRight.Legible := ⟨by decide, fun _ => isLeafText_of_mem_grouped⟩
  have hdiffer : ¬ groupedLeft.ReadsAs groupedRight := by
    rintro (_ | ⟨-, ⟨-, hnested, -⟩⟩)
    · contradiction
    · cases hnested
  refine ⟨hleft, hright, hdiffer, fun hname => hdiffer ?_⟩
  exact ((render_eq_iff_readsAs hleft hright).2 ⟨groupedLeft, none⟩ ⟨groupedRight, none⟩ rfl rfl
    rfl rfl).1 hname

end Expr

end QueryGraph
