/-!
# Agreement of lists and options

A test on two things is extended to lists item by item, and to options.

Main results:

- {lit}`agreesAll_comm`, {lit}`agreesOption_comm`: symmetry carries over.
- {lit}`agreesAll_trans`, {lit}`agreesOption_trans`: so does transitivity.
-/

namespace QueryGraph

/-- Whether two lists agree item by item. -/
def agreesAll {α : Type} (same : α → α → Bool) : List α → List α → Bool
  | [], [] => true
  | a :: as, b :: bs => same a b && agreesAll same as bs
  | _, _ => false

/-- Lists agree both ways if their items do. -/
theorem agreesAll_comm {α : Type} {same : α → α → Bool} (h : ∀ a b, same a b = same b a)
    (as bs : List α) : agreesAll same as bs = agreesAll same bs as := by
  induction as generalizing bs with
  | nil => cases bs <;> rfl
  | cons a as ih =>
    cases bs with
    | nil => rfl
    | cons b bs => simp [agreesAll, h a b, ih bs]

/-- Agreement of lists carries over a list in the middle. -/
theorem agreesAll_trans {α : Type} {same : α → α → Bool} {as bs cs : List α}
    (hab : agreesAll same as bs = true) (hbc : agreesAll same bs cs = true)
    (h : ∀ a b c, same a b = true → same b c = true → same a c = true) :
    agreesAll same as cs = true := by
  induction as generalizing bs cs with
  | nil =>
    cases bs with
    | nil => exact hbc
    | cons b bs => simp [agreesAll] at hab
  | cons a as ih =>
    cases bs with
    | nil => simp [agreesAll] at hab
    | cons b bs =>
      cases cs with
      | nil => simp [agreesAll] at hbc
      | cons c cs =>
        simp only [agreesAll, Bool.and_eq_true] at hab hbc ⊢
        exact ⟨h a b c hab.1 hbc.1, ih hab.2 hbc.2⟩

/-- Whether two optional things agree: both are missing, or both are there and
agree. -/
def agreesOption {α : Type} (same : α → α → Bool) : Option α → Option α → Bool
  | none, none => true
  | some a, some b => same a b
  | _, _ => false

theorem agreesOption_comm {α : Type} {same : α → α → Bool} (h : ∀ a b, same a b = same b a)
    (a b : Option α) : agreesOption same a b = agreesOption same b a := by
  cases a <;> cases b <;> simp [agreesOption, h]

/-- Agreement of what may be absent carries over a value in the middle. -/
theorem agreesOption_trans {α : Type} {same : α → α → Bool} {a b c : Option α}
    (hab : agreesOption same a b = true) (hbc : agreesOption same b c = true)
    (h : ∀ a b c, same a b = true → same b c = true → same a c = true) :
    agreesOption same a c = true := by
  cases a <;> cases b <;> cases c <;> simp_all [agreesOption]
  exact h _ _ _ hab hbc

end QueryGraph
