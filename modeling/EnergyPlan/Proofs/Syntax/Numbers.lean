/-
# The texts of numbers

A number without sign is a row of digits, perhaps a point and further digits, perhaps an exponent.
Wherever such a text stands, it is taken as a whole, if what follows does not run on from it.
A decimal text that is read as a literal is a sign and a number of this kind, unless it starts
with its point: then no token can start with it.

Key definitions: `IsFraction`, `IsExponent`, `IsNumber`.
Key theorems: `numberText_append`, `isNumber_of_read`.
-/
import EnergyPlan.Expr.Token

namespace EnergyPlan.Expr

open Decimal

/-- A point and digits, or nothing. -/
def IsFraction (cs : List Char) : Prop :=
  cs = [] ∨ ∃ digits, cs = '.' :: digits ∧ ∀ d ∈ digits, d.isDigit = true

/-- A complete exponent, or nothing. -/
def IsExponent (cs : List Char) : Prop :=
  cs = [] ∨ ∃ e signs digits, cs = e :: (signs ++ digits) ∧ (e = 'e' ∨ e = 'E') ∧
    signs ∈ [[], ['+'], ['-']] ∧ digits ≠ [] ∧ ∀ d ∈ digits, d.isDigit = true

/-- A number without sign, which starts with a digit. -/
inductive IsNumber : List Char → Prop where
  | parts {whole fraction exponent : List Char} (some : whole ≠ [])
      (digits : ∀ d ∈ whole, d.isDigit = true) (point : IsFraction fraction)
      (scale : IsExponent exponent) : IsNumber (whole ++ (fraction ++ exponent))

/-- A character that does not run on from a number. -/
def EndsNumber (c : Char) : Prop := c.isDigit = false ∧ c ≠ '.' ∧ c ≠ 'e' ∧ c ≠ 'E'

instance (c : Char) : Decidable (EndsNumber c) := inferInstanceAs (Decidable (_ ∧ _))

theorem isNumber_of_digits {cs : List Char} (hne : cs ≠ []) (h : ∀ c ∈ cs, c.isDigit = true) :
    IsNumber cs := by
  have hparts : IsNumber (cs ++ ([] ++ [])) := .parts hne h (Or.inl rfl) (Or.inl rfl)
  rwa [List.append_nil, List.append_nil] at hparts

theorem IsNumber.exists_digit {cs : List Char} (h : IsNumber cs) :
    ∃ c tail, cs = c :: tail ∧ c.isDigit = true := by
  obtain ⟨hne, hdigits, _, _⟩ := h
  obtain ⟨c, tail, rfl⟩ := List.exists_cons_of_ne_nil hne
  exact ⟨c, _, rfl, hdigits c List.mem_cons_self⟩

/-! ### What is taken of a text -/

theorem takeWhile_append_of_head {p : Char → Bool} {cs rest : List Char}
    (hcs : ∀ c ∈ cs, p c = true) (hrest : ∀ c ∈ rest.head?, p c = false) :
    (cs ++ rest).takeWhile p = cs := by
  rw [List.takeWhile_append_of_pos hcs]
  cases rest with
  | nil => simp
  | cons c rest => simp [hrest c rfl]

theorem dropWhile_append_of_head {p : Char → Bool} {cs rest : List Char}
    (hcs : ∀ c ∈ cs, p c = true) (hrest : ∀ c ∈ rest.head?, p c = false) :
    (cs ++ rest).dropWhile p = rest := by
  rw [List.dropWhile_append_of_pos hcs]
  cases rest with
  | nil => rfl
  | cons c rest => simp [hrest c rfl]

variable {cs rest : List Char}

theorem signPart_append {signs digits : List Char} (hsigns : signs ∈ [[], ['+'], ['-']])
    (hne : digits ≠ []) (hdigits : ∀ d ∈ digits, d.isDigit = true) :
    signPart (signs ++ digits ++ rest) = signs := by
  obtain ⟨d, tail, rfl⟩ := List.exists_cons_of_ne_nil hne
  have hd : d.isDigit = true := hdigits d List.mem_cons_self
  simp only [List.mem_cons, List.not_mem_nil, or_false] at hsigns
  rcases hsigns with rfl | rfl | rfl
  · rw [List.nil_append, List.cons_append]
    unfold signPart
    split
    · next heq =>
      cases heq
      exact absurd hd (by decide)
    · next heq =>
      cases heq
      exact absurd hd (by decide)
    · rfl
  · rfl
  · rfl

theorem exponentPart_append (h : IsExponent cs) (hrest : ∀ c ∈ rest.head?, EndsNumber c) :
    exponentPart (cs ++ rest) = cs := by
  rcases h with rfl | ⟨e, signs, digits, rfl, he, hsigns, hne, hdigits⟩
  · rw [List.nil_append]
    unfold exponentPart
    split
    · next e tail =>
      have hend := hrest e rfl
      simp [hend.2.2.1, hend.2.2.2]
    · rfl
  · have hdigit : ∀ c ∈ rest.head?, c.isDigit = false := fun c hc => (hrest c hc).1
    have htake : ((signs ++ digits ++ rest).drop signs.length).takeWhile Char.isDigit = digits := by
      rw [List.append_assoc, List.drop_left, takeWhile_append_of_head hdigits hdigit]
    rw [List.cons_append, exponentPart]
    simp only [signPart_append hsigns hne hdigits, htake]
    rw [if_pos ⟨he, hne⟩]
    rfl

theorem fractionPart_append (h : IsFraction cs)
    (hrest : ∀ c ∈ rest.head?, c.isDigit = false ∧ c ≠ '.') : fractionPart (cs ++ rest) = cs := by
  rcases h with rfl | ⟨digits, rfl, hdigits⟩
  · rw [List.nil_append]
    unfold fractionPart
    split
    · exact absurd rfl (hrest '.' rfl).2
    · rfl
  · rw [List.cons_append, fractionPart,
      takeWhile_append_of_head hdigits fun c hc => (hrest c hc).1]

/-- No digit and no point stands at the end of a number before its exponent. -/
theorem exponent_head (h : IsExponent cs) (hrest : ∀ c ∈ rest.head?, EndsNumber c) :
    ∀ c ∈ (cs ++ rest).head?, c.isDigit = false ∧ c ≠ '.' := by
  rcases h with rfl | ⟨e, signs, digits, rfl, he, _⟩
  · exact fun c hc => ⟨(hrest c hc).1, (hrest c hc).2.1⟩
  · rintro c hc
    cases hc
    rcases he with rfl | rfl <;> decide

theorem fraction_head (h : IsFraction cs) (hrest : ∀ c ∈ rest.head?, c.isDigit = false) :
    ∀ c ∈ (cs ++ rest).head?, c.isDigit = false := by
  rcases h with rfl | ⟨digits, rfl, _⟩
  · exact hrest
  · rintro c hc
    cases hc
    decide

/-- **A number is taken as a whole** where nothing runs on from it. -/
theorem numberText_append (h : IsNumber cs) (hrest : ∀ c ∈ rest.head?, EndsNumber c) :
    numberText (cs ++ rest) = cs := by
  obtain @⟨whole, fraction, exponent, _, hdigits, hfraction, hexponent⟩ := h
  have hafter := exponent_head hexponent hrest
  have hpoint := fraction_head hfraction fun c hc => (hafter c hc).1
  unfold numberText
  simp only [List.append_assoc]
  rw [takeWhile_append_of_head hdigits hpoint, dropWhile_append_of_head hdigits hpoint,
    fractionPart_append hfraction hafter, List.drop_left, exponentPart_append hexponent hrest]

/-! ### The numbers of literals -/

theorem isExponent_of_some {e : Int} (h : exponent? cs = some e) : IsExponent cs := by
  unfold exponent? at h
  split at h
  · exact Or.inl rfl
  · next c tail =>
    split at h
    · next hc =>
      dsimp only at h
      split at h
      · cases h
      · next hdigits =>
        rw [Bool.or_eq_true, not_or, Bool.not_eq_true, Bool.not_eq_true,
          Bool.not_eq_false'] at hdigits
        have hne := List.isEmpty_eq_false_iff.1 hdigits.1
        have hall := List.all_eq_true.1 hdigits.2
        refine Or.inr ?_
        unfold sign at hne hall
        split at hne
        · exact ⟨c, ['-'], _, rfl, hc, by decide, hne, hall⟩
        · exact ⟨c, ['+'], _, rfl, hc, by decide, hne, hall⟩
        · next hminus hplus =>
          exact ⟨c, [], tail, rfl, hc, by decide, hne, by simpa using hall⟩
    · cases h

/-- **A literal is a sign and a number**, if no point comes first. -/
theorem isNumber_of_read {l : Literal} (h : Literal.read cs = some l)
    (hpoint : (sign cs).2.head? ≠ some '.') : IsNumber (sign cs).2 := by
  unfold Literal.read at h
  generalize sign cs = parts at h hpoint ⊢
  obtain ⟨negative, body⟩ := parts
  dsimp only at h hpoint ⊢
  have hdigits : ∀ d ∈ body.takeWhile Char.isDigit, d.isDigit = true :=
    List.all_eq_true.1 List.all_takeWhile
  have hbody : body.takeWhile Char.isDigit ++ body.dropWhile Char.isDigit = body :=
    List.takeWhile_append_dropWhile
  generalize body.takeWhile Char.isDigit = whole at h hdigits hbody
  generalize body.dropWhile Char.isDigit = after at h hbody
  subst hbody
  split at h
  · next rest =>
    split at h
    · cases h
    · obtain ⟨e, hexponent, _⟩ := Option.map_eq_some_iff.1 h
      have hne : whole ≠ [] := by
        rintro rfl
        exact hpoint rfl
      have hfraction : IsFraction ('.' :: rest.takeWhile Char.isDigit) :=
        Or.inr ⟨_, rfl, List.all_eq_true.1 List.all_takeWhile⟩
      have hnumber := IsNumber.parts hne hdigits hfraction (isExponent_of_some hexponent)
      rwa [List.cons_append, List.takeWhile_append_dropWhile] at hnumber
  · split at h
    · cases h
    · next hsome =>
      obtain ⟨e, hexponent, _⟩ := Option.map_eq_some_iff.1 h
      have hne : whole ≠ [] := by
        rintro rfl
        exact hsome rfl
      exact .parts hne hdigits (Or.inl rfl) (isExponent_of_some hexponent)

end EnergyPlan.Expr
