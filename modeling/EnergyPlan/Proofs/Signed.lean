/-
# Numbers with a sign

The number that a plain text writes depends on its sign and on what stands behind it; blanks at
the ends do not matter. So a plus changes nothing. A minus negates the number behind it: an
integer as an integer and a double as a double. Only for the least integer of 64 bits the two
ways to read differ, since what stands behind its minus is no integer of 64 bits but a double.
The negated double is equal to the integer, but it is not shown as one.

Key definitions: `literalValue`.
Key theorems: `ofPlain_of_sign`, `minus_ofPlain`, `literalValue_equals`.
-/
import EnergyPlan.Proofs.Doubles
import EnergyPlan.Proofs.Integers

namespace EnergyPlan.Expr

open Decimal Text

variable {s t : String} {body cs ds : List Char}

/-! ### What a sign changes -/

/-- A literal with another sign differs in its sign only. -/
theorem read_of_sign {negative other : Bool} (hcs : sign cs = (negative, body))
    (hds : sign ds = (other, body)) :
    Literal.read ds = (Literal.read cs).map fun l => { l with negative := other } := by
  rw [Literal.read, Literal.read, hcs, hds]
  dsimp only
  split
  · split
    · rfl
    · rw [Option.map_map]
      rfl
  · split
    · rfl
    · rw [Option.map_map]
      rfl

/-- The magnitude of a literal does not depend on its sign. -/
theorem round_of_sign (l : Literal) (other : Bool) :
    Literal.round { l with negative := other } = l.round := rfl

theorem real_of_sign {negative other : Bool} {x : Float}
    (hs : sign (trimChars s.toList) = (negative, body))
    (ht : sign (trimChars t.toList) = (other, body)) (h : real s = some x) :
    ∃ l : Literal, l.Fits ∧ Literal.read (trimChars t.toList) = some l ∧
      x = ofMagnitude negative l.round.1 ∧ real t = some (ofMagnitude other l.round.1) := by
  obtain ⟨l, hread, hfits, rfl⟩ := exists_literal_of_real h
  have hnegative := read_of_sign hs hs
  have hother := read_of_sign hs ht
  rw [hread, Option.map_some] at hnegative hother
  have hfitsOther : Literal.Fits { l with negative := other } := by
    rw [Literal.Fits, round_of_sign]
    exact hfits
  have hsign : l.negative = negative := congrArg Literal.negative (Option.some.inj hnegative)
  have hreal := real_of_fits hother hfitsOther
  refine ⟨_, hfitsOther, hother, ?_, hreal⟩
  rw [hsign, round_of_sign l other]

/-- The whole number behind a sign, if only digits are there. -/
theorem readInt_of_sign {negative : Bool} (h : sign cs = (negative, body)) :
    readInt cs = if body.isEmpty || !body.all Char.isDigit then none
      else some (if negative then -(ofDigits body : Int) else ofDigits body) := by
  rw [readInt, h]

/-- **Texts with the same sign and the same number behind it have the same value.** -/
theorem ofPlain_of_sign (h : sign (trimChars s.toList) = sign (trimChars t.toList))
    (hreal : (real s).isSome = true) : Value.ofPlain s = Value.ofPlain t := by
  obtain ⟨x, hx⟩ := Option.isSome_iff_exists.1 hreal
  obtain ⟨l, _, _, rfl, ht⟩ := real_of_sign rfl h.symm hx
  have hinteger : integer s = integer t := by
    rw [integer, integer, readInt_of_sign rfl, readInt_of_sign h.symm]
  rw [Value.ofPlain, Value.ofPlain, hinteger, hx, ht]

theorem ofPlain_of_integer {n : Int64} (h : integer s = some n) : Value.ofPlain s = .int n := by
  rw [Value.ofPlain, h]

theorem ofPlain_of_real {x : Float} (hnone : integer s = none) (h : real s = some x) :
    Value.ofPlain s = .real x := by
  rw [Value.ofPlain, hnone, h]

/-! ### The value as a literal -/

/-- The least integer of 64 bits. -/
def leastInteger : Int64 := Int64.ofInt minInt64

/-- The double that is equal to the least integer. -/
def leastDouble : Float := ofMagnitude true (Literal.mk false (2 ^ 63) 0).round.1

/-- The value of a plain text, with the sign applied to what stands behind it. -/
def literalValue (s : String) : Value :=
  if integer s = some leastInteger then .real leastDouble else Value.ofPlain s

/-- The value of a plain text is equal to itself. -/
theorem equals_ofPlain_self (s : String) : (Value.ofPlain s).equals (Value.ofPlain s) = true := by
  unfold Value.ofPlain
  split
  · next n _ => exact beq_self_eq_true n
  · split
    · next x hx =>
      obtain ⟨l, _, hfits, rfl⟩ := exists_literal_of_real hx
      exact ofMagnitude_beq_self l.negative hfits.1
    · split
      · next b _ => cases b <;> rfl
      · exact beq_self_eq_true s

/-- **As a literal, a plain text has a value that is equal to its own.** -/
theorem literalValue_equals (s : String) :
    (literalValue s).equals (Value.ofPlain s) = true := by
  have hleast : (Value.real leastDouble).equals (.int leastInteger) = true := by decide +kernel
  unfold literalValue
  split
  · next h =>
    rw [ofPlain_of_integer h]
    exact hleast
  · exact equals_ofPlain_self s

/-- Only a text with a minus can have another value as a literal. -/
theorem literalValue_of_plus (h : sign (trimChars s.toList) = (false, body)) :
    literalValue s = Value.ofPlain s := by
  refine if_neg fun hleast => ?_
  rw [integer, readInt_of_sign h] at hleast
  split at hleast
  · cases hleast
  · rw [if_neg Bool.false_ne_true, Option.bind_some] at hleast
    have hvalue : minInt64 = ofDigits body := toInt_int64 hleast
    simp only [minInt64] at hvalue
    omega

/-! ### Minus -/

/-- A negative integer of 64 bits is the negated integer behind its minus, if that is one. -/
theorem integer_of_minus (hs : sign (trimChars s.toList) = (true, body))
    (ht : sign (trimChars t.toList) = (false, body)) :
    (integer s = none ∧ integer t = none) ∨
      (∃ m n, integer t = some m ∧ int64? (-m.toInt) = some n ∧ integer s = some n ∧
        some n ≠ some leastInteger) ∨
        integer s = some leastInteger ∧ integer t = none ∧
          Literal.read (trimChars t.toList) = some ⟨false, 2 ^ 63, 0⟩ := by
  rw [integer, integer, readInt_of_sign hs, readInt_of_sign ht]
  split
  · exact Or.inl ⟨rfl, rfl⟩
  · next hdigits =>
    rw [Bool.or_eq_true, not_or, Bool.not_eq_true, Bool.not_eq_true, Bool.not_eq_false'] at hdigits
    rw [if_pos rfl, if_neg Bool.false_ne_true, Option.bind_some, Option.bind_some]
    -- the negated number fits up to 2 ^ 63, the number itself only below
    by_cases hlarge : (2 ^ 63 : Int) < ofDigits body
    · refine Or.inl ⟨if_neg ?_, if_neg ?_⟩ <;> simp only [minInt64, maxInt64] <;> omega
    · refine Or.inr ?_
      by_cases hleast : ofDigits body = 2 ^ 63
      · rw [hleast]
        refine Or.inr ⟨rfl, rfl, ?_⟩
        rw [Literal.read_of_digits ht (List.isEmpty_eq_false_iff.1 hdigits.1)
          (List.all_eq_true.1 hdigits.2), hleast]
      · have hplus : minInt64 ≤ (ofDigits body : Int) ∧ (ofDigits body : Int) ≤ maxInt64 := by
          simp only [minInt64, maxInt64]
          omega
        have hminus : minInt64 ≤ -(ofDigits body : Int) ∧ -(ofDigits body : Int) ≤ maxInt64 := by
          simp only [minInt64, maxInt64]
          omega
        have hm : int64? (ofDigits body) = some (Int64.ofInt (ofDigits body)) := if_pos hplus
        have hn : int64? (-(ofDigits body : Int)) = some (Int64.ofInt (-(ofDigits body : Int))) :=
          if_pos hminus
        refine Or.inl ⟨_, _, hm, ?_, hn, fun heq => ?_⟩
        · rw [toInt_int64 hm]
          exact hn
        · rw [heq] at hn
          have hvalue : minInt64 = -(ofDigits body : Int) := toInt_int64 hn
          simp only [minInt64] at hvalue
          omega

/-- A plus leaves a number as it is. -/
theorem plus_ofPlain (hreal : (real s).isSome = true) :
    unaryOperation .plus (Value.ofPlain s) = .ok (Value.ofPlain s) := by
  obtain ⟨x, hx⟩ := Option.isSome_iff_exists.1 hreal
  cases hs : integer s with
  | some n =>
    rw [ofPlain_of_integer hs]
    rfl
  | none =>
    rw [ofPlain_of_real hs hx]
    rfl

/-- **A minus negates the number behind it,** to the value that the text with the minus has as a
literal. -/
theorem minus_ofPlain (hs : sign (trimChars s.toList) = (true, body))
    (ht : sign (trimChars t.toList) = (false, body)) (hreal : (real s).isSome = true) :
    unaryOperation .minus (Value.ofPlain t) = .ok (literalValue s) := by
  obtain ⟨x, hx⟩ := Option.isSome_iff_exists.1 hreal
  obtain ⟨l, hfits, hread, rfl, hreal⟩ := real_of_sign hs ht hx
  have hdouble (hnone : integer t = none) :
      unaryOperation .minus (Value.ofPlain t) = .ok (.real (ofMagnitude true l.round.1)) := by
    rw [ofPlain_of_real hnone hreal, ← neg_ofMagnitude hfits.1]
    rfl
  rcases integer_of_minus hs ht with
    ⟨hnone, ht⟩ | ⟨m, n, hm, hneg, hn, hne⟩ | ⟨hleast, ht, hdigits⟩
  · rw [hdouble ht, literalValue, hnone, if_neg (by simp), ofPlain_of_real hnone hx]
  · rw [ofPlain_of_integer hm, literalValue, hn, if_neg hne, ofPlain_of_integer hn]
    rw [unaryOperation_minus_integer (a := .int m) rfl, Word.negate_eq (Word.fits_toInt m),
      wholeResult_checked, exactInt, hneg]
  · cases hread.symm.trans hdigits
    rw [hdouble ht, literalValue, if_pos hleast, leastDouble]

end EnergyPlan.Expr
