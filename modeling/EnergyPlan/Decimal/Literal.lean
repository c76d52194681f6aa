/-
# Decimal literals

The decimal texts that a configuration may hold: an optional sign, digits with
at most one point, and an optional exponent. `Literal.read` accepts a text only
as a whole and keeps its exact value `± digits · 10 ^ scale`; nothing is rounded
here.

Whole numbers have a reader of their own (`readInt`): a sign and digits, no
point and no exponent. `integer` reads one that fits in 64 bits, with blanks
around it ignored.

Key definitions: `Literal`, `Literal.read`, `readInt`, `integer`.
Key theorems: `readInt_digits`, `readInt_toString`.
-/
import EnergyPlan.Text.Basic

namespace EnergyPlan.Decimal

open Text

/-- The number that a row of decimal digits writes. -/
def ofDigits (cs : List Char) : Nat :=
  cs.foldl (fun n c => n * 10 + (c.toNat - '0'.toNat)) 0

/-- An optional sign at the front of a text: whether it is a minus, and the rest. -/
def sign : List Char → Bool × List Char
  | '-' :: cs => (true, cs)
  | '+' :: cs => (false, cs)
  | cs => (false, cs)

/-- The exact value of a decimal literal, `± digits · 10 ^ scale`. -/
structure Literal where
  negative : Bool
  digits : Nat
  scale : Int
deriving DecidableEq, Repr

/-- The exponent part that ends a literal: nothing, or `e` with an optional sign and digits. -/
def exponent? : List Char → Option Int
  | [] => some 0
  | c :: cs =>
    if c = 'e' ∨ c = 'E' then
      let (negative, digits) := sign cs
      if digits.isEmpty || !digits.all Char.isDigit then none
      else some (if negative then -(ofDigits digits : Int) else ofDigits digits)
    else none

/-- The literal that the whole text writes, if it writes one. -/
def Literal.read (cs : List Char) : Option Literal :=
  let (negative, body) := sign cs
  let whole := body.takeWhile Char.isDigit
  let afterWhole := body.dropWhile Char.isDigit
  let (fraction, tail) :=
    match afterWhole with
    | '.' :: rest => (rest.takeWhile Char.isDigit, rest.dropWhile Char.isDigit)
    | rest => ([], rest)
  if whole.isEmpty && fraction.isEmpty then none
  else
    (exponent? tail).map fun e => ⟨negative, ofDigits (whole ++ fraction), e - fraction.length⟩

/-- The whole number that the whole text writes: an optional sign and at least one digit. -/
def readInt (cs : List Char) : Option Int :=
  let (negative, digits) := sign cs
  if digits.isEmpty || !digits.all Char.isDigit then none
  else some (if negative then -(ofDigits digits : Int) else ofDigits digits)

/-- The least 32-bit integer. -/
def minInt32 : Int := -2147483648

/-- The greatest 32-bit integer. -/
def maxInt32 : Int := 2147483647

/-- The least 64-bit integer. -/
def minInt64 : Int := -9223372036854775808

/-- The greatest 64-bit integer. -/
def maxInt64 : Int := 9223372036854775807

/-- An integer as a 64-bit integer, if it is one. -/
def int64? (n : Int) : Option Int64 :=
  if minInt64 ≤ n ∧ n ≤ maxInt64 then some (Int64.ofInt n) else none

/-- The 64-bit integer that a text writes between blanks. -/
def integer (s : String) : Option Int64 :=
  (readInt (trimChars s.toList)).bind int64?

/-- The truth value that a text writes between blanks, in any letter case. -/
def boolean (s : String) : Option Bool :=
  match lower (trim s) with
  | "true" => some true
  | "false" => some false
  | _ => none

theorem readInt_digits {cs : List Char} (hne : cs ≠ []) (h : ∀ c ∈ cs, c.isDigit = true) :
    readInt cs = some (ofDigits cs) := by
  have hs : sign cs = (false, cs) := by
    cases cs with
    | nil => exact absurd rfl hne
    | cons c rest =>
      have hc := h c (by simp)
      unfold sign
      split
      · next heq => cases heq; exact absurd hc (by decide)
      · next heq => cases heq; exact absurd hc (by decide)
      · rfl
  have ha : cs.all Char.isDigit = true := List.all_eq_true.2 h
  simp [readInt, hs, hne, ha]

theorem ofDigits_toDigits (n : Nat) : ofDigits (Nat.toDigits 10 n) = n := by
  have h : ofDigits (Nat.toDigits 10 n) = Nat.ofDigitChars 10 (Nat.toDigits 10 n) 0 := by
    rw [ofDigits, Nat.ofDigitChars_eq_foldl]
    congr 1
    funext m c
    rw [Nat.mul_comm]
  rw [h, Nat.ofDigitChars_ten_toDigits]

theorem isDigit_of_mem_toDigits (n : Nat) : ∀ c ∈ Nat.toDigits 10 n, c.isDigit = true :=
  fun _ hc => Nat.isDigit_of_mem_toDigits (by decide) (by decide) hc

/-- An integer is written with its digits, behind a minus if it is negative. -/
theorem toList_toString (n : Int) : (toString n).toList =
    if n < 0 then '-' :: Nat.toDigits 10 n.natAbs else Nat.toDigits 10 n.natAbs := by
  cases n with
  | ofNat n =>
    have hn : ¬ Int.ofNat n < 0 := Int.not_lt.2 (Int.natCast_nonneg n)
    rw [if_neg hn]
    exact Nat.toList_repr
  | negSucc n =>
    rw [if_pos (Int.negSucc_lt_zero n)]
    show ("-" ++ (n + 1).repr).toList = _
    rw [String.toList_append, Nat.toList_repr]
    rfl

/-- The text of an integer writes it. -/
theorem readInt_toString (n : Int) : readInt (toString n).toList = some n := by
  rw [toList_toString]
  split
  · next h =>
    have hne : (Nat.toDigits 10 n.natAbs).isEmpty = false :=
      List.isEmpty_eq_false_iff.2 Nat.toDigits_ne_nil
    have hall : (Nat.toDigits 10 n.natAbs).all Char.isDigit = true :=
      List.all_eq_true.2 (isDigit_of_mem_toDigits _)
    have hvalue : -(n.natAbs : Int) = n := by omega
    simp only [readInt, sign, hne, hall, Bool.not_true, Bool.or_self, Bool.false_eq_true,
      if_false, if_true, ofDigits_toDigits, hvalue]
  · next h =>
    have hvalue : (n.natAbs : Int) = n := by omega
    rw [readInt_digits Nat.toDigits_ne_nil (isDigit_of_mem_toDigits _), ofDigits_toDigits]
    exact congrArg some hvalue

theorem toInt_int64 {n : Int} {k : Int64} (h : int64? n = some k) : k.toInt = n := by
  unfold int64? at h
  split at h
  · next hn =>
    cases h
    simp only [minInt64, maxInt64] at hn
    exact Int64.toInt_ofInt_of_le (by omega) (by omega)
  · cases h

end EnergyPlan.Decimal
