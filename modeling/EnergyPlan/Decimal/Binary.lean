/-
# Doubles as exact numbers, and decimals rounded to doubles

A finite double is `± mantissa · 2 ^ exponent` (`decode`), so questions about it
(is it whole, which integer is it) are answered in integer arithmetic. A quotient
of natural numbers is rounded to the nearest double, halves to the even mantissa
(`roundQuotient`); the result is the bit pattern, in which a carry out of the
mantissa is already the right exponent.

A decimal literal becomes a number of the configuration (`real`) when it is
neither beyond the greatest double nor below the least normal one with digits
lost. `finite` drops the second limit and `nearestFloat` both. `extended` adds to `finite`
words for the infinities and for no number.

Key definitions: `decode`, `roundQuotient`, `real`, `finite`, `extended`, `nearestFloat`,
`whole?`, `truncated?`, `floor`, `roundHalfEven`.
Key theorems: `divHalfEven_near`.
-/
import EnergyPlan.Decimal.Literal

namespace EnergyPlan.Decimal

/-- A double as a number: finite `± mantissa · 2 ^ exponent`, infinite, or none. -/
inductive Decoded where
  | finite (negative : Bool) (mantissa : Nat) (exponent : Int)
  | infinite (negative : Bool)
  | notANumber
deriving DecidableEq, Repr

/-- The bit that is the sign of a double. -/
def signBit : Nat := 0x8000000000000000

/-- The bit above those of the mantissa: where the exponent begins. -/
def exponentBit : Nat := 0x10000000000000

/-- Reads a double's bit pattern: one sign bit, 11 exponent bits, 52 mantissa bits. -/
def decode (x : Float) : Decoded :=
  let bits : Nat := x.toBits.toNat
  let negative := decide (signBit ≤ bits)
  let field : Nat := bits / exponentBit % 2048
  let fraction : Nat := bits % exponentBit
  if field = 2047 then
    if fraction = 0 then .infinite negative else .notANumber
  else if field = 0 then .finite negative fraction (-1074)
  else .finite negative (fraction + exponentBit) ((field : Int) - 1075)

/-- The quotient rounded to the nearest integer, halves to the even one. -/
def divHalfEven (num den : Nat) : Nat :=
  let q := num / den
  let r := num % den
  if 2 * r < den then q
  else if den < 2 * r then q + 1
  else if q % 2 = 0 then q else q + 1

/-- A quotient divided by `base ^ k`, again as a quotient. -/
def scaleDown (base num den : Nat) (k : Int) : Nat × Nat :=
  if 0 ≤ k then (num, den * Nat.pow base k.toNat) else (num * Nat.pow base (-k).toNat, den)

/-- The exponent `g` with `2 ^ g ≤ num / den < 2 ^ (g + 1)`. -/
def log2Quotient (num den : Nat) : Int :=
  let g : Int := (num.log2 : Int) - den.log2
  let (n, d) := scaleDown 2 num den g
  if d ≤ n then g else g - 1

/-- The bit pattern of the greatest double and beyond: infinity. -/
def infinityBits : Nat := 2047 * exponentBit

/-- The magnitude bits of the double nearest to `num / den`, and whether `num / den`
has digits that no double below the least normal one can hold. -/
def roundQuotient (num den : Nat) : Nat × Bool :=
  let e := max (log2Quotient num den - 52) (-1074)
  let (n, d) := scaleDown 2 num den e
  let bits := (e + 1074).toNat * exponentBit + divHalfEven n d
  let tiny := decide (num * Nat.pow 2 1076 < den * (4 * exponentBit - 1)) && n % d != 0
  (min bits infinityBits, tiny)

/-- The magnitude bits nearest to a literal, and whether it is lost below the normal doubles. -/
def Literal.round (l : Literal) : Nat × Bool :=
  if l.digits = 0 then (0, false)
  else
    let magnitude := (l.digits.log2 : Int) * 30103 / 100000 + l.scale
    if 400 < magnitude then (infinityBits, false)
    else if magnitude < -400 then (0, true)
    else
      let (num, den) := scaleDown 10 l.digits 1 (-l.scale)
      roundQuotient num den

/-- The double with a sign and magnitude bits. -/
def ofMagnitude (negative : Bool) (bits : Nat) : Float :=
  Float.ofBits (UInt64.ofNat (if negative then bits + signBit else bits))

/-- The double nearest to a literal, infinite beyond the greatest one. -/
def Literal.toFloat (l : Literal) : Float :=
  ofMagnitude l.negative l.round.1

/-- The number that a text writes between blanks: a literal within the range of the normal
doubles, or one that a smaller double holds exactly. -/
def real (s : String) : Option Float :=
  (Literal.read (Text.trimChars s.toList)).bind fun l =>
    let (bits, lost) := l.round
    if bits = infinityBits ∨ lost then none else some (ofMagnitude l.negative bits)

/-- The double nearest to the literal that a text writes before any blanks, unless it is beyond
the greatest one. -/
def finite (s : String) : Option Float :=
  (Literal.read (Text.trimEndChars s.toList)).bind fun l =>
    if l.round.1 = infinityBits then none else some l.toFloat

/-- The double that is no number. -/
def notANumber : Float := Float.ofBits 0x7FF8000000000000

/-- The value that a text writes as a word behind a point: an infinity, perhaps with a sign, or no
number, without one. -/
def special (s : String) : Option Float :=
  let (negative, word) := sign s.toList
  if String.ofList word ∈ [".inf", ".Inf", ".INF"] then some (ofMagnitude negative infinityBits)
  else if s ∈ [".nan", ".NaN", ".NAN"] then some notANumber
  else none

/-- The double that a text writes by a literal or as a special value. -/
def extended (s : String) : Option Float := (finite s).or (special s)

/-- The double nearest to the literal or the special value (`inf`, `nan`) that a text writes. -/
def nearestFloat (s : String) : Option Float :=
  match s with
  | "inf" => some (ofMagnitude false infinityBits)
  | "-inf" => some (ofMagnitude true infinityBits)
  | "nan" => some notANumber
  | _ => (Literal.read s.toList).map Literal.toFloat

/-! ### Doubles and integers -/

/-- The integer part of a finite double, cut toward zero. -/
def truncated? (x : Float) : Option Int :=
  match decode x with
  | .finite negative m e =>
    let magnitude : Nat := if 0 ≤ e then m * Nat.pow 2 e.toNat else m / Nat.pow 2 (-e).toNat
    some (if negative then -(magnitude : Int) else magnitude)
  | _ => none

/-- The integer that a double is, if it is one. -/
def whole? (x : Float) : Option Int :=
  match decode x with
  | .finite _ m e =>
    if 0 ≤ e ∨ m % Nat.pow 2 (-e).toNat = 0 then truncated? x else none
  | _ => none

/-- The greatest whole double that is not above a double; the sign of a zero is kept. -/
def floor (x : Float) : Float :=
  match decode x with
  | .finite negative m e =>
    if 0 ≤ e then x
    else
      let unit := Nat.pow 2 (-e).toNat
      let q := m / unit
      let n := if negative && m % unit != 0 then q + 1 else q
      ofMagnitude negative (if n = 0 then 0 else (roundQuotient n 1).1)
  | _ => x

/-- The nearest whole double, halves to the even one; the sign is kept, also of a zero. -/
def roundHalfEven (x : Float) : Float :=
  match decode x with
  | .finite negative m e =>
    if 0 ≤ e then x
    else
      let n := divHalfEven m (Nat.pow 2 (-e).toNat)
      ofMagnitude negative (if n = 0 then 0 else (roundQuotient n 1).1)
  | _ => x

/-! ### Rounding a quotient is off by at most a half -/

theorem divHalfEven_near (num den : Nat) (h : 0 < den) :
    2 * num ≤ (2 * divHalfEven num den + 1) * den ∧
      (2 * divHalfEven num den) * den ≤ 2 * num + den := by
  have hd := Nat.div_add_mod num den
  have hr := Nat.mod_lt num h
  unfold divHalfEven
  generalize num / den = q at *
  generalize num % den = r at *
  subst hd
  have e1 : (2 * q + 1) * den = 2 * (den * q) + den := by
    rw [Nat.add_mul, Nat.one_mul, Nat.mul_assoc, Nat.mul_comm q den]
  have e2 : (2 * q) * den = 2 * (den * q) := by rw [Nat.mul_assoc, Nat.mul_comm q den]
  have e3 : (2 * (q + 1) + 1) * den = 2 * (den * q) + 3 * den := by
    rw [show 2 * (q + 1) + 1 = 2 * q + 3 by omega, Nat.add_mul, e2]
  have e4 : (2 * (q + 1)) * den = 2 * (den * q) + 2 * den := by
    rw [show 2 * (q + 1) = 2 * q + 2 by omega, Nat.add_mul, e2]
  dsimp only
  split
  · rw [e1, e2]; omega
  · split
    · rw [e3, e4]; omega
    · split
      · rw [e1, e2]; omega
      · rw [e3, e4]; omega

end EnergyPlan.Decimal
