/-
# The doubles of decimal texts

A decimal text that is within the range of the doubles gives a finite one: its sign is the
sign of the text and its magnitude depends on the digits and their scale only. So the double
of a text with a minus is the negated double of the text without it, and it is equal to
itself. Every text of a 64-bit integer is within the range.

The bits of a double are those of the format with one sign bit, 11 exponent bits and 52
mantissa bits; what is no number has all exponent bits set, which no finite double has.

Key theorems: `neg_ofMagnitude`, `ofMagnitude_beq_self`, `exists_literal_of_real`,
`real_of_integer`.
-/
import EnergyPlan.Decimal.Binary
import Mathlib

namespace EnergyPlan.Decimal

open Float.Model (Format)
open Float.Model.UnpackedFloat (Sign isNaNBits pack_unpack unpackExponent unpackExponent_def
  unpackMantissa unpackMantissa_def unpackSign unpackSign_def)

/-! ### The parts of a bit pattern -/

/-- The 64 bits of a number. -/
abbrev pattern (b : Nat) : BitVec Format.binary64.numBits := BitVec.ofNat 64 b

theorem unpackMantissa_ofNat (b : Nat) :
    unpackMantissa (pattern b) = BitVec.ofNat 52 b := by
  apply BitVec.eq_of_toNat_eq
  rw [unpackMantissa_def]
  simp only [BitVec.extractLsb'_toNat, BitVec.toNat_ofNat]
  rw [Nat.shiftRight_zero]
  exact Nat.mod_mod_of_dvd b ⟨2 ^ 12, rfl⟩

theorem unpackExponent_ofNat {b : Nat} (h : b < 2 ^ 64) :
    unpackExponent (pattern b) = BitVec.ofNat 11 (b / 2 ^ 52) := by
  apply BitVec.eq_of_toNat_eq
  rw [unpackExponent_def]
  simp only [BitVec.extractLsb'_toNat, BitVec.toNat_ofNat]
  rw [Nat.shiftRight_eq_div_pow]
  exact congrArg (fun n => n / 2 ^ 52 % 2 ^ 11) (Nat.mod_eq_of_lt h)

theorem unpackSign_ofNat {b : Nat} (h : b < 2 ^ 64) :
    unpackSign (pattern b) = BitVec.ofNat 1 (b / 2 ^ 63) := by
  apply BitVec.eq_of_toNat_eq
  rw [unpackSign_def]
  simp only [BitVec.extractLsb'_toNat, BitVec.toNat_ofNat]
  rw [Nat.shiftRight_eq_div_pow]
  exact congrArg (fun n => n / 2 ^ 63 % 2 ^ 1) (Nat.mod_eq_of_lt h)

/-- The bits with the sign bit set unpack to the negated double. -/
theorem unpack_neg {b b' : BitVec Format.binary64.numBits}
    (hm : unpackMantissa b' = unpackMantissa b) (he : unpackExponent b' = unpackExponent b)
    (hs : Sign.ofBitVec (unpackSign b') = -Sign.ofBitVec (unpackSign b)) :
    Float.Model.UnpackedFloat.unpack Format.binary64 b' =
      (Float.Model.UnpackedFloat.unpack Format.binary64 b).neg := by
  unfold Float.Model.UnpackedFloat.unpack
  simp only [hm, he, hs]
  split
  · split <;> rfl
  · split
    · split <;> rfl
    · rfl

/-! ### Finite doubles -/

variable {bits : Nat}

/-- The exponent bits of a finite magnitude are not all set, whatever its sign. -/
theorem not_isNaNBits {b : Nat} (h : b < 2 ^ 64) (hfinite : b / 2 ^ 52 % 2 ^ 11 ≠ 2047) :
    isNaNBits (pattern b) = false := by
  rw [isNaNBits, decide_eq_false_iff_not]
  rintro ⟨hexponent, _⟩
  rw [unpackExponent_ofNat h] at hexponent
  apply hfinite
  exact congrArg BitVec.toNat hexponent

theorem lt_of_finite (h : bits < infinityBits) : bits < 2 ^ 63 ∧ bits / 2 ^ 52 < 2047 := by
  simp only [infinityBits, exponentBit] at h
  omega

theorem unpack_ofBits {b : Nat} (h : b < 2 ^ 64) (hfinite : b / 2 ^ 52 % 2 ^ 11 ≠ 2047) :
    (Float.ofBits (UInt64.ofNat b)).toModel.unpack =
      Float.Model.UnpackedFloat.unpack Format.binary64 (pattern b) := by
  have hpack := pack_unpack (pattern b)
  rw [not_isNaNBits h hfinite, if_neg Bool.noConfusion] at hpack
  exact congrArg (Float.Model.UnpackedFloat.unpack Format.binary64) hpack

/-- **A negated magnitude** is the same magnitude with the other sign. -/
theorem neg_ofMagnitude (h : bits < infinityBits) :
    -(ofMagnitude false bits) = ofMagnitude true bits := by
  obtain ⟨hbits, hfinite⟩ := lt_of_finite h
  have hneg : Float.Model.UnpackedFloat.unpack Format.binary64 (pattern (bits + signBit)) =
      (Float.Model.UnpackedFloat.unpack Format.binary64 (pattern bits)).neg := by
    have hsum : bits + signBit < 2 ^ 64 := by
      simp only [signBit]
      omega
    apply unpack_neg
    · rw [unpackMantissa_ofNat, unpackMantissa_ofNat]
      apply BitVec.eq_of_toNat_eq
      simp only [BitVec.toNat_ofNat, signBit]
      omega
    · rw [unpackExponent_ofNat hsum, unpackExponent_ofNat (by omega)]
      apply BitVec.eq_of_toNat_eq
      simp only [BitVec.toNat_ofNat, signBit]
      omega
    · have hplus : bits / 2 ^ 63 = 0 := Nat.div_eq_of_lt hbits
      have hminus : (bits + signBit) / 2 ^ 63 = 1 := by
        simp only [signBit]
        omega
      rw [unpackSign_ofNat hsum, unpackSign_ofNat (by omega), hplus, hminus]
      rfl
  have hsmall : bits < 2 ^ 64 := by omega
  have hexponent : bits / 2 ^ 52 % 2 ^ 11 ≠ 2047 := by omega
  have hmodel : (ofMagnitude false bits).toModel.unpack =
      Float.Model.UnpackedFloat.unpack Format.binary64 (pattern bits) :=
    unpack_ofBits hsmall hexponent
  show Float.neg (ofMagnitude false bits) = ofMagnitude true bits
  rw [Float.neg]
  show Float.ofModel (Float.Model.pack (ofMagnitude false bits).toModel.unpack.neg) = _
  rw [hmodel, ← hneg]
  rfl

/-- Bits whose exponent is not all set are a number. -/
theorem isNaN_ofBits {b : Nat} (h : b < 2 ^ 64) (hfinite : b / 2 ^ 52 % 2 ^ 11 ≠ 2047) :
    (Float.ofBits (UInt64.ofNat b)).isNaN = false := by
  show (Float.ofBits (UInt64.ofNat b)).toModel.unpack.isNaN = false
  rw [unpack_ofBits h hfinite, ← Bool.not_eq_true, Float.Model.UnpackedFloat.isNaN_iff]
  intro hunpack
  have hpack := pack_unpack (pattern b)
  rw [not_isNaNBits h hfinite, if_neg Bool.noConfusion, hunpack] at hpack
  have hexponent := congrArg unpackExponent hpack
  rw [unpackExponent_ofNat h] at hexponent
  exact hfinite (congrArg BitVec.toNat hexponent).symm

/-- A finite double is equal to itself. -/
theorem ofMagnitude_beq_self (negative : Bool) (h : bits < infinityBits) :
    (ofMagnitude negative bits == ofMagnitude negative bits) = true := by
  obtain ⟨hbits, hfinite⟩ := lt_of_finite h
  have hnan : (ofMagnitude negative bits).isNaN = false := by
    cases negative with
    | false =>
      have hsmall : bits < 2 ^ 64 := by omega
      have hexponent : bits / 2 ^ 52 % 2 ^ 11 ≠ 2047 := by omega
      exact isNaN_ofBits hsmall hexponent
    | true =>
      have hsmall : bits + signBit < 2 ^ 64 := by
        simp only [signBit]
        omega
      have hexponent : (bits + signBit) / 2 ^ 52 % 2 ^ 11 ≠ 2047 := by
        simp only [signBit]
        omega
      exact isNaN_ofBits hsmall hexponent
  rw [Float.isNaN_eq_decide_eq_nan, decide_eq_false_iff_not] at hnan
  exact Float.beq_self_iff.2 hnan

/-! ### The doubles of literals -/

theorem round_le (l : Literal) : l.round.1 ≤ infinityBits := by
  unfold Literal.round
  dsimp only
  split
  · exact Nat.zero_le _
  · split
    · exact Nat.le_refl _
    · split
      · exact Nat.zero_le _
      · exact Nat.min_le_right _ _

/-- A literal that is within the range of the doubles. -/
def Literal.Fits (l : Literal) : Prop := l.round.1 < infinityBits ∧ l.round.2 = false

theorem real_of_fits {s : String} {l : Literal}
    (hread : Literal.read (Text.trimChars s.toList) = some l) (h : l.Fits) :
    real s = some (ofMagnitude l.negative l.round.1) := by
  rw [real, hread, Option.bind_some]
  dsimp only
  rw [if_neg]
  rintro (hbits | hlost)
  · exact absurd hbits (Nat.ne_of_lt h.1)
  · rw [h.2] at hlost
    cases hlost

/-- A text that writes a double is a literal within their range. -/
theorem exists_literal_of_real {s : String} {x : Float} (h : real s = some x) :
    ∃ l, Literal.read (Text.trimChars s.toList) = some l ∧ l.Fits ∧
      x = ofMagnitude l.negative l.round.1 := by
  rw [real] at h
  obtain ⟨l, hread, hx⟩ := Option.bind_eq_some_iff.1 h
  dsimp only at hx
  split at hx
  · cases hx
  · next hrange =>
    rw [not_or, Bool.not_eq_true] at hrange
    cases hx
    exact ⟨l, hread, ⟨Nat.lt_of_le_of_ne (round_le l) hrange.1, hrange.2⟩, rfl⟩

theorem Literal.read_of_digits {cs digits : List Char} {negative : Bool}
    (hsign : sign cs = (negative, digits)) (hne : digits ≠ [])
    (hdigits : ∀ c ∈ digits, c.isDigit = true) :
    Literal.read cs = some ⟨negative, ofDigits digits, 0⟩ := by
  have htake : digits.takeWhile Char.isDigit = digits := List.takeWhile_eq_self_iff.2 hdigits
  have hdrop : digits.dropWhile Char.isDigit = [] := List.dropWhile_eq_nil_iff.2 hdigits
  have hsome : digits.isEmpty = false := List.isEmpty_eq_false_iff.2 hne
  rw [Literal.read, hsign]
  simp only [htake, hdrop, hsome, Bool.false_and, Bool.false_eq_true, if_false, exponent?,
    Option.map_some, List.append_nil, List.length_nil]
  rfl

/-! ### Integers -/

/-- The binary exponent of a whole number is that of its first bit, or one less. -/
theorem log2Quotient_one (n : Nat) :
    log2Quotient n 1 ≤ n.log2 ∧ (n.log2 : Int) - 1 ≤ log2Quotient n 1 := by
  have hone : (1 : Nat).log2 = 0 := by decide
  unfold log2Quotient
  rw [hone]
  dsimp only
  split <;> omega

theorem divHalfEven_le (num den : Nat) : divHalfEven num den ≤ num / den + 1 := by
  unfold divHalfEven
  dsimp only
  split
  · omega
  · split
    · exact Nat.le_refl _
    · split <;> omega

/-- The mantissa of a whole number is at most four times the greatest one before rounding. -/
theorem divHalfEven_scaled {n : Nat} {e : Int} (he : (n.log2 : Int) - 53 ≤ e) :
    divHalfEven (scaleDown 2 n 1 e).1 (scaleDown 2 n 1 e).2 ≤ 2 ^ 54 + 1 := by
  have hlog : n < 2 ^ (n.log2 + 1) := Nat.lt_log2_self
  refine (divHalfEven_le _ _).trans (Nat.succ_le_succ ?_)
  unfold scaleDown
  split
  · obtain ⟨k, rfl⟩ := Int.eq_ofNat_of_zero_le ‹_›
    dsimp only
    rw [Nat.one_mul, Int.toNat_natCast]
    refine Nat.div_le_of_le_mul ?_
    calc n ≤ 2 ^ (n.log2 + 1) := hlog.le
      _ ≤ 2 ^ (k + 54) := Nat.pow_le_pow_right (by decide) (by omega)
      _ = Nat.pow 2 k * 2 ^ 54 := Nat.pow_add 2 k 54
  · obtain ⟨k, hk⟩ := Int.eq_ofNat_of_zero_le (show 0 ≤ -e by omega)
    dsimp only
    rw [hk, Int.toNat_natCast, Nat.div_one]
    calc n * Nat.pow 2 k ≤ 2 ^ (n.log2 + 1) * 2 ^ k := Nat.mul_le_mul_right _ hlog.le
      _ = 2 ^ (n.log2 + 1 + k) := (Nat.pow_add 2 _ k).symm
      _ ≤ 2 ^ 54 := Nat.pow_le_pow_right (by decide) (by omega)

/-- A whole number that takes 64 bits at most is within the range of the doubles. -/
theorem fits_of_whole {n : Nat} (negative : Bool) (hn : n ≤ 2 ^ 63) :
    (Literal.mk negative n 0).Fits := by
  unfold Literal.Fits Literal.round
  dsimp only
  by_cases hzero : n = 0
  · rw [if_pos hzero]
    exact ⟨by decide, rfl⟩
  rw [if_neg hzero]
  have hlog : n.log2 ≤ 63 := by
    have hlt : n < 2 ^ 64 := Nat.lt_of_le_of_lt hn (by decide)
    exact Nat.le_of_lt_succ ((Nat.log2_lt hzero).2 hlt)
  rw [if_neg (by omega), if_neg (by omega)]
  show (roundQuotient (scaleDown 10 n 1 (-0)).1 (scaleDown 10 n 1 (-0)).2).1 < _ ∧ _
  rw [show scaleDown 10 n 1 (-0) = (n, 1) from rfl]
  dsimp only
  unfold roundQuotient
  obtain ⟨hle, hge⟩ := log2Quotient_one n
  generalize hexp : max (log2Quotient n 1 - 52) (-1074) = e
  have hmantissa : divHalfEven (scaleDown 2 n 1 e).1 (scaleDown 2 n 1 e).2 ≤ 2 ^ 54 + 1 :=
    divHalfEven_scaled (by omega)
  dsimp only
  constructor
  · refine Nat.lt_of_le_of_lt (Nat.min_le_left _ _) ?_
    simp only [infinityBits, exponentBit]
    have hplace : (e + 1074).toNat ≤ 1085 := by omega
    omega
  · generalize hk : 1076 = k
    have hnormal : 1 * (4 * exponentBit - 1) ≤ n * Nat.pow 2 k := by
      calc 1 * (4 * exponentBit - 1) ≤ 2 ^ 54 := by decide
        _ ≤ Nat.pow 2 k := Nat.pow_le_pow_right (by decide) (by omega)
        _ ≤ n * Nat.pow 2 k := Nat.le_mul_of_pos_left _ (Nat.pos_of_ne_zero hzero)
    rw [Bool.and_eq_false_iff]
    exact Or.inl (decide_eq_false (Nat.not_lt.2 hnormal))

/-- What writes an integer of 64 bits is a sign and digits. -/
theorem exists_digits_of_integer {s : String} {n : Int64} (h : integer s = some n) :
    ∃ negative digits, sign (Text.trimChars s.toList) = (negative, digits) ∧ digits ≠ [] ∧
      (∀ c ∈ digits, c.isDigit = true) ∧
      int64? (if negative then -(ofDigits digits : Int) else ofDigits digits) = some n := by
  rw [integer] at h
  obtain ⟨k, hread, hfits⟩ := Option.bind_eq_some_iff.1 h
  unfold readInt at hread
  generalize sign (Text.trimChars s.toList) = parts at hread
  obtain ⟨negative, digits⟩ := parts
  dsimp only at hread
  split at hread
  · cases hread
  · next hdigits =>
    rw [Bool.or_eq_true, not_or, Bool.not_eq_true, Bool.not_eq_true, Bool.not_eq_false'] at hdigits
    cases hread
    exact ⟨negative, digits, rfl, List.isEmpty_eq_false_iff.1 hdigits.1,
      List.all_eq_true.1 hdigits.2, hfits⟩

/-- **Every integer of 64 bits is a number.** -/
theorem real_of_integer {s : String} {n : Int64} (h : integer s = some n) :
    (real s).isSome = true := by
  obtain ⟨negative, digits, hsign, hne, hdigits, hfits⟩ := exists_digits_of_integer h
  have hbound : ofDigits digits ≤ 2 ^ 63 := by
    generalize hk : (if negative then -(ofDigits digits : Int) else ofDigits digits) = k at hfits
    unfold int64? at hfits
    split at hfits
    · next hrange =>
      simp only [minInt64, maxInt64] at hrange
      split at hk <;> omega
    · cases hfits
  rw [real_of_fits (Literal.read_of_digits hsign hne hdigits) (fits_of_whole negative hbound)]
  rfl

end EnergyPlan.Decimal
