/-
# Integer arithmetic is exact or refused

Every operation on integers of 64 bits ends with the exact result if that fits, and with
`overflow` otherwise; no step on the way leaves the range. For a sum, a difference and a
product the look ahead says exactly whether the result fits. A quotient rounded to the floor
differs from the one rounded toward zero only if the divisor is at least 2 in magnitude, so
that there is room for the correction.

For a power the reason is in its loop: while bits of the exponent are left, the square that
is taken divides what the loop is to compute, and so does each partial product. A multiple
of an integer that does not fit does not fit either, so the loop stops early only where the
result is out of range. A partial product may be negative, but no square is exactly `2 ^ 63`.

Key definitions: `Word.checked`.
Key theorems: `Word.multiply_eq`, `Word.floorDivide_eq`, `Word.floorModulo_eq`,
`Word.power_eq`, `integer_operations_exact`.
-/
import EnergyPlan.Expr.Builtin
import Mathlib.Tactic.Linarith
import Mathlib.Tactic.Ring

namespace EnergyPlan.Expr

open Decimal

namespace Word

variable {a b n : Int}

/-- The exact result if it fits, and `overflow` otherwise. -/
def checked (n : Int) : Word := if Fits n then .ok n else .error .overflow

theorem fits_iff : Fits n ↔ -9223372036854775808 ≤ n ∧ n ≤ 9223372036854775807 := Iff.rfl

theorem checked_of_fits (h : Fits n) : checked n = .ok n := if_pos h

theorem checked_of_not_fits (h : ¬ Fits n) : checked n = .error .overflow := if_neg h

theorem step_of_fits (h : Fits n) : step n = .ok n := if_pos h

theorem fits_toInt (n : Int64) : Fits n.toInt := by
  have hlow := Int64.le_toInt n
  have hhigh := Int64.toInt_lt n
  rw [fits_iff]
  omega

/-- Nothing but `overflow` ends a checked computation without a result. -/
theorem checked_ne_escaped (n : Int) : checked n ≠ .error .escaped := by
  unfold checked
  split
  · nofun
  · nofun

theorem unlessLeaving_eq {leaves : Except Halt Bool} (h : leaves = .ok (decide ¬ Fits n)) :
    unlessLeaving leaves n = checked n := by
  subst h
  by_cases hn : Fits n
  · rw [checked_of_fits hn, ← step_of_fits hn]
    simp [unlessLeaving, hn, bind, Except.bind]
  · rw [checked_of_not_fits hn]
    simp [unlessLeaving, hn, bind, Except.bind]

/-! ### Signs, sums and differences -/

theorem negate_eq (ha : Fits a) : negate a = checked (-a) := by
  rw [fits_iff] at ha
  unfold negate
  split
  · next h =>
    subst h
    rfl
  · next h =>
    have hn : Fits (-a) := by
      rw [fits_iff]
      simp only [minInt64] at h
      omega
    rw [step_of_fits hn, checked_of_fits hn]

theorem absolute_eq (ha : Fits a) : absolute a = checked |a| := by
  unfold absolute
  split
  · next h => rw [negate_eq ha, abs_of_neg h]
  · next h =>
    rw [not_lt] at h
    rw [abs_of_nonneg h, checked_of_fits ha]

/-- The look ahead of a sum says whether it fits, also for the least integer with its sign
turned. -/
theorem sumLeaves_eq (ha : Fits a) (hb : b.natAbs ≤ 2 ^ 63) :
    sumLeaves a b = .ok (decide ¬ Fits (a + b)) := by
  rw [fits_iff] at ha
  unfold sumLeaves
  split
  · next hpos =>
    have hbound : Fits (maxInt64 - b) := by
      rw [fits_iff]
      simp only [maxInt64]
      omega
    rw [step_of_fits hbound]
    refine congrArg Except.ok (decide_eq_decide.2 ?_)
    rw [fits_iff]
    simp only [maxInt64]
    omega
  · split
    · next hneg =>
      have hbound : Fits (minInt64 - b) := by
        rw [fits_iff]
        simp only [minInt64]
        omega
      rw [step_of_fits hbound]
      refine congrArg Except.ok (decide_eq_decide.2 ?_)
      rw [fits_iff]
      simp only [minInt64]
      omega
    · have hsum : Fits (a + b) := by
        rw [fits_iff]
        omega
      rw [decide_eq_false (not_not.2 hsum)]

theorem add_eq (ha : Fits a) (hb : Fits b) : add a b = checked (a + b) := by
  rw [fits_iff] at hb
  exact unlessLeaving_eq (sumLeaves_eq ha (by omega))

/-- A difference looks ahead like the sum with the second operand's sign turned. -/
theorem differenceLeaves_eq (a b : Int) : differenceLeaves a b = sumLeaves a (-b) := by
  simp only [differenceLeaves, sumLeaves, Int.neg_pos, Left.neg_neg_iff, Int.sub_neg]

theorem subtract_eq (ha : Fits a) (hb : Fits b) : subtract a b = checked (a - b) := by
  rw [fits_iff] at hb
  refine unlessLeaving_eq ?_
  rw [differenceLeaves_eq, sumLeaves_eq ha (by omega), Int.sub_eq_add_neg]

/-! ### Quotients -/

theorem natAbs_tdiv_le_half (a : Int) (hb : 2 ≤ b.natAbs) : (a.tdiv b).natAbs ≤ a.natAbs / 2 := by
  rw [Int.natAbs_tdiv]
  exact Nat.div_le_div_left hb (by omega)

/-- Only the quotient of the least integer and -1 does not fit. -/
theorem fits_tdiv (ha : Fits a) (hb : b ≠ 0) (hmin : ¬ (a = minInt64 ∧ b = -1)) :
    Fits (a.tdiv b) := by
  rw [fits_iff] at ha ⊢
  simp only [minInt64] at hmin
  by_cases hone : b = 1
  · rw [hone, Int.tdiv_one]
    exact ha
  · by_cases hminus : b = -1
    · rw [hminus, Int.tdiv_neg, Int.tdiv_one]
      omega
    · have hhalf := natAbs_tdiv_le_half a (b := b) (by omega)
      omega

theorem quotient_eq (ha : Fits a) (hb : b ≠ 0) (hmin : ¬ (a = minInt64 ∧ b = -1)) :
    quotient a b = .ok (a.tdiv b) := by
  rw [quotient, if_neg hb, step_of_fits (fits_tdiv ha hb hmin)]

/-- The sign of a remainder is that of the dividend, and its magnitude is below the divisor's. -/
theorem tmod_bounds (a : Int) (hb : b ≠ 0) :
    (0 ≤ a → 0 ≤ a.tmod b) ∧ (a ≤ 0 → a.tmod b ≤ 0) ∧ (a.tmod b).natAbs < b.natAbs := by
  refine ⟨Int.tmod_nonneg b, fun ha => ?_, ?_⟩
  · have hneg := Int.tmod_nonneg b (Int.neg_nonneg_of_nonpos ha)
    rw [Int.neg_tmod] at hneg
    omega
  · rw [Int.natAbs_tmod]
    exact Nat.mod_lt _ (by omega)

theorem remainder_eq (ha : Fits a) (hb : Fits b) (hne : b ≠ 0)
    (hmin : ¬ (a = minInt64 ∧ b = -1)) : remainder a b = .ok (a.tmod b) := by
  obtain ⟨-, -, hlt⟩ := tmod_bounds a hne
  have hfits : Fits (a.tmod b) := by
    rw [fits_iff] at hb ⊢
    omega
  rw [remainder, quotient_eq ha hne hmin]
  exact step_of_fits hfits

/-- The floor of a quotient is one less than the quotient rounded toward zero if there is a
remainder and the signs differ. -/
theorem floor_of_trunc (a : Int) (hb : b ≠ 0) :
    (a.fdiv b = if a.tmod b ≠ 0 ∧ (a < 0) ≠ (b < 0) then a.tdiv b - 1 else a.tdiv b) ∧
      a.fmod b =
        if a.tmod b ≠ 0 ∧ (a.tmod b < 0) ≠ (b < 0) then a.tmod b + b else a.tmod b := by
  obtain ⟨hplus, hminus, hlt⟩ := tmod_bounds a hb
  have hsum := Int.tmod_add_mul_tdiv a b
  simp only [ne_eq, eq_iff_iff]
  generalize a.tdiv b = q at *
  generalize a.tmod b = r at *
  have hshift : r + b + b * (q - 1) = a := by
    rw [Int.mul_sub, Int.mul_one]
    omega
  rcases Int.lt_or_gt_of_ne hb with hneg | hpos
  · by_cases hr : r = 0 ∨ a < 0
    · have hfloor := (Int.fdiv_fmod_unique' hneg).2 ⟨hsum, by omega, by omega⟩
      rw [if_neg (by omega), if_neg (by omega)]
      exact hfloor
    · have hfloor := (Int.fdiv_fmod_unique' hneg).2 ⟨hshift, by omega, by omega⟩
      rw [if_pos (by omega), if_pos (by omega)]
      exact hfloor
  · by_cases hr : r = 0 ∨ 0 ≤ a
    · have hfloor := (Int.fdiv_fmod_unique hpos).2 ⟨hsum, by omega, by omega⟩
      rw [if_neg (by omega), if_neg (by omega)]
      exact hfloor
    · have hfloor := (Int.fdiv_fmod_unique hpos).2 ⟨hshift, by omega, by omega⟩
      rw [if_pos (by omega), if_pos (by omega)]
      exact hfloor

theorem floorDivide_eq (ha : Fits a) (hb : Fits b) (hne : b ≠ 0) :
    floorDivide a b = checked (a.fdiv b) := by
  unfold floorDivide
  split
  · next hmin =>
    obtain ⟨rfl, rfl⟩ := hmin
    rfl
  · next hmin =>
    rw [quotient_eq ha hne hmin, remainder_eq ha hb hne hmin, (floor_of_trunc a hne).1]
    simp only [bind, Except.bind]
    split
    · next hcorrect =>
      -- without a remainder the divisor could be 1 or -1
      have hone : b ≠ 1 := fun h => hcorrect.1 (h ▸ Int.tmod_one a)
      have hminus : b ≠ -1 := fun h => hcorrect.1 (by rw [h, Int.tmod_neg, Int.tmod_one])
      have hhalf := natAbs_tdiv_le_half a (b := b) (by omega)
      have hfits : Fits (a.tdiv b - 1) := by
        rw [fits_iff] at ha ⊢
        omega
      rw [step_of_fits hfits, checked_of_fits hfits]
    · rw [checked_of_fits (fits_tdiv ha hne hmin)]

theorem floorModulo_eq (ha : Fits a) (hb : Fits b) (hne : b ≠ 0) :
    floorModulo a b = checked (a.fmod b) := by
  unfold floorModulo
  obtain ⟨-, -, hlt⟩ := tmod_bounds a hne
  rw [(floor_of_trunc a hne).2]
  split
  · next hminus =>
    have hzero : a.tmod b = 0 := by omega
    rw [hzero, if_neg (by simp)]
    rfl
  · next hminus =>
    rw [remainder_eq ha hb hne fun h => hminus h.2]
    simp only [bind, Except.bind]
    rw [fits_iff] at hb
    split
    · next hcorrect =>
      have hfits : Fits (a.tmod b + b) := by
        simp only [ne_eq, eq_iff_iff] at hcorrect
        rw [fits_iff]
        omega
      rw [step_of_fits hfits, checked_of_fits hfits]
    · have hfits : Fits (a.tmod b) := by
        rw [fits_iff]
        omega
      rw [checked_of_fits hfits]

/-! ### Products -/

theorem tdiv_lt_iff {m : Int} (hm : 0 ≤ m) (hb : 0 < b) : m.tdiv b < a ↔ m < a * b := by
  rw [Int.tdiv_eq_ediv_of_nonneg hm, Int.ediv_lt_iff_lt_mul hb]

/-- The quotient of the least integer says when a negative product leaves the range. -/
theorem lt_minInt64_tdiv_iff (hb : 0 < b) : a < minInt64.tdiv b ↔ a * b < minInt64 := by
  have hquotient : minInt64.tdiv b = -(9223372036854775808 : Int).tdiv b := Int.neg_tdiv _ _
  rw [hquotient, lt_neg, tdiv_lt_iff (by decide) hb, Int.neg_mul, lt_neg]
  rfl

/-- The look ahead of a product says whether it fits. -/
theorem productLeaves_eq (ha0 : a ≠ 0) (hb0 : b ≠ 0) (ha1 : a ≠ -1) :
    productLeaves a b = .ok (decide ¬ Fits (a * b)) := by
  have hgreatest : Fits maxInt64 := by decide
  have hleast : Fits minInt64 := by decide
  have hmax (h : maxInt64 = minInt64) : False := by cases h
  unfold productLeaves
  split
  · next hapos =>
    split
    · next hbpos =>
      have hpos := Int.mul_pos hapos hbpos
      rw [quotient_eq hgreatest hb0 fun h => hmax h.1]
      refine congrArg Except.ok (decide_eq_decide.2 ?_)
      rw [tdiv_lt_iff (by decide) hbpos, fits_iff]
      simp only [maxInt64]
      omega
    · next hbpos =>
      have hneg : a * b < 0 := Int.mul_neg_of_pos_of_neg hapos (by omega)
      rw [quotient_eq hleast ha0 fun h => ha1 h.2]
      refine congrArg Except.ok (decide_eq_decide.2 ?_)
      rw [lt_minInt64_tdiv_iff hapos, Int.mul_comm, fits_iff]
      simp only [minInt64]
      omega
  · next hapos =>
    split
    · next hbpos =>
      have hneg : a * b < 0 := Int.mul_neg_of_neg_of_pos (by omega) hbpos
      rw [quotient_eq hleast hb0 (by omega)]
      refine congrArg Except.ok (decide_eq_decide.2 ?_)
      rw [lt_minInt64_tdiv_iff hbpos, fits_iff]
      simp only [minInt64]
      omega
    · next hbpos =>
      have hpos : 0 < a * b := Int.mul_pos_of_neg_of_neg (by omega) (by omega)
      have hquotient : maxInt64.tdiv b = -maxInt64.tdiv (-b) := by rw [Int.tdiv_neg, Int.neg_neg]
      rw [quotient_eq hgreatest hb0 fun h => hmax h.1]
      refine congrArg Except.ok (decide_eq_decide.2 ?_)
      rw [hquotient, lt_neg, tdiv_lt_iff (by decide) (by omega), Int.neg_mul_neg, fits_iff]
      simp only [maxInt64]
      omega

theorem multiply_eq (ha : Fits a) (hb : Fits b) : multiply a b = checked (a * b) := by
  unfold multiply
  split
  · next h =>
    rcases h with rfl | rfl
    · rw [Int.zero_mul]
      rfl
    · rw [Int.mul_zero]
      rfl
  · next hzero =>
    rw [not_or] at hzero
    split
    · next h =>
      rw [negate_eq hb, h]
      exact congrArg checked (Int.neg_one_mul b).symm
    · next ha1 =>
      split
      · next h =>
        rw [negate_eq ha, h]
        exact congrArg checked (Int.mul_neg_one a).symm
      · exact unlessLeaving_eq (productLeaves_eq hzero.1 hzero.2 ha1)

/-! ### Powers -/

/-- A multiple of what does not fit does not fit. -/
theorem not_fits_mul_of_pos {k : Int} (h : ¬ Fits n) (hk : 0 < k) : ¬ Fits (n * k) := by
  rw [fits_iff] at h ⊢
  rcases lt_or_ge n 0 with hneg | hpos
  · have hle : n * k ≤ n := by nlinarith
    omega
  · have hle : n ≤ n * k := by nlinarith
    omega

/-- No square is `2 ^ 63`. -/
theorem lt_square_of_not_fits (h : ¬ Fits (b * b)) : 9223372036854775808 < b * b := by
  have hsquare : ((b.natAbs * b.natAbs : Nat) : Int) = b * b := Int.natAbs_mul_self
  rw [fits_iff] at h
  rcases Nat.lt_or_ge b.natAbs 3037000500 with hsmall | hlarge
  · have hle : b.natAbs * b.natAbs ≤ 3037000499 * 3037000499 :=
      Nat.mul_le_mul (Nat.le_of_lt_succ hsmall) (Nat.le_of_lt_succ hsmall)
    omega
  · have hle : 3037000500 * 3037000500 ≤ b.natAbs * b.natAbs := Nat.mul_le_mul hlarge hlarge
    omega

/-- No multiple of a square that does not fit fits, whatever its sign. -/
theorem not_fits_mul_square {k : Int} (h : ¬ Fits (b * b)) (hk : k ≠ 0) :
    ¬ Fits (k * (b * b)) := by
  have hlarge := lt_square_of_not_fits h
  rw [fits_iff]
  rcases lt_or_gt_of_ne hk with hneg | hpos
  · have hle : k * (b * b) ≤ -(b * b) := by nlinarith
    omega
  · have hle : b * b ≤ k * (b * b) := by nlinarith
    omega

/-- What `multiplyBit` computes. -/
def multipliedBit (result base : Int) (exponent : Nat) : Int :=
  if exponent % 2 = 1 then result * base else result

section

variable {result base : Int} (hr : Fits result) (hb : Fits base) (exponent : Nat)
include hr hb

theorem multiplyBit_eq :
    multiplyBit result base exponent = checked (multipliedBit result base exponent) := by
  unfold multiplyBit multipliedBit
  split
  · exact multiply_eq hr hb
  · exact (checked_of_fits hr).symm

/-- With a base of 0 the result stays in range. -/
theorem base_ne_zero_of_not_fits (h : ¬ Fits (multipliedBit result base exponent)) : base ≠ 0 := by
  rintro rfl
  refine h ?_
  unfold multipliedBit
  split
  · rw [Int.mul_zero]
    exact hb
  · exact hr

end

theorem multipliedBit_eq_zero {result base : Int} (exponent : Nat) (hzero : result = 0 → base = 0)
    (h : multipliedBit result base exponent = 0) : base = 0 := by
  unfold multipliedBit at h
  split at h
  · rcases Int.mul_eq_zero.1 h with h | h
    · exact hzero h
    · exact h
  · exact hzero h

/-- One round of the loop leaves what is to be computed as it is. -/
theorem mul_pow_halve (result base : Int) (exponent : Nat) :
    result * base ^ exponent =
      multipliedBit result base exponent * (base * base) ^ (exponent / 2) := by
  have hexponent := Nat.div_add_mod exponent 2
  unfold multipliedBit
  rw [← sq, ← pow_mul]
  split
  · next hodd =>
    rw [hodd] at hexponent
    rw [Int.mul_assoc, ← pow_succ', hexponent]
  · next heven =>
    have hzero : exponent % 2 = 0 := by omega
    rw [hzero, Nat.add_zero] at hexponent
    rw [hexponent]

/-- **The loop of a power computes the exact product or finds that it does not fit,** by induction
on the exponent. A result of 0 comes from a base of 0 only, so no square is taken that the product
does not have as a factor. -/
theorem powerFrom_eq (exponent : Nat) {result base : Int} (hr : Fits result) (hb : Fits base)
    (hzero : result = 0 → base = 0) :
    powerFrom result base exponent = checked (result * base ^ exponent) := by
  induction exponent using Nat.strong_induction_on generalizing result base with
  | _ exponent ih =>
    rw [powerFrom]
    split
    · next h => rw [h, pow_zero, Int.mul_one, checked_of_fits hr]
    · next hpos =>
      have hbase := base_ne_zero_of_not_fits hr hb exponent
      have hnext := multipliedBit_eq_zero exponent hzero
      rw [multiplyBit_eq hr hb, mul_pow_halve]
      generalize multipliedBit result base exponent = next at *
      by_cases hfits : Fits next
      · rw [checked_of_fits hfits]
        simp only [bind, Except.bind]
        split
        · next hlast => rw [hlast, pow_zero, Int.mul_one, checked_of_fits hfits]
        · next hmore =>
          rw [multiply_eq hb hb]
          by_cases hsquare : Fits (base * base)
          · rw [checked_of_fits hsquare]
            exact ih _ (by omega) hfits hsquare fun h => by rw [hnext h, Int.mul_zero]
          · have hne : base ≠ 0 := by
              rintro rfl
              exact hsquare (by decide)
            have hfactor : next * (base * base) ^ (exponent / 2 - 1) ≠ 0 :=
              Int.mul_ne_zero (fun h => hne (hnext h)) (pow_ne_zero _ (Int.mul_ne_zero hne hne))
            have hlast : next * (base * base) ^ (exponent / 2) =
                next * (base * base) ^ (exponent / 2 - 1) * (base * base) := by
              rw [Int.mul_assoc, ← pow_succ, Nat.sub_add_cancel (by omega)]
            rw [hlast, checked_of_not_fits hsquare,
              checked_of_not_fits (not_fits_mul_square hsquare hfactor)]
      · have hsquare : 0 < base * base := mul_self_pos.2 (hbase hfits)
        rw [checked_of_not_fits hfits,
          checked_of_not_fits (not_fits_mul_of_pos hfits (pow_pos hsquare _))]
        rfl

theorem power_eq (hb : Fits b) (exponent : Nat) : power b exponent = checked (b ^ exponent) := by
  rw [power, powerFrom_eq exponent (by decide) hb (fun h => absurd h (by decide)), Int.one_mul]

end Word

/-! ### Operators and functions -/

open Word

theorem wholeResult_checked (n : Int) : wholeResult (checked n) = exactInt n := by
  by_cases h : Fits n
  · have hn : int64? n = some (Int64.ofInt n) := if_pos h
    rw [checked_of_fits h, exactInt, hn]
    rfl
  · have hn : int64? n = none := if_neg h
    rw [checked_of_not_fits h, exactInt, hn]
    rfl

section

variable {a b : Value} {m n : Int64} (ha : a.integer? = some m) (hb : b.integer? = some n)
include ha

theorem number_of_integer : ∃ x, a.number? = some x := by
  cases a with
  | int k => exact ⟨_, rfl⟩
  | bool b => exact ⟨_, rfl⟩
  | none | real _ | string _ | list _ | map _ => cases ha

theorem unaryOperation_minus_integer :
    unaryOperation .minus a = wholeResult (Word.negate m.toInt) := by
  cases a with
  | int k =>
    cases ha
    rfl
  | bool b =>
    cases ha
    rfl
  | none | real _ | string _ | list _ | map _ => cases ha

theorem callFunction_abs_integer :
    callFunction .abs [a] = wholeResult (Word.absolute m.toInt) := by
  simp [callFunction, countArguments, argument, ha, bind, Except.bind]

include hb

/-- Joining strings or lists aside, an operator on integers is one on numbers. -/
theorem arithmetic_integers (op : BinaryOp) :
    ∃ x y, arithmetic op a b = numberArithmetic op a b x y := by
  obtain ⟨x, hx⟩ := number_of_integer ha
  obtain ⟨y, hy⟩ := number_of_integer hb
  refine ⟨x, y, ?_⟩
  unfold arithmetic
  split
  · cases ha
  · cases ha
  · rw [hx, hy]

theorem arithmetic_integerArithmetic {op : BinaryOp}
    (hop : op ∈ [.add, .subtract, .multiply, .floorDivide, .modulo]) :
    arithmetic op a b = integerArithmetic op m.toInt n.toInt := by
  obtain ⟨x, y, h⟩ := arithmetic_integers ha hb op
  rw [h]
  simp only [List.mem_cons, List.not_mem_nil, or_false] at hop
  rcases hop with rfl | rfl | rfl | rfl | rfl
  all_goals simp only [numberArithmetic, ha, hb]

theorem arithmetic_power {op : BinaryOp} (hop : op ∈ [.power, .caret]) (hn : 0 ≤ n.toInt) :
    arithmetic op a b = wholeResult (Word.power m.toInt n.toInt.toNat) := by
  obtain ⟨x, y, h⟩ := arithmetic_integers ha hb op
  rw [h]
  simp only [List.mem_cons, List.not_mem_nil, or_false] at hop
  rcases hop with rfl | rfl
  all_goals simp only [numberArithmetic, power, ha, hb, if_pos hn]

end

/-- **Arithmetic on integers and truth values is exact or refused.** A sign turned, a magnitude, a
sum, a difference, a product, a floored quotient, its remainder and a power are the exact integer if
it fits in 64 bits and an `overflow` if not; dividing by 0 is refused, and no step of the
computation leaves the range. -/
theorem integer_operations_exact {a b : Value} {m n : Int64} (ha : a.integer? = some m)
    (hb : b.integer? = some n) :
    unaryOperation .minus a = exactInt (-m.toInt) ∧
      callFunction .abs [a] = exactInt |m.toInt| ∧
      arithmetic .add a b = exactInt (m.toInt + n.toInt) ∧
      arithmetic .subtract a b = exactInt (m.toInt - n.toInt) ∧
      arithmetic .multiply a b = exactInt (m.toInt * n.toInt) ∧
      (n = 0 → ∀ op ∈ [.floorDivide, .modulo],
        arithmetic op a b = refuse .integerDivisionByZero) ∧
      (n ≠ 0 → arithmetic .floorDivide a b = exactInt (m.toInt.fdiv n.toInt) ∧
        arithmetic .modulo a b = exactInt (m.toInt.fmod n.toInt)) ∧
      (0 ≤ n.toInt → ∀ op ∈ [.power, .caret],
        arithmetic op a b = exactInt (m.toInt ^ n.toInt.toNat)) ∧
      (∀ word ∈ [negate m.toInt, absolute m.toInt, add m.toInt n.toInt, subtract m.toInt n.toInt,
          multiply m.toInt n.toInt, Word.power m.toInt n.toInt.toNat],
        word ≠ .error .escaped) ∧
      (n ≠ 0 → ∀ word ∈ [floorDivide m.toInt n.toInt, floorModulo m.toInt n.toInt],
        word ≠ .error .escaped) := by
  have hm := fits_toInt m
  have hn := fits_toInt n
  have hne (h : n ≠ 0) : n.toInt ≠ 0 := fun h0 => h (Int64.toInt_inj.1 h0)
  refine ⟨?_, ?_, ?_, ?_, ?_, ?_, ?_, ?_, ?_, ?_⟩
  · rw [unaryOperation_minus_integer ha, negate_eq hm, wholeResult_checked]
  · rw [callFunction_abs_integer ha, absolute_eq hm, wholeResult_checked]
  · rw [arithmetic_integerArithmetic ha hb (by simp), integerArithmetic, add_eq hm hn,
      wholeResult_checked]
  · rw [arithmetic_integerArithmetic ha hb (by simp), integerArithmetic, subtract_eq hm hn,
      wholeResult_checked]
  · rw [arithmetic_integerArithmetic ha hb (by simp), integerArithmetic, multiply_eq hm hn,
      wholeResult_checked]
  · rintro rfl op hop
    simp only [List.mem_cons, List.not_mem_nil, or_false] at hop
    rcases hop with rfl | rfl
    · rw [arithmetic_integerArithmetic ha hb (by simp)]
      rfl
    · rw [arithmetic_integerArithmetic ha hb (by simp)]
      rfl
  · intro h
    constructor
    · rw [arithmetic_integerArithmetic ha hb (by simp), integerArithmetic, if_neg (hne h),
        floorDivide_eq hm hn (hne h), wholeResult_checked]
    · rw [arithmetic_integerArithmetic ha hb (by simp), integerArithmetic, if_neg (hne h),
        floorModulo_eq hm hn (hne h), wholeResult_checked]
      all_goals nofun
  · intro h op hop
    rw [arithmetic_power ha hb hop h, power_eq hm, wholeResult_checked]
  · simp only [List.forall_mem_cons, negate_eq hm, absolute_eq hm, add_eq hm hn, subtract_eq hm hn,
      multiply_eq hm hn, power_eq hm]
    simp [checked_ne_escaped]
  · intro h
    simp only [List.forall_mem_cons, floorDivide_eq hm hn (hne h), floorModulo_eq hm hn (hne h)]
    simp [checked_ne_escaped]

/-- The least integer and -1, whose product and quotient do not fit. -/
theorem integer_operations_least_minus_one :
    (Value.int (-9223372036854775808)).integer? = some (-9223372036854775808) ∧
      (Value.int (-1)).integer? = some (-1) ∧
      arithmetic .multiply (.int (-9223372036854775808)) (.int (-1)) = refuse .overflow ∧
      arithmetic .floorDivide (.int (-9223372036854775808)) (.int (-1)) = refuse .overflow ∧
      arithmetic .modulo (.int (-9223372036854775808)) (.int (-1)) = .ok (.int 0) ∧
      callFunction .abs [.int (-9223372036854775808)] = refuse .overflow := by
  obtain ⟨-, habs, -, -, hmultiply, -, hquotient, -⟩ :=
    integer_operations_exact (a := .int (-9223372036854775808)) (b := .int (-1)) rfl rfl
  obtain ⟨hdivide, hmodulo⟩ := hquotient (by decide)
  exact ⟨rfl, rfl, hmultiply.trans rfl, hdivide.trans rfl, hmodulo.trans rfl, habs.trans rfl⟩

end EnergyPlan.Expr
