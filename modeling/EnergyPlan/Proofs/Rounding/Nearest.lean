/-
# The nearest integers of 53 bits

A double has 53 significant bits. An integer that takes more is rounded to the nearest one that
does not, halves to the even mantissa. Up to `2 ^ 53` every integer is its own nearest one, beyond
it several integers share theirs. Rounding keeps the order, and takes an integer of 64 bits no
further than 512.

Key definitions: `nearest`, `nearestInt`.
Key theorems: `nearest_mul_pow`, `nearestInt_mono`, `nearestInt_of_le`, `nearestInt_near`.
-/
import EnergyPlan.Proofs.Doubles

namespace EnergyPlan.Decimal

/-- The nearest natural number with 53 significant bits, halves to the even mantissa. -/
def nearest (n : Nat) : Nat := divHalfEven n (2 ^ (n.log2 - 52)) * 2 ^ (n.log2 - 52)

/-- The nearest integer with 53 significant bits. -/
def nearestInt (n : Int) : Int := if n < 0 then -(nearest n.natAbs : Int) else nearest n.natAbs

/-! ### Rounding a quotient -/

section

variable {num den a b c : Nat}

theorem le_divHalfEven (num den : Nat) : num / den ≤ divHalfEven num den := by
  unfold divHalfEven
  dsimp only
  split
  · exact Nat.le_refl _
  · split
    · exact Nat.le_succ _
    · split
      · exact Nat.le_refl _
      · exact Nat.le_succ _

theorem divHalfEven_mul_right (hc : 0 < c) : divHalfEven (a * c) (b * c) = divHalfEven a b := by
  unfold divHalfEven
  rw [Nat.mul_div_mul_right a b hc, Nat.mul_mod_mul_right]
  simp only [← Nat.mul_assoc, Nat.mul_lt_mul_right hc]

theorem divHalfEven_mul_self (hb : 0 < b) : divHalfEven (a * b) b = a := by
  unfold divHalfEven
  rw [Nat.mul_div_cancel a hb, Nat.mul_mod_left]
  simp [hb]

/-- Rounding keeps the order. -/
theorem divHalfEven_mono (h : a ≤ b) : divHalfEven a den ≤ divHalfEven b den := by
  have hle : a / den ≤ b / den := Nat.div_le_div_right h
  rcases Nat.lt_or_eq_of_le hle with hlt | heq
  · calc divHalfEven a den ≤ a / den + 1 := divHalfEven_le a den
      _ ≤ b / den := hlt
      _ ≤ divHalfEven b den := le_divHalfEven b den
  · have ha := Nat.div_add_mod a den
    have hb := Nat.div_add_mod b den
    rw [heq] at ha
    by_cases hmore : den < 2 * (b % den)
    · have hup : divHalfEven b den = b / den + 1 := by
        unfold divHalfEven
        dsimp only
        rw [if_neg (by omega), if_pos hmore]
      calc divHalfEven a den ≤ a / den + 1 := divHalfEven_le a den
        _ = divHalfEven b den := by rw [hup, heq]
    · by_cases hless : 2 * (a % den) < den
      · have hdown : divHalfEven a den = a / den := if_pos hless
        rw [hdown, heq]
        exact le_divHalfEven b den
      · -- both remainders are the half
        have hsame : a = b := by omega
        rw [hsame]

end

/-! ### The nearest integer of 53 bits -/

variable {n m : Nat}

theorem nearest_of_lt (h : n < 2 ^ 53) : nearest n = n := by
  have hlog : n.log2 - 52 = 0 := by
    by_cases h0 : n = 0
    · rw [h0]
      decide
    · have hlt := (Nat.log2_lt h0).2 h
      omega
  have hone := divHalfEven_mul_self (a := n) Nat.one_pos
  rw [Nat.mul_one] at hone
  rw [nearest, hlog, Nat.pow_zero, hone, Nat.mul_one]

/-- A number and its nearest one lie between the same powers of 2. -/
theorem nearest_bounds (h : n ≠ 0) :
    2 ^ n.log2 ≤ nearest n ∧ nearest n ≤ 2 ^ (n.log2 + 1) := by
  have hlow : 2 ^ n.log2 ≤ n := Nat.log2_self_le h
  have hhigh : n < 2 ^ (n.log2 + 1) := Nat.lt_log2_self
  unfold nearest
  generalize hk : n.log2 - 52 = k
  have hpos : 0 < 2 ^ k := Nat.pow_pos (by decide)
  have hsplit : 2 ^ (n.log2 - k) * 2 ^ k = 2 ^ n.log2 := by
    rw [← Nat.pow_add, Nat.sub_add_cancel (by omega)]
  constructor
  · have hquotient : 2 ^ (n.log2 - k) ≤ n / 2 ^ k := by
      rwa [Nat.le_div_iff_mul_le hpos, hsplit]
    calc 2 ^ n.log2 = 2 ^ (n.log2 - k) * 2 ^ k := hsplit.symm
      _ ≤ n / 2 ^ k * 2 ^ k := Nat.mul_le_mul_right _ hquotient
      _ ≤ divHalfEven n (2 ^ k) * 2 ^ k := Nat.mul_le_mul_right _ (le_divHalfEven _ _)
  · have hquotient : n / 2 ^ k < 2 ^ (n.log2 - k) * 2 := by
      rwa [Nat.div_lt_iff_lt_mul hpos, Nat.mul_right_comm, hsplit, ← Nat.pow_succ]
    calc divHalfEven n (2 ^ k) * 2 ^ k ≤ (n / 2 ^ k + 1) * 2 ^ k :=
          Nat.mul_le_mul_right _ (divHalfEven_le _ _)
      _ ≤ 2 ^ (n.log2 - k) * 2 * 2 ^ k := Nat.mul_le_mul_right _ hquotient
      _ = 2 ^ (n.log2 + 1) := by rw [Nat.mul_right_comm, hsplit, ← Nat.pow_succ]

theorem log2_le_log2 (hm : m ≠ 0) (h : m ≤ n) : m.log2 ≤ n.log2 :=
  (Nat.le_log2 (by omega)).2 ((Nat.log2_self_le hm).trans h)

theorem nearest_pos (hn : n ≠ 0) : 0 < nearest n :=
  Nat.lt_of_lt_of_le (Nat.pow_pos Nat.two_pos) (nearest_bounds hn).1

theorem log2_mul_pow (hn : n ≠ 0) (p : Nat) : (n * 2 ^ p).log2 = n.log2 + p := by
  have hpos : 0 < 2 ^ p := Nat.pow_pos (by decide)
  refine (Nat.log2_eq_iff (Nat.mul_ne_zero hn (Nat.ne_of_gt hpos))).2 ⟨?_, ?_⟩
  · rw [Nat.pow_add]
    exact Nat.mul_le_mul_right _ (Nat.log2_self_le hn)
  · rw [Nat.add_right_comm, Nat.pow_add]
    exact Nat.mul_lt_mul_of_pos_right Nat.lt_log2_self hpos

/-- Where the point stands makes no difference to which number is the nearest. -/
theorem nearest_mul_pow (hn : n ≠ 0) (p : Nat) : nearest (n * 2 ^ p) = nearest n * 2 ^ p := by
  have hpos : 0 < 2 ^ p := Nat.pow_pos (by decide)
  by_cases hlarge : 52 ≤ n.log2
  · have hplace : n.log2 + p - 52 = n.log2 - 52 + p := by omega
    rw [nearest, nearest, log2_mul_pow hn, hplace, Nat.pow_add, divHalfEven_mul_right hpos,
      Nat.mul_assoc]
  · have hsmall : n < 2 ^ 53 := (Nat.log2_lt hn).1 (by omega)
    rw [nearest_of_lt hsmall, nearest, log2_mul_pow hn]
    generalize hk : n.log2 + p - 52 = k
    have hsplit : n * 2 ^ p = n * 2 ^ (p - k) * 2 ^ k := by
      rw [Nat.mul_assoc, ← Nat.pow_add, Nat.sub_add_cancel (by omega)]
    rw [hsplit, divHalfEven_mul_self (Nat.pow_pos (by decide))]

/-- **Rounding to 53 bits keeps the order.** -/
theorem nearest_mono (h : m ≤ n) : nearest m ≤ nearest n := by
  by_cases hm : m = 0
  · rw [hm, nearest_of_lt (by decide)]
    exact Nat.zero_le _
  · have hn : n ≠ 0 := by omega
    rcases Nat.lt_or_eq_of_le (log2_le_log2 hm h) with hlt | heq
    · calc nearest m ≤ 2 ^ (m.log2 + 1) := (nearest_bounds hm).2
        _ ≤ 2 ^ n.log2 := Nat.pow_le_pow_right (by decide) hlt
        _ ≤ nearest n := (nearest_bounds hn).1
    · unfold nearest
      rw [heq]
      exact Nat.mul_le_mul_right _ (divHalfEven_mono h)

theorem nearest_of_le (h : n ≤ 2 ^ 53) : nearest n = n := by
  rcases Nat.lt_or_eq_of_le h with hlt | rfl
  · exact nearest_of_lt hlt
  · decide

theorem nearestInt_mono {m n : Int} (h : m ≤ n) : nearestInt m ≤ nearestInt n := by
  unfold nearestInt
  split
  · next hm =>
    split
    · next hn =>
      have hmono : nearest n.natAbs ≤ nearest m.natAbs := nearest_mono (by omega)
      omega
    · omega
  · next hm =>
    rw [if_neg (by omega)]
    have hmono : nearest m.natAbs ≤ nearest n.natAbs := nearest_mono (by omega)
    omega

/-- Integers up to `2 ^ 53` are doubles. -/
theorem nearestInt_of_le {n : Int} (h : n.natAbs ≤ 2 ^ 53) : nearestInt n = n := by
  unfold nearestInt
  rw [nearest_of_le h]
  split <;> omega

theorem nearest_near (h : n ≤ 2 ^ 63) : nearest n ≤ n + 512 ∧ n ≤ nearest n + 512 := by
  rcases Nat.lt_or_eq_of_le h with hlt | rfl
  · have hlog : n.log2 - 52 ≤ 10 := by
      by_cases hn : n = 0
      · rw [hn]
        decide
      · have hlog := (Nat.log2_lt hn).2 hlt
        omega
    have hunit : 2 ^ (n.log2 - 52) ≤ 2 ^ 10 := Nat.pow_le_pow_right (by decide) hlog
    obtain ⟨hdown, hup⟩ := divHalfEven_near n (2 ^ (n.log2 - 52)) (Nat.pow_pos Nat.two_pos)
    rw [Nat.add_mul, Nat.one_mul, Nat.mul_assoc] at hdown
    rw [Nat.mul_assoc] at hup
    unfold nearest
    omega
  · decide

/-- An integer of 64 bits is no further than 512 from its nearest one. -/
theorem nearestInt_near {n : Int} (h : n.natAbs ≤ 2 ^ 63) :
    nearestInt n ≤ n + 512 ∧ n ≤ nearestInt n + 512 := by
  obtain ⟨hup, hdown⟩ := nearest_near h
  unfold nearestInt
  split <;> omega

end EnergyPlan.Decimal
