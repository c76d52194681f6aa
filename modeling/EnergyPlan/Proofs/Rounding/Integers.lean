/-
# Integers as doubles

The double of an integer is that of the nearest integer with 53 significant bits. Rounding keeps
the order, so two integers compare as doubles the way their nearest ones compare: never the wrong
way round, but not at all where they are rounded to the same.

A mantissa is rounded while it is shifted to its place, one bit after the other, with a bit for
what was shifted out last and one for whether anything was before. What carries the proof is what
these bits say of the remainder after any number of shifts.

Key definitions: `Shows`, `rounded`.
Key theorems: `roundedMantissa_shiftRight`, `shows_rounded`, `shows_ofInt`, `decide_ofInt_lt`.
-/
import EnergyPlan.Proofs.Rounding.Nearest

namespace EnergyPlan.Decimal

open Float.Model (Format UnpackedFloat totalExponent)
open Float.Model.UnpackedFloat

variable {n m : Nat}

/-! ### Shifting a mantissa to its place -/

/-- What is left of a mantissa after some bits were shifted out, and what the two bits say of the
remainder: whether it is at least a half, and whether it is neither 0 nor a half. -/
theorem shiftRight_exact (mantissa t : Nat) :
    (⟨mantissa, false, false⟩ : ExtendedMantissa) >>> t =
      ⟨mantissa / 2 ^ t, decide (2 ^ t ≤ 2 * (mantissa % 2 ^ t)),
        decide (mantissa % 2 ^ t ≠ 0 ∧ 2 * (mantissa % 2 ^ t) ≠ 2 ^ t)⟩ := by
  induction t with
  | zero => simp [HShiftRight.hShiftRight, Nat.repeat, Nat.mod_one]
  | succ t ih =>
    have hstep : (⟨mantissa, false, false⟩ : ExtendedMantissa) >>> (t + 1) =
        ((⟨mantissa, false, false⟩ : ExtendedMantissa) >>> t).shiftRightOne := rfl
    have hpos : 0 < 2 ^ t := Nat.pow_pos (by decide)
    have hrest : mantissa % 2 ^ t < 2 ^ t := Nat.mod_lt _ hpos
    rw [hstep, ih, Nat.mod_pow_succ, Nat.pow_succ, ← Nat.div_div_eq_div_mul]
    unfold ExtendedMantissa.shiftRightOne
    dsimp only
    generalize mantissa / 2 ^ t = q
    generalize mantissa % 2 ^ t = r at *
    generalize 2 ^ t = unit at *
    have hscaled : unit * (q % 2) = 0 ∧ q % 2 = 0 ∨ unit * (q % 2) = unit ∧ q % 2 = 1 := by
      rcases Nat.mod_two_eq_zero_or_one q with hbit | hbit
      · exact .inl ⟨by rw [hbit, Nat.mul_zero], hbit⟩
      · exact .inr ⟨by rw [hbit, Nat.mul_one], hbit⟩
    refine congrArg₂ (ExtendedMantissa.mk (q / 2)) ?_ ?_
    · rw [Bool.eq_iff_iff]
      simp only [decide_eq_true_eq, bne_iff_ne]
      omega
    · rw [Bool.eq_iff_iff]
      simp only [Bool.or_eq_true, decide_eq_true_eq]
      omega

/-- **A mantissa is rounded to the nearest,** halves to the even one, however far it is shifted. -/
theorem roundedMantissa_shiftRight (mantissa t : Nat) :
    ((⟨mantissa, false, false⟩ : ExtendedMantissa) >>> t).roundedMantissa =
      divHalfEven mantissa (2 ^ t) := by
  have hpos : 0 < 2 ^ t := Nat.pow_pos (by decide)
  rw [shiftRight_exact]
  unfold divHalfEven ExtendedMantissa.roundedMantissa
  generalize mantissa / 2 ^ t = q
  generalize mantissa % 2 ^ t = r
  generalize 2 ^ t = unit at *
  rcases Nat.lt_trichotomy (2 * r) unit with hless | hhalf | hmore
  · rw [if_pos hless, decide_eq_false (Nat.not_le.2 hless)]
    by_cases hr : r = 0
    · rw [decide_eq_false (fun h => h.1 hr)]
      rfl
    · rw [decide_eq_true ⟨hr, Nat.ne_of_lt hless⟩]
      rfl
  · rw [if_neg (by omega), if_neg (by omega), decide_eq_true (Nat.le_of_eq hhalf.symm),
      decide_eq_false (fun h => h.2 hhalf)]
    simp only [ExtendedMantissa.accuracy, Accuracy.roundToNearestEven]
    split <;> omega
  · rw [if_neg (by omega), if_pos hmore, decide_eq_true (Nat.le_of_lt hmore),
      decide_eq_true ⟨by omega, Nat.ne_of_gt hmore⟩]
    rfl

/-! ### The double of a number -/

theorem shiftToTargetExponent_eq {e : Int} {t : Nat} (hlog : n.log2 = 52 + t)
    (hleast : -1074 ≤ e + t) :
    shiftToTargetExponent Format.binary64 n e .exact =
      ((⟨n, false, false⟩ : ExtendedMantissa) >>> t, e + t) := by
  have htarget : Format.binary64.targetExponent (totalExponent n e) = e + t := by
    show max ((n.log2 : Int) + 1 + e - 53) (-1074) = e + t
    omega
  have hshift : (e + t - e).toNat = t := by omega
  unfold shiftToTargetExponent shiftToExponent
  dsimp only
  rw [htarget, hshift]
  rfl

/-- A double that is an integer: zero, or a mantissa of 53 bits at its place. -/
inductive Shows : UnpackedFloat → Int → Prop
  | zero : Shows (.zero .positive) 0
  | finite (s : Sign) {m place r : Nat} (hpos : 0 < m) (hlow : 2 ^ 52 ≤ m) (hhigh : m < 2 ^ 53)
      (hplace : place ≤ 64) (hvalue : m * 2 ^ place = r * 2 ^ 52) :
      Shows (.finite s m ((place : Int) - 52) hpos) (s.apply r)

/-- The mantissa after rounding takes 53 bits, or is the least one of 54, which is shifted once
more. -/
theorem roundWithAccuracy_eq (s : Sign) {e : Int} {t : Nat} (hlog : n.log2 = 52 + t)
    (hleast : -1074 ≤ e + t) :
    ∃ m t' e', ∃ hpos : 0 < m, 2 ^ 52 ≤ m ∧ m < 2 ^ 53 ∧ m * 2 ^ t' = nearest n ∧
      t ≤ t' ∧ t' ≤ t + 1 ∧ e' = e + t' ∧
      roundWithAccuracy Format.binary64 s n e .exact = .finite s m e' hpos := by
  have hn : n ≠ 0 := by
    rintro rfl
    rw [Nat.log2_zero] at hlog
    omega
  have hnearest : nearest n = divHalfEven n (2 ^ t) * 2 ^ t := by
    rw [nearest, hlog, Nat.add_sub_cancel_left]
  have hpow : 0 < 2 ^ t := Nat.pow_pos (by decide)
  have hbounds := nearest_bounds hn
  rw [hnearest, hlog, Nat.pow_add, Nat.add_right_comm, Nat.pow_add, Nat.mul_le_mul_right_iff hpow,
    Nat.mul_le_mul_right_iff hpow] at hbounds
  obtain ⟨hlow, hhigh⟩ := hbounds
  unfold roundWithAccuracy
  rw [shiftToTargetExponent_eq hlog hleast]
  dsimp only
  rw [roundedMantissa_shiftRight]
  generalize divHalfEven n (2 ^ t) = q at *
  rcases Nat.lt_or_eq_of_le hhigh with hlt | rfl
  · have hlogq : q.log2 = 52 + 0 := (Nat.log2_eq_iff (by omega)).2 ⟨hlow, hlt⟩
    rw [shiftToTargetExponent_eq hlogq (by omega)]
    exact ⟨q, t, e + t + (0 : Nat), Nat.lt_of_lt_of_le (by decide) hlow, hlow, hlt,
      hnearest.symm, Nat.le_refl t, Nat.le_succ t, Int.add_zero _,
      dif_neg (Nat.ne_of_gt (Nat.lt_of_lt_of_le (by decide) hlow))⟩
  · have hlogq : (2 ^ 53).log2 = 52 + 1 := by decide
    rw [shiftToTargetExponent_eq hlogq (by omega)]
    have hshift : (⟨2 ^ 53, false, false⟩ : ExtendedMantissa) >>> 1 =
        ⟨2 ^ 52, false, false⟩ := rfl
    rw [hshift]
    dsimp only
    refine ⟨2 ^ 52, t + 1, e + t + (1 : Nat), by decide, by decide, by decide, ?_,
      Nat.le_succ t, Nat.le_refl _, by omega, dif_neg (by decide)⟩
    rw [hnearest, Nat.pow_succ]
    omega

/-- A number that is written with some bits below the point, rounded to a double. -/
def rounded (s : Sign) (n p : Nat) : UnpackedFloat :=
  roundWithAccuracy Format.binary64 s (n * 2 ^ p) (-p) .exact

/-- A number that is written with enough bits is rounded to its nearest one. -/
theorem shows_rounded (s : Sign) {p : Nat} (hn : n ≠ 0) (hrange : n.log2 < 64)
    (hbits : 52 ≤ n.log2 + p) : Shows (rounded s n p) (s.apply (nearest n)) := by
  obtain ⟨t, ht⟩ := Nat.exists_eq_add_of_le hbits
  have hlog : (n * 2 ^ p).log2 = 52 + t := by rw [log2_mul_pow hn, ht]
  obtain ⟨m, t', e', hpos, hlow, hhigh, hvalue, hge, hle, he, hround⟩ :=
    roundWithAccuracy_eq (e := -p) s hlog (by omega)
  rw [nearest_mul_pow hn] at hvalue
  have hplace : p ≤ t' + 52 := by omega
  obtain ⟨place, hsum⟩ := Nat.exists_eq_add_of_le hplace
  have hexponent : e' = (place : Int) - 52 := by omega
  subst hexponent
  rw [rounded, hround]
  refine .finite s hpos hlow hhigh (by omega) ?_
  refine Nat.eq_of_mul_eq_mul_right (Nat.pow_pos Nat.two_pos : 0 < 2 ^ p) ?_
  calc m * 2 ^ place * 2 ^ p = m * 2 ^ t' * 2 ^ 52 := by
        rw [Nat.mul_assoc, Nat.mul_assoc, ← Nat.pow_add, ← Nat.pow_add, Nat.add_comm place,
          hsum]
    _ = nearest n * 2 ^ 52 * 2 ^ p := by rw [hvalue, Nat.mul_right_comm]

variable {x y : UnpackedFloat} {r r' : Int}

theorem toNat_append_one (hlow : 2 ^ 52 ≤ m) (hhigh : m < 2 ^ 53) :
    (1#1 ++ BitVec.ofNat 52 m).toNat = m := by
  have hbits : m % 2 ^ 52 < 2 ^ 52 := Nat.mod_lt _ (by decide)
  rw [BitVec.toNat_append, BitVec.toNat_ofNat, BitVec.toNat_ofNat,
    ← Nat.shiftLeft_add_eq_or_of_lt hbits, Nat.shiftLeft_eq]
  omega

/-- The bits of a normal double and its parts. -/
theorem unpack_packComponents {s : Sign} {exponent : BitVec 11} {mantissa : BitVec 52}
    (hinfinite : exponent ≠ -1#11) (hsmall : exponent ≠ 0#11)
    (hlow : 0 < (1#1 ++ mantissa).toNat) :
    UnpackedFloat.unpack Format.binary64 (packComponents Format.binary64 s exponent mantissa) =
      .finite s (1#1 ++ mantissa).toNat ((exponent.toNat : Int) - 1075) hlow := by
  unfold UnpackedFloat.unpack
  simp only [unpackMantissa_packComponents, unpackExponent_packComponents,
    unpackSign_packComponents, Sign.ofBitVec_toBitVec]
  rw [if_neg hinfinite, if_neg hsmall]
  rfl

/-- A double that is an integer has its bits. -/
theorem Shows.unpack_pack (h : Shows x r) : (Float.Model.pack x).unpack = x := by
  cases h with
  | zero => rfl
  | @finite s m place _ hpos hlow hhigh hplace =>
    have hlog : m.log2 = 52 := (Nat.log2_eq_iff (by omega)).2 ⟨hlow, hhigh⟩
    have hbiased : ((place : Int) - 52 + 1023 + 52).toNat = place + 1023 := by omega
    have hpack : UnpackedFloat.pack Format.binary64 (.finite s m (place - 52) hpos) =
        packComponents Format.binary64 s (BitVec.ofNat 11 (place + 1023)) (BitVec.ofNat 52 m) := by
      rw [← hbiased]
      show (if 2 ^ 11 ≤ ((place : Int) - 52 + 1023 + 52).toNat + 1 then _ else
        if m.log2 + 1 = 53 then _ else _) = _
      rw [if_neg (by omega), if_pos (by omega)]
      rfl
    have hexponent : (BitVec.ofNat 11 (place + 1023)).toNat = place + 1023 := by
      rw [BitVec.toNat_ofNat]
      omega
    have hmantissa : (1#1 ++ BitVec.ofNat 52 m).toNat = m := toNat_append_one hlow hhigh
    have hunbiased : ((place + 1023 : Nat) : Int) - 1075 = place - 52 := by omega
    have hinfinite : BitVec.ofNat 11 (place + 1023) ≠ -1#11 := by
      intro h
      have hall : place + 1023 = 2047 := hexponent.symm.trans (congrArg BitVec.toNat h)
      omega
    have hsmall : BitVec.ofNat 11 (place + 1023) ≠ 0#11 := by
      intro h
      have hnone : place + 1023 = 0 := hexponent.symm.trans (congrArg BitVec.toNat h)
      omega
    show UnpackedFloat.unpack Format.binary64
      (UnpackedFloat.pack Format.binary64 (.finite s m (place - 52) hpos)) = _
    rw [hpack, unpack_packComponents hinfinite hsmall (by rwa [hmantissa])]
    simp only [hmantissa, hexponent, hunbiased]

theorem mul_finite (s s' : Sign) {m m' : Nat} (e e' : Int) (hm : 0 < m) (hm' : 0 < m') :
    UnpackedFloat.mul Format.binary64 (.finite s m e hm) (.finite s' m' e' hm') =
      roundWithAccuracy Format.binary64 (s * s') (m * m') (e + e') .exact := rfl

theorem ofNat_of_le (h : 2 ^ 53 ≤ n) :
    (Float.ofNat n).toModel = .pack (rounded .positive n 53) := by
  have hscientific : Float.ofNat n = ⟨Float.Model.ofScientific n 0⟩ := by
    show Float.ofScientific n false 0 = _
    rw [Float.ofScientific, dif_neg (by omega)]
    rfl
  have hrange : ¬(0 : Int) < -(2 ^ 11 + (n.log2 : Int)) := by omega
  rw [hscientific]
  show Float.Model.pack (UnpackedFloat.ofScientific Format.binary64 n 0) = _
  unfold UnpackedFloat.ofScientific
  rw [dif_neg (by omega), if_neg (by decide), if_neg hrange, if_pos (by decide), mul_finite,
    Nat.shiftLeft_eq]
  show Float.Model.pack (roundWithAccuracy _ _ (n * 2 ^ 53 * 1) _ _) = _
  rw [Nat.mul_one]
  rfl

theorem toFloat_of_lt (h : n < 2 ^ 53) (hn : n ≠ 0) :
    n.toUInt64.toFloat.toModel = .pack (rounded .positive n (52 - n.log2)) := by
  have htoNat : n.toUInt64.toNat = n := by
    show n % 2 ^ 64 = n
    omega
  have hlog : n.log2 < 53 := (Nat.log2_lt hn).2 h
  have htarget : Format.binary64.targetExponent (totalExponent n 0) = -(52 - n.log2 : Nat) := by
    show max ((n.log2 : Int) + 1 + 0 - 53) (-1074) = -(52 - n.log2 : Nat)
    omega
  have hshift : ((0 : Int) - -(52 - n.log2 : Nat)).toNat = 52 - n.log2 := by omega
  have hround : UnpackedFloat.normalize Format.binary64 n 0 .positive =
      UnpackedFloat.round Format.binary64 .positive n 0 := by
    unfold UnpackedFloat.normalize
    rw [Int.compare_eq_gt.2 (by omega)]
    rfl
  show Float.Model.pack (.normalize Format.binary64 n.toUInt64.toNat 0 .positive) = _
  rw [htoNat, hround]
  unfold UnpackedFloat.round decreaseExponent
  dsimp only
  rw [htarget, hshift, Nat.shiftLeft_eq, Int.zero_sub]
  rfl

theorem ofNat_of_lt (h : n < 2 ^ 53) :
    Float.ofNat n = n.toUInt64.toFloat * Float.ofBits 4607182418800017408 := by
  show Float.ofScientific n false 0 = _
  rw [Float.ofScientific, dif_pos ⟨h, by decide⟩]
  rfl

/-- The parts of the double 1. -/
def one : UnpackedFloat := .finite .positive (2 ^ 52) (-52) (by decide)

theorem unpack_one : (Float.ofBits 4607182418800017408).toModel.unpack = one := rfl

/-- A number of 53 bits is its mantissa with the bits below the point left out. -/
theorem exists_below {place : Nat} (hlow : 2 ^ 52 ≤ m) (hvalue : m * 2 ^ place = n * 2 ^ 52)
    (hsmall : n < 2 ^ 53) :
    ∃ below, 52 = place + below ∧ m * 2 ^ 52 = n * 2 ^ (52 + below) := by
  have hle : place ≤ 52 := by
    by_contra hmore
    have hpow : 2 ^ 53 ≤ 2 ^ place := Nat.pow_le_pow_right Nat.two_pos (by omega)
    have hproduct : 2 ^ 52 * 2 ^ 53 ≤ m * 2 ^ place := Nat.mul_le_mul hlow hpow
    omega
  obtain ⟨below, hbelow⟩ := Nat.exists_eq_add_of_le hle
  refine ⟨below, hbelow, ?_⟩
  refine Nat.eq_of_mul_eq_mul_right (Nat.pow_pos Nat.two_pos : 0 < 2 ^ place) ?_
  calc m * 2 ^ 52 * 2 ^ place = n * 2 ^ 52 * 2 ^ 52 := by rw [Nat.mul_right_comm, hvalue]
    _ = n * 2 ^ 52 * 2 ^ (below + place) := by rw [Nat.add_comm below, ← hbelow]
    _ = n * 2 ^ (52 + below) * 2 ^ place := by
      rw [Nat.pow_add, Nat.pow_add, Nat.mul_assoc, Nat.mul_assoc, Nat.mul_assoc]

/-- Multiplied by 1, an integer of at most 53 bits stays what it is. -/
theorem Shows.mul_one (h : Shows x (n : Int)) (hn : n ≠ 0) (hsmall : n < 2 ^ 53) :
    Shows (UnpackedFloat.mul Format.binary64 x one) n := by
  generalize hr : (n : Int) = k at h
  cases h with
  | zero => omega
  | @finite s m place r hpos hlow _ _ hvalue =>
    cases s with
    | negative =>
      replace hr : (n : Int) = -(r : Int) := hr
      omega
    | positive =>
      obtain rfl : n = r := Int.ofNat_inj.1 hr
      have hlog : n.log2 < 53 := (Nat.log2_lt hn).2 hsmall
      obtain ⟨below, hbelow, hscaled⟩ := exists_below hlow hvalue hsmall
      have hexponent : (place : Int) - 52 + -52 = -(52 + below : Nat) := by omega
      have hshows : Shows (rounded .positive n (52 + below)) (nearest n) :=
        shows_rounded .positive hn (by omega) (by omega)
      rw [one, mul_finite, hscaled, hexponent]
      rwa [nearest_of_lt hsmall] at hshows

/-- **The double of a natural number** is that of the nearest one with 53 bits. -/
theorem shows_ofNat (h : n < 2 ^ 64) : Shows (Float.ofNat n).toModel.unpack (nearest n) := by
  by_cases hn : n = 0
  · subst hn
    exact .zero
  by_cases hlarge : 2 ^ 53 ≤ n
  · have hrange : n.log2 < 64 := (Nat.log2_lt hn).2 h
    have hshows : Shows (rounded .positive n 53) (nearest n) :=
      shows_rounded .positive hn hrange (by omega)
    rwa [ofNat_of_le hlarge, hshows.unpack_pack]
  · have hsmall : n < 2 ^ 53 := Nat.lt_of_not_le hlarge
    have hlog : n.log2 < 53 := (Nat.log2_lt hn).2 hsmall
    have hshows : Shows (rounded .positive n (52 - n.log2)) (nearest n) :=
      shows_rounded .positive hn (by omega) (by omega)
    have hproduct : (Float.ofNat n).toModel =
        .pack (.mul Format.binary64 (rounded .positive n (52 - n.log2)) one) := by
      rw [ofNat_of_lt hsmall]
      show Float.Model.mul n.toUInt64.toFloat.toModel _ = _
      rw [Float.Model.mul, toFloat_of_lt hsmall hn, hshows.unpack_pack, unpack_one]
    rw [nearest_of_lt hsmall] at hshows ⊢
    have hone := hshows.mul_one hn hsmall
    rwa [hproduct, hone.unpack_pack]

/-! ### The order of the doubles of integers -/

theorem Shows.neg (h : Shows x r) (hr : r ≠ 0) : Shows x.neg (-r) := by
  cases h with
  | zero => exact absurd rfl hr
  | @finite s m place r hpos hlow hhigh hplace hvalue =>
    have hneg : -(s.apply (r : Int)) = (-s).apply r := by
      cases s with
      | negative => exact Int.neg_neg _
      | positive => rfl
    rw [hneg]
    exact .finite (-s) hpos hlow hhigh hplace hvalue

/-- **The double of an integer** is that of the nearest one with 53 bits. -/
theorem shows_ofInt {n : Int} (h : n.natAbs < 2 ^ 64) :
    Shows (Float.ofInt n).toModel.unpack (nearestInt n) := by
  cases n with
  | ofNat n =>
    exact shows_ofNat h
  | negSucc n =>
    have hshows : Shows (Float.ofNat (n + 1)).toModel.unpack (nearest (n + 1)) := shows_ofNat h
    have hpos : 0 < nearest (n + 1) := nearest_pos (Nat.succ_ne_zero n)
    have hneg := hshows.neg (by omega)
    show Shows (Float.Model.pack (Float.ofNat (n + 1)).toModel.unpack.neg).unpack _
    rw [hneg.unpack_pack, nearestInt, if_pos (Int.negSucc_lt_zero n)]
    exact hneg

section

variable {m' place place' r r' : Nat}

theorem pos_of_mantissa_pos (hpos : 0 < m) (hvalue : m * 2 ^ place = r * 2 ^ 52) : 0 < r := by
  have hproduct : 0 < m * 2 ^ place := Nat.mul_pos hpos (Nat.pow_pos Nat.two_pos)
  omega

theorem lt_of_place_lt (hhigh : m < 2 ^ 53) (hlow : 2 ^ 52 ≤ m')
    (hvalue : m * 2 ^ place = r * 2 ^ 52) (hvalue' : m' * 2 ^ place' = r' * 2 ^ 52)
    (h : place < place') : r < r' := by
  refine Nat.lt_of_mul_lt_mul_right (a := 2 ^ 52) ?_
  calc r * 2 ^ 52 = m * 2 ^ place := hvalue.symm
    _ < 2 ^ 53 * 2 ^ place := Nat.mul_lt_mul_of_pos_right hhigh (Nat.pow_pos Nat.two_pos)
    _ = 2 ^ 52 * 2 ^ (place + 1) := by rw [Nat.pow_succ]; omega
    _ ≤ m' * 2 ^ place' := Nat.mul_le_mul hlow (Nat.pow_le_pow_right Nat.two_pos h)
    _ = r' * 2 ^ 52 := hvalue'

theorem lt_of_mantissa_lt (hvalue : m * 2 ^ place = r * 2 ^ 52)
    (hvalue' : m' * 2 ^ place = r' * 2 ^ 52) (h : m < m') : r < r' := by
  refine Nat.lt_of_mul_lt_mul_right (a := 2 ^ 52) ?_
  rw [← hvalue, ← hvalue']
  exact Nat.mul_lt_mul_of_pos_right h (Nat.pow_pos Nat.two_pos)

/-- Numbers of 53 bits are ordered by their places and then by their mantissas. -/
theorem compare_places (hlow : 2 ^ 52 ≤ m) (hhigh : m < 2 ^ 53) (hlow' : 2 ^ 52 ≤ m')
    (hhigh' : m' < 2 ^ 53) (hvalue : m * 2 ^ place = r * 2 ^ 52)
    (hvalue' : m' * 2 ^ place' = r' * 2 ^ 52) :
    (compare ((place : Int) - 52) ((place' : Int) - 52)).then (compare m m') =
      compare (r : Int) (r' : Int) := by
  rcases Nat.lt_trichotomy place place' with hplace | rfl | hplace
  · have hr : r < r' := lt_of_place_lt hhigh hlow' hvalue hvalue' hplace
    rw [Int.compare_eq_lt.2 (by omega), Int.compare_eq_lt.2 (Int.ofNat_lt.2 hr)]
    rfl
  · rw [Int.compare_eq_eq.2 rfl]
    show compare m m' = compare (r : Int) (r' : Int)
    rcases Nat.lt_trichotomy m m' with hm | rfl | hm
    · have hr : r < r' := lt_of_mantissa_lt hvalue hvalue' hm
      rw [Nat.compare_eq_lt.2 hm, Int.compare_eq_lt.2 (Int.ofNat_lt.2 hr)]
    · rw [Nat.compare_eq_eq.2 rfl, Int.compare_eq_eq.2 (by omega)]
    · have hr : r' < r := lt_of_mantissa_lt hvalue' hvalue hm
      rw [Nat.compare_eq_gt.2 hm, Int.compare_eq_gt.2 (Int.ofNat_lt.2 hr)]
  · have hr : r' < r := lt_of_place_lt hhigh' hlow hvalue' hvalue hplace
    rw [Int.compare_eq_gt.2 (by omega), Int.compare_eq_gt.2 (Int.ofNat_lt.2 hr)]
    rfl

theorem compare_neg_neg (a b : Int) : compare (-a) (-b) = (compare a b).swap := by
  rcases lt_trichotomy a b with h | rfl | h
  · rw [Int.compare_eq_lt.2 h, Int.compare_eq_gt.2 (Int.neg_lt_neg h)]
    rfl
  · rw [Int.compare_eq_eq.2 rfl, Int.compare_eq_eq.2 rfl]
    rfl
  · rw [Int.compare_eq_gt.2 h, Int.compare_eq_lt.2 (Int.neg_lt_neg h)]
    rfl

end

/-- Doubles that are integers are ordered as these are. -/
theorem Shows.compare_eq (hx : Shows x r) (hy : Shows y r') :
    x.compare y = some (compare r r') := by
  cases hx with
  | zero =>
    cases hy with
    | zero => rfl
    | @finite s m place r hpos _ _ _ hvalue =>
      have hr : 0 < r := pos_of_mantissa_pos hpos hvalue
      cases s with
      | negative => exact congrArg some (Int.compare_eq_gt.2 (show -(r : Int) < 0 by omega)).symm
      | positive => exact congrArg some (Int.compare_eq_lt.2 (show 0 < (r : Int) by omega)).symm
  | @finite s m place r hpos hlow hhigh _ hvalue =>
    have hr : 0 < r := pos_of_mantissa_pos hpos hvalue
    cases hy with
    | zero =>
      cases s with
      | negative => exact congrArg some (Int.compare_eq_lt.2 (show -(r : Int) < 0 by omega)).symm
      | positive => exact congrArg some (Int.compare_eq_gt.2 (show 0 < (r : Int) by omega)).symm
    | @finite s' m' place' r' hpos' hlow' hhigh' _ hvalue' =>
      have hr' : 0 < r' := pos_of_mantissa_pos hpos' hvalue'
      have hplaces := compare_places hlow hhigh hlow' hhigh' hvalue hvalue'
      cases s with
      | negative =>
        cases s' with
        | negative =>
          show some (Ordering.swap _) = some (compare (-(r : Int)) (-(r' : Int)))
          rw [hplaces, compare_neg_neg]
        | positive =>
          exact congrArg some (Int.compare_eq_lt.2 (show -(r : Int) < r' by omega)).symm
      | positive =>
        cases s' with
        | negative =>
          exact congrArg some (Int.compare_eq_gt.2 (show -(r' : Int) < r by omega)).symm
        | positive =>
          exact congrArg some hplaces

/-- **Two integers compare as doubles the way their nearest ones do.** -/
theorem decide_ofInt_lt {m n : Int} (hm : m.natAbs < 2 ^ 64) (hn : n.natAbs < 2 ^ 64) :
    decide (Float.ofInt m < Float.ofInt n) = decide (nearestInt m < nearestInt n) := by
  have hcompare := (shows_ofInt hm).compare_eq (shows_ofInt hn)
  have hlt : Float.ofInt m < Float.ofInt n ↔
      ((Float.ofInt m).toModel.unpack.compare (Float.ofInt n).toModel.unpack == some .lt) =
        true := by
    show Float.lt _ _ = true ↔ _
    rw [Float.lt, decide_eq_true_iff]
    rfl
  rw [decide_eq_decide, hlt, hcompare, beq_iff_eq, Option.some_inj, Int.compare_eq_lt]

end EnergyPlan.Decimal
