/-
# A range is the part of a progression before its end

`range` lists `start`, `start + step`, `start + 2 * step`, … as long as they lie before `stop`,
and refuses if these are more than ten million, for every start and stop and every step but 0.

The count is taken from the distance to the end and from the stride, both modulo `2 ^ 64`. They
are exact all the same: a distance between integers of 64 bits is less than `2 ^ 64` even where
it is no such integer itself, and so is the stride of the least step. And no step of the loop
leaves the range, since every element that is listed lies between the start and the end, and none
is taken behind the last.

Key definitions: `Before`.
Key theorems: `toNat_distance`, `before_iff_lt_rangeLength`, `rangeFrom_eq`, `range_exact`.
-/
import EnergyPlan.Proofs.Integers

namespace EnergyPlan.Expr

open Word

/-- An integer lies before the end on the way of a step. -/
def Before (stop step x : Int) : Prop := if 0 < step then x < stop else stop < x

variable {start stop step low high : Int64}

/-! ### The count -/

/-- An integer and its bits without a sign. -/
theorem toInt_eq_toNat_toUInt64 (n : Int64) :
    n.toInt = if 2 * n.toUInt64.toNat < 2 ^ 64 then (n.toUInt64.toNat : Int)
      else n.toUInt64.toNat - 2 ^ 64 :=
  BitVec.toInt_eq_toNat_cond n.toBitVec

/-- **A distance is exact,** also where it is `2 ^ 63` or more. -/
theorem toNat_distance (h : low.toInt ≤ high.toInt) :
    ((distance low high).toNat : Int) = high.toInt - low.toInt := by
  have hlow := toInt_eq_toNat_toUInt64 low
  have hhigh := toInt_eq_toNat_toUInt64 high
  have hlt := low.toUInt64.toNat_lt
  have hlt' := high.toUInt64.toNat_lt
  rw [distance, UInt64.toNat_sub]
  split at hlow <;> split at hhigh <;> omega

theorem toNat_toUInt64 (h : 0 < step.toInt) : (step.toUInt64.toNat : Int) = step.toInt := by
  have hstep := toInt_eq_toNat_toUInt64 step
  have hlt := step.toUInt64.toNat_lt
  split at hstep <;> omega

/-- The stride of a step down is exact, also of the least step. -/
theorem toNat_neg_toUInt64 (h : step.toInt < 0) :
    ((0 - step.toUInt64).toNat : Int) = -step.toInt := by
  have hstep := toInt_eq_toNat_toUInt64 step
  have hlt := step.toUInt64.toNat_lt
  rw [UInt64.toNat_sub, UInt64.toNat_zero]
  split at hstep <;> omega

/-- How many strides a span has room for; one more than their quotient does not overflow. -/
theorem lt_toNat_count {span stride : UInt64} (hspan : 0 < span.toNat) (hstride : 0 < stride.toNat)
    (i : Nat) : i < ((span - 1) / stride + 1).toNat ↔ i * stride.toNat < span.toNat := by
  have hsub : (span - 1).toNat = span.toNat - 1 := by
    have hlt := span.toNat_lt
    rw [UInt64.toNat_sub, UInt64.toNat_one]
    omega
  have hcount : ((span - 1) / stride + 1).toNat = (span.toNat - 1) / stride.toNat + 1 := by
    have hlt := span.toNat_lt
    have hle : (span.toNat - 1) / stride.toNat ≤ span.toNat - 1 := Nat.div_le_self _ _
    rw [UInt64.toNat_add, UInt64.toNat_div, hsub, UInt64.toNat_one]
    exact Nat.mod_eq_of_lt (by omega)
  rw [hcount, Nat.lt_succ_iff, Nat.le_div_iff_mul_le hstride]
  omega

/-- **The count is that of the integers before the end.** -/
theorem before_iff_lt_rangeLength (h : step ≠ 0) (i : Nat) :
    Before stop.toInt step.toInt (start.toInt + i * step.toInt) ↔
      i < (rangeLength start stop step).toNat := by
  have hne : step.toInt ≠ 0 := fun h0 => h (Int64.toInt_inj.1 h0)
  unfold rangeLength Before
  simp only [Int64.lt_iff_toInt_lt, Int64.toInt_zero]
  by_cases hup : 0 < step.toInt
  · have hi : 0 ≤ (i : Int) * step.toInt := by positivity
    rw [if_pos hup]
    by_cases hlt : start.toInt < stop.toInt
    · have hdistance := toNat_distance hlt.le
      have hstride := toNat_toUInt64 hup
      rw [if_pos ⟨hup, hlt⟩, lt_toNat_count (by omega) (by omega)]
      zify
      rw [hdistance, hstride]
      omega
    · rw [if_neg (by omega), if_neg (by omega), UInt64.toNat_zero]
      omega
  · have hdown : step.toInt < 0 := by omega
    have hi : (i : Int) * step.toInt ≤ 0 := by
      exact mul_nonpos_of_nonneg_of_nonpos (by positivity) hdown.le
    rw [if_neg hup, if_neg (by omega)]
    by_cases hlt : stop.toInt < start.toInt
    · have hdistance := toNat_distance hlt.le
      have hstride := toNat_neg_toUInt64 hdown
      rw [if_pos ⟨hdown, hlt⟩, lt_toNat_count (by omega) (by omega)]
      zify
      rw [hdistance, hstride, mul_neg]
      omega
    · rw [if_neg (by omega), UInt64.toNat_zero]
      omega

/-! ### The loop -/

/-- What lies before the end of a range lies between its start and its end. -/
theorem fits_of_before {i : Nat}
    (h : Before stop.toInt step.toInt (start.toInt + i * step.toInt)) :
    Fits (start.toInt + i * step.toInt) := by
  have hstart := fits_toInt start
  have hstop := fits_toInt stop
  rw [fits_iff] at *
  unfold Before at h
  by_cases hup : 0 < step.toInt
  · have hi : 0 ≤ (i : Int) * step.toInt := by positivity
    rw [if_pos hup] at h
    omega
  · have hi : (i : Int) * step.toInt ≤ 0 :=
      mul_nonpos_of_nonneg_of_nonpos (by positivity) (by omega)
    rw [if_neg hup] at h
    omega

/-- **The loop lists the progression** if all of it fits, by induction on what is left to list. -/
theorem rangeFrom_eq {step value : Int} {count : Nat} (hfits : ∀ i < count, Fits (value + i * step))
    (found : List Value) :
    rangeFrom step count value found =
      .ok (found.reverse ++
        (List.range count).map fun i : Nat => .int (Int64.ofInt (value + i * step))) := by
  induction count generalizing value found with
  | zero => simp [rangeFrom]
  | succ more ih =>
    cases more with
    | zero => simp [rangeFrom]
    | succ more =>
      have hnext : Fits (value + step) := by
        have hfirst := hfits 1 (by omega)
        rwa [Nat.cast_one, one_mul] at hfirst
      have hlater (i : Nat) : value + step + i * step = value + (i + 1 : Nat) * step := by
        push_cast
        ring
      have hrest : ∀ i < more + 1, Fits (value + step + i * step) := by
        intro i hi
        rw [hlater]
        exact hfits (i + 1) (by omega)
      rw [rangeFrom, step_of_fits hnext]
      simp only [ih hrest, List.range_succ_eq_map (n := more + 1), List.map_cons, List.map_map,
        List.reverse_cons, List.append_assoc, List.singleton_append, hlater, Function.comp_def,
        Nat.cast_zero, zero_mul, add_zero, Nat.succ_eq_add_one]

/-! ### The function -/

theorem rangeArgument_of_integer {v : Value} {n : Int64} (h : v.integer? = some n) :
    rangeArgument v = .ok n := by
  rw [rangeArgument, h]

theorem callFunction_range {a b c : Value} (ha : a.integer? = some start)
    (hb : b.integer? = some stop) (hc : c.integer? = some step) :
    callFunction .range [a, b, c] = rangeItems start stop step := by
  simp [callFunction, callRange, countArguments, rangeArgument_of_integer ha,
    rangeArgument_of_integer hb, rangeArgument_of_integer hc, bind, Except.bind, pure, Except.pure]

/-- The progression is listed without a step that leaves the range, however long it is. -/
theorem rangeFrom_rangeLength (h : step ≠ 0) :
    rangeFrom step.toInt (rangeLength start stop step).toNat start.toInt [] =
      .ok ((List.range (rangeLength start stop step).toNat).map fun i : Nat =>
        .int (Int64.ofInt (start.toInt + i * step.toInt))) := by
  rw [rangeFrom_eq fun i hi => fits_of_before ((before_iff_lt_rangeLength h i).2 hi)]
  rfl

/-- **A range is exact over all integers of 64 bits.** A step of 0 is refused. For any other step,
`n` of the integers `start + i * step` lie before the end, those with the least `i`, and `n` is the
count that is computed; these are listed in order if they are no more than ten million, and the call
is refused if they are more. The distance between start and stop, the stride, every element and
every step of the loop are exact on the way. -/
theorem range_exact {a b c : Value} (ha : a.integer? = some start) (hb : b.integer? = some stop)
    (hc : c.integer? = some step) :
    (step = 0 → callFunction .range [a, b, c] = refuse .rangeStepZero) ∧
      (step ≠ 0 → ∃ n : Nat,
        (∀ i : Nat, Before stop.toInt step.toInt (start.toInt + i * step.toInt) ↔ i < n) ∧
        (rangeLength start stop step).toNat = n ∧
        (n ≤ 10000000 → ∃ items : List Int64,
          callFunction .range [a, b, c] = .ok (.list (items.map .int)) ∧
            items.map Int64.toInt =
              (List.range n).map fun i : Nat => start.toInt + i * step.toInt) ∧
        (10000000 < n → callFunction .range [a, b, c] = refuse (.rangeTooLong n)) ∧
        ∀ halt, rangeFrom step.toInt n start.toInt [] ≠ .error halt) ∧
      (start.toInt ≤ stop.toInt →
        ((distance start stop).toNat : Int) = stop.toInt - start.toInt) ∧
      (stop.toInt ≤ start.toInt →
        ((distance stop start).toNat : Int) = start.toInt - stop.toInt) ∧
      (step.toInt < 0 → ((0 - step.toUInt64).toNat : Int) = -step.toInt) := by
  rw [callFunction_range ha hb hc]
  refine ⟨fun h => if_pos h, fun h => ?_, toNat_distance, toNat_distance, toNat_neg_toUInt64⟩
  have hbefore (i : Nat) : Before stop.toInt step.toInt (start.toInt + i * step.toInt) ↔
      i < (rangeLength start stop step).toNat := before_iff_lt_rangeLength h i
  have hloop : rangeFrom step.toInt (rangeLength start stop step).toNat start.toInt [] = _ :=
    rangeFrom_rangeLength h
  generalize hn : (rangeLength start stop step).toNat = n at *
  refine ⟨n, hbefore, rfl, fun hle => ?_, fun hlt => ?_, fun halt hhalt => ?_⟩
  · refine ⟨(List.range n).map fun i : Nat => Int64.ofInt (start.toInt + i * step.toInt), ?_, ?_⟩
    · rw [rangeItems, if_neg h, hn, if_neg (show ¬ maxRangeLength < n from Nat.not_lt.2 hle), hloop,
        List.map_map]
      rfl
    · rw [List.map_map]
      refine List.map_congr_left fun i hi => ?_
      have hfits := fits_of_before ((hbefore i).2 (List.mem_range.1 hi))
      rw [fits_iff] at hfits
      exact Int64.toInt_ofInt_of_le (by omega) (by omega)
  · rw [rangeItems, if_neg h, hn]
    exact if_pos hlt
  · rw [hloop] at hhalt
    cases hhalt

/-- From the greatest integer down to the least by the least step, which is no integer of 64 bits
when its sign is turned: two elements. -/
theorem range_exact_extremes :
    (Value.int 9223372036854775807).integer? = some 9223372036854775807 ∧
      (Value.int (-9223372036854775808)).integer? = some (-9223372036854775808) ∧
      callFunction .range
          [.int 9223372036854775807, .int (-9223372036854775808), .int (-9223372036854775808)] =
        .ok (.list [.int 9223372036854775807, .int (-1)]) := by
  obtain ⟨-, hrange, -⟩ := range_exact (a := .int 9223372036854775807)
    (b := .int (-9223372036854775808)) (c := .int (-9223372036854775808)) rfl rfl rfl
  obtain ⟨n, -, hn, hlist, -⟩ := hrange (by decide)
  obtain rfl : 2 = n := hn
  obtain ⟨items, hcall, hitems⟩ := hlist (by decide)
  have hexact : items = [9223372036854775807, -1] :=
    (List.map_inj_right fun _ _ => Int64.toInt_inj.1).1 (hitems.trans rfl)
  rw [hexact] at hcall
  exact ⟨rfl, rfl, hcall⟩

end EnergyPlan.Expr
