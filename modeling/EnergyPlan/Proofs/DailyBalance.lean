/-
# The daily balance of a storage divides the year

A storage that is balanced daily has a constraint for each day type of each season that has a
timeslice. As every timeslice lies in one season and one day type, what is taken up and given in a
timeslice is in one of these constraints and no other, with the share of the year that the
timeslice takes. So the left sides add up to the net charge over the year, the one that an annual
balance sets to zero, and what keeps the daily balance keeps the annual one.

Key definitions: `TimeStructure.annualCharge`, `Context.Parted`, `Problem.BalancesDaily`,
`Problem.BalancesAnnually`.
Key theorems: `mem_dailyBalanceRule`, `perm_dailyConstraints`, `sum_eval_dailyConstraints`,
`compile_balances_daily`.
-/
import EnergyPlan.Proofs.Levels
import EnergyPlan.Proofs.Parts

set_option linter.unusedSectionVars false

namespace EnergyPlan

open Noted LinearExpression Context Config

variable {R : Type} [Field R] [LinearOrder R] [BEq R] [LawfulBEq R] [Scalar R]

/-- The net charge of a storage over a year: in each timeslice its net rate for the share of the
year. -/
def TimeStructure.annualCharge (time : TimeStructure R) (assignment : VariableRef → R)
    (region storage year : String) : R :=
  (time.timeslices.map fun timeslice => time.share ⟨timeslice, year⟩ *
    Slot.netRate assignment region storage ⟨timeslice, year⟩).sum

namespace Storage

variable (storage : Storage R) (region : String)

/-- The rate at which a storage is charged in a slot. -/
def chargeRef (slot : Slot) : VariableRef := ⟨"RateOfStorageCharge", slot.key region storage.id⟩

/-- The rate at which a storage is discharged in a slot. -/
def dischargeRef (slot : Slot) : VariableRef :=
  ⟨"RateOfStorageDischarge", slot.key region storage.id⟩

end Storage

/-! ### The constraints -/

namespace Context

section

variable (ctx : Context R) (region : String) (storage : Storage R)

/-- What a storage takes up in some timeslices of a year, less what it gives. -/
def chargeTerms (timeslices : List String) (year : String) : List (VariableRef × R) :=
  timeslices.flatMap fun timeslice =>
    [(storage.chargeRef region ⟨timeslice, year⟩, ctx.model.time.share ⟨timeslice, year⟩),
      (storage.dischargeRef region ⟨timeslice, year⟩, -ctx.model.time.share ⟨timeslice, year⟩)]

/-- The constraint on the net charge over a day type of a season. -/
def dailyConstraint (season dayType year : String) : Constraint R :=
  .of [region, storage.id, season, dayType, year]
    (.ofTerms (ctx.chargeTerms region storage (slicesOf ctx season dayType) year)) .equal 0

/-- The constraint on the net charge over a year. -/
def annualConstraint (year : String) : Constraint R :=
  .of [region, storage.id, year]
    (.ofTerms (ctx.chargeTerms region storage ctx.sets.timeslices year)) .equal 0

/-- The constraints on the net charge of a storage over the day types of the seasons. -/
def dailyConstraints (year : String) : List (Constraint R) :=
  ctx.sets.seasons.flatMap fun season => ctx.sets.dayTypes.flatMap fun dayType =>
    if (slicesOf ctx season dayType).isEmpty then []
    else [ctx.dailyConstraint region storage season dayType year]

end

variable {ctx : Context R} {region : String} {storage : Storage R} {year : String}

theorem mem_slicesOf {season dayType timeslice : String} :
    timeslice ∈ slicesOf ctx season dayType ↔ timeslice ∈ ctx.sets.timeslices ∧
      ctx.model.time.seasons.memberOf[timeslice]? = some season ∧
        ctx.model.time.dayTypes.memberOf[timeslice]? = some dayType := by
  rw [slicesOf, List.mem_filter, Bool.and_eq_true, beq_iff_eq, beq_iff_eq]

/-- A day type of a season has a constraint if it has a timeslice. -/
theorem mem_dailyRow {c : Constraint R} {season dayType : String} :
    c ∈ (if (slicesOf ctx season dayType).isEmpty then []
        else [ctx.dailyConstraint region storage season dayType year]) ↔
      slicesOf ctx season dayType ≠ [] ∧
        c = ctx.dailyConstraint region storage season dayType year := by
  rw [ne_eq, ← List.isEmpty_iff]
  split
  · next h => simp [h]
  · next h => simp [h]

theorem mem_dailyConstraints {c : Constraint R} :
    c ∈ ctx.dailyConstraints region storage year ↔
      ∃ season ∈ ctx.sets.seasons, ∃ dayType ∈ ctx.sets.dayTypes,
        slicesOf ctx season dayType ≠ [] ∧
          c = ctx.dailyConstraint region storage season dayType year := by
  unfold dailyConstraints
  rw [List.mem_flatMap]
  refine exists_congr fun season => and_congr_right fun _ => ?_
  rw [List.mem_flatMap]
  exact exists_congr fun dayType => and_congr_right fun _ => mem_dailyRow

/-! ### Their values -/

section

variable {assignment : VariableRef → R}

theorem worth_chargeTerms (timeslices : List String) :
    worth assignment (ctx.chargeTerms region storage timeslices year) =
      (timeslices.map fun timeslice => ctx.model.time.share ⟨timeslice, year⟩ *
        Slot.netRate assignment region storage.id ⟨timeslice, year⟩).sum := by
  unfold chargeTerms
  rw [worth_flatMap]
  congr 1
  apply List.map_congr_left
  intro timeslice _
  rw [Slot.netRate, mul_sub, sub_eq_add_neg, ← neg_mul]
  exact congrArg (_ + ·) (add_zero _)

theorem eval_dailyConstraint {season dayType : String} :
    (ctx.dailyConstraint region storage season dayType year).lhs.eval assignment =
      ((slicesOf ctx season dayType).map fun timeslice =>
        ctx.model.time.share ⟨timeslice, year⟩ *
          Slot.netRate assignment region storage.id ⟨timeslice, year⟩).sum := by
  unfold dailyConstraint
  rw [Constraint.eval_of, constant_ofTerms, sub_zero, eval_ofTerms, worth_chargeTerms]

theorem eval_annualConstraint (hc : ctx.Timed) :
    (ctx.annualConstraint region storage year).lhs.eval assignment =
      ctx.model.time.annualCharge assignment region storage.id year := by
  unfold annualConstraint
  rw [Constraint.eval_of, constant_ofTerms, sub_zero, eval_ofTerms, worth_chargeTerms,
    hc.timeslices]
  rfl

end

/-! ### Their coefficients -/

/-- Where timeslices are listed once, no variable is in two terms of a net charge. -/
theorem nodup_chargeTerms {timeslices : List String} (hn : timeslices.Nodup) :
    ((ctx.chargeTerms region storage timeslices year).map Prod.fst).Nodup := by
  unfold chargeTerms
  rw [List.map_flatMap, List.nodup_flatMap]
  constructor
  · intro timeslice _
    simp [Storage.chargeRef, Storage.dischargeRef]
  · refine hn.imp fun {a b} hne => ?_
    have hslot : (⟨a, year⟩ : Slot) ≠ ⟨b, year⟩ := fun h => hne (congrArg Slot.timeslice h)
    have hkey : Slot.key region storage.id ⟨a, year⟩ ≠ Slot.key region storage.id ⟨b, year⟩ :=
      fun h => hslot (Slot.key_injective _ _ h)
    apply List.disjoint_left.2
    simp [Storage.chargeRef, Storage.dischargeRef, hkey]

theorem coefficient_dailyConstraint {season dayType : String} (w : VariableRef) :
    (ctx.dailyConstraint region storage season dayType year).lhs.coefficient w =
      amount w (ctx.chargeTerms region storage (slicesOf ctx season dayType) year) :=
  Constraint.coefficient_of.trans (coefficient_ofTerms _)

/-- A timeslice counts for its share in the balance of its season and day type. -/
theorem coefficient_dailyConstraint_of_mem (hslices : ctx.sets.timeslices.Nodup)
    {season dayType timeslice : String} (h : timeslice ∈ slicesOf ctx season dayType) :
    (ctx.dailyConstraint region storage season dayType year).lhs.coefficient
          (storage.chargeRef region ⟨timeslice, year⟩) =
        ctx.model.time.share ⟨timeslice, year⟩ ∧
      (ctx.dailyConstraint region storage season dayType year).lhs.coefficient
          (storage.dischargeRef region ⟨timeslice, year⟩) =
        -ctx.model.time.share ⟨timeslice, year⟩ := by
  have hn : (slicesOf ctx season dayType).Nodup := hslices.sublist List.filter_sublist
  constructor <;> rw [coefficient_dailyConstraint]
  · refine amount_of_mem (nodup_chargeTerms hn) (List.mem_flatMap.2 ⟨timeslice, h, ?_⟩)
    exact List.mem_cons_self
  · refine amount_of_mem (nodup_chargeTerms hn) (List.mem_flatMap.2 ⟨timeslice, h, ?_⟩)
    exact List.mem_cons_of_mem _ List.mem_cons_self

/-- A balance counts no rates but those of its storage, region and year in its own timeslices. -/
theorem mem_slicesOf_of_coefficient {region' : String} {other : Storage R} {season dayType : String}
    {year' : String} {slot : Slot}
    (h : (ctx.dailyConstraint region' other season dayType year').lhs.coefficient
          (storage.chargeRef region slot) ≠ 0 ∨
      (ctx.dailyConstraint region' other season dayType year').lhs.coefficient
          (storage.dischargeRef region slot) ≠ 0) :
    region' = region ∧ other.id = storage.id ∧ year' = slot.year ∧
      slot.timeslice ∈ slicesOf ctx season dayType := by
  have hoccurs : ∃ timeslice ∈ slicesOf ctx season dayType,
      Slot.key region' other.id ⟨timeslice, year'⟩ = slot.key region storage.id := by
    by_contra hno
    have hkey : ∀ timeslice ∈ slicesOf ctx season dayType,
        Slot.key region' other.id ⟨timeslice, year'⟩ ≠ slot.key region storage.id :=
      fun timeslice hm he => hno ⟨timeslice, hm, he⟩
    have hzero : ∀ family : String,
        amount ⟨family, slot.key region storage.id⟩
          (ctx.chargeTerms region' other (slicesOf ctx season dayType) year') = 0 := by
      intro family
      refine amount_eq_zero fun t ht he => ?_
      obtain ⟨timeslice, hm, ht⟩ := List.mem_flatMap.1 ht
      simp only [List.mem_cons, List.not_mem_nil, or_false] at ht
      rcases ht with rfl | rfl
      · exact hkey timeslice hm (congrArg VariableRef.key he)
      · exact hkey timeslice hm (congrArg VariableRef.key he)
    rw [coefficient_dailyConstraint, coefficient_dailyConstraint] at h
    exact h.elim (fun h => h (hzero _)) fun h => h (hzero _)
  obtain ⟨timeslice, hm, he⟩ := hoccurs
  simp only [Slot.key, List.cons.injEq, and_true] at he
  obtain ⟨hregion, hid, rfl, hyear⟩ := he
  exact ⟨hregion, hid, hyear, hm⟩

/-! ### Where they are found -/

theorem dailyBalanceRule_mem : (dailyBalanceRule : ConstraintRule R) ∈ constraintRules := by
  simp [constraintRules]

theorem annualBalanceOfStorageRule_mem :
    (annualBalanceOfStorageRule : ConstraintRule R) ∈ constraintRules := by
  simp [constraintRules]

theorem mem_perStorageYear {rows : String → Storage R → String → Lookup (List (Constraint R))}
    {c : Constraint R} : c ∈ (perStorageYear ctx rows).value ↔
      ∃ region ∈ ctx.sets.regions, ∃ storage ∈ ctx.model.storage, ∃ year ∈ ctx.sets.years,
        c ∈ (rows region storage year).value := by
  simp only [perStorageYear, mem_value_gather]

section

variable (hc : ctx.Timed) {c : Constraint R}

include hc

theorem value_netCharge {timeslice : String} :
    (netCharge ctx region storage timeslice year).value =
      [(storage.chargeRef region ⟨timeslice, year⟩, ctx.model.time.share ⟨timeslice, year⟩),
        (storage.dischargeRef region ⟨timeslice, year⟩,
          -ctx.model.time.share ⟨timeslice, year⟩)] := by
  unfold netCharge
  simp only [value_bind, value_pure, hc.value_term]
  rfl

theorem value_gather_netCharge {timeslices : List String} :
    (gather (netCharge ctx region storage · year) timeslices).value =
      ctx.chargeTerms region storage timeslices year := by
  rw [value_gather]
  simp only [value_netCharge hc]
  rfl

theorem mem_dailyBalanceRule : c ∈ ((dailyBalanceRule : ConstraintRule R).constraints ctx).value ↔
    ∃ region ∈ ctx.sets.regions, ∃ storage ∈ ctx.model.storage, ∃ year ∈ ctx.sets.years,
      storage.balanceDaily = true ∧ c ∈ ctx.dailyConstraints region storage year := by
  refine mem_perStorageYear.trans ?_
  refine exists_congr fun region => and_congr_right fun _ => exists_congr fun storage =>
    and_congr_right fun _ => exists_congr fun year => and_congr_right fun _ => ?_
  cases hdaily : storage.balanceDaily with
  | false => simp
  | true =>
    simp only [Bool.not_true, Bool.false_eq_true, if_false, true_and]
    rw [value_gather, dailyConstraints]
    simp only [value_gather]
    simp only [apply_ite Noted.value, value_bind, value_pure, value_gather_netCharge hc]
    rfl

theorem mem_annualBalanceOfStorageRule :
    c ∈ ((annualBalanceOfStorageRule : ConstraintRule R).constraints ctx).value ↔
      ∃ region ∈ ctx.sets.regions, ∃ storage ∈ ctx.model.storage, ∃ year ∈ ctx.sets.years,
        storage.balanceAnnual = true ∧ c = ctx.annualConstraint region storage year := by
  refine mem_perStorageYear.trans ?_
  refine exists_congr fun region => and_congr_right fun _ => exists_congr fun storage =>
    and_congr_right fun _ => exists_congr fun year => and_congr_right fun _ => ?_
  cases hannual : storage.balanceAnnual with
  | false => simp
  | true =>
    simp only [Bool.not_true, Bool.false_eq_true, if_false, true_and, value_bind, value_pure,
      value_gather_netCharge hc, List.mem_singleton]
    rfl

variable (hr : region ∈ ctx.sets.regions) (ho : storage ∈ ctx.model.storage)
  (hy : year ∈ ctx.sets.years)

include hr ho hy

theorem constraintAt_daily (hdaily : storage.balanceDaily = true) {season dayType : String}
    (hs : season ∈ ctx.sets.seasons) (hd : dayType ∈ ctx.sets.dayTypes)
    (hne : slicesOf ctx season dayType ≠ []) :
    ctx.problem.constraintAt
        ("S4_StorageDailyBalance", [region, storage.id, season, dayType, year]) =
      some (ctx.dailyConstraint region storage season dayType year) := by
  refine constraintAt_of_mem (c := ctx.dailyConstraint region storage season dayType year)
    dailyBalanceRule_mem ?_ ?_
  · exact (mem_dailyBalanceRule hc).2 ⟨region, hr, storage, ho, year, hy, hdaily,
      mem_dailyConstraints.2 ⟨season, hs, dayType, hd, hne, rfl⟩⟩
  · intro c' hm' hindex
    obtain ⟨region', -, storage', ho', year', -, -, hm'⟩ := (mem_dailyBalanceRule hc).1 hm'
    obtain ⟨season', -, dayType', -, -, rfl⟩ := mem_dailyConstraints.1 hm'
    have hlabels : [region', storage'.id, season', dayType', year'] =
        [region, storage.id, season, dayType, year] := hindex
    simp only [List.cons.injEq, and_true] at hlabels
    obtain ⟨rfl, hid, rfl, rfl, rfl⟩ := hlabels
    obtain rfl := List.inj_on_of_nodup_map hc.distinct.storage ho' ho hid
    rfl

theorem constraintAt_annual (hannual : storage.balanceAnnual = true) :
    ctx.problem.constraintAt ("S5_StorageAnnualBalance", [region, storage.id, year]) =
      some (ctx.annualConstraint region storage year) := by
  refine constraintAt_of_mem (c := ctx.annualConstraint region storage year)
    annualBalanceOfStorageRule_mem ?_ ?_
  · exact (mem_annualBalanceOfStorageRule hc).2 ⟨region, hr, storage, ho, year, hy, hannual, rfl⟩
  · intro c' hm' hindex
    obtain ⟨region', -, storage', ho', year', -, -, rfl⟩ :=
      (mem_annualBalanceOfStorageRule hc).1 hm'
    have hlabels : [region', storage'.id, year'] = [region, storage.id, year] := hindex
    simp only [List.cons.injEq, and_true] at hlabels
    obtain ⟨rfl, hid, rfl⟩ := hlabels
    obtain rfl := List.inj_on_of_nodup_map hc.distinct.storage ho' ho hid
    rfl

end

end Context

/-! ### The balance over the year -/

/-- An index of a region, a storage and a year, whatever is between them. -/
def dailySite (region storage year : String) (index : Key) : Bool :=
  labelAt 0 index == region && labelAt 1 index == storage && lastLabel index == year

/-- The context of a model each of whose timeslices is listed once and lies in one of its seasons
and one of its day types. -/
structure Context.Parted (ctx : Context R) : Prop extends ctx.Timed where
  slicesOnce : ctx.sets.timeslices.Nodup
  seasonsOnce : ctx.sets.seasons.Nodup
  dayTypesOnce : ctx.sets.dayTypes.Nodup
  inSeason : ∀ timeslice ∈ ctx.sets.timeslices, ∃ season ∈ ctx.sets.seasons,
    ctx.model.time.seasons.memberOf[timeslice]? = some season
  inDayType : ∀ timeslice ∈ ctx.sets.timeslices, ∃ dayType ∈ ctx.sets.dayTypes,
    ctx.model.time.dayTypes.memberOf[timeslice]? = some dayType

theorem parted_of_stages {definition root : Node} {time : TimeStructure R} {members : MemberSets}
    {tolerance : R} {model : EnergyModel R} {sets : IndexSets}
    (ht : TimeStructure.ofNode definition = .ok time)
    (hb : buildModel root time members tolerance = .ok model)
    (hs : deriveSets model = .ok sets) (hslices : model.time.timeslices.Nodup) (bigM : R) :
    (Context.ofModel model sets bigM).Parted := by
  have hc := timed_of_stages ht hb hs bigM
  have htime := (checked_of_buildModel hb).1
  obtain ⟨hseasons, hdayTypes, -⟩ := TimeStructure.nodup_parts ht
  obtain ⟨hinSeason, hinDayType, -⟩ := TimeStructure.divides_parts ht
  rw [← htime] at hseasons hdayTypes hinSeason hinDayType
  refine ⟨hc, ?_, ?_, ?_, ?_, ?_⟩
  · rw [hc.timeslices]
    exact hslices
  · rw [hc.seasons]
    exact hseasons
  · rw [hc.dayTypes]
    exact hdayTypes
  · rw [hc.timeslices, hc.seasons]
    exact hinSeason
  · rw [hc.timeslices, hc.dayTypes]
    exact hinDayType

namespace Context

variable {ctx : Context R} (hc : ctx.Parted) {region : String} {storage : Storage R}
  {year : String}

include hc

/-- The left sides of the daily balances add up to the net charge over the year. -/
theorem sum_eval_dailyConstraints (assignment : VariableRef → R) :
    ((ctx.dailyConstraints region storage year).map fun c => c.lhs.eval assignment).sum =
      ctx.model.time.annualCharge assignment region storage.id year := by
  let gain (timeslice : String) : R := ctx.model.time.share ⟨timeslice, year⟩ *
    Slot.netRate assignment region storage.id ⟨timeslice, year⟩
  have hrow : ∀ season dayType, ((if (slicesOf ctx season dayType).isEmpty then []
      else [ctx.dailyConstraint region storage season dayType year]).map fun c =>
        c.lhs.eval assignment).sum = ((slicesOf ctx season dayType).map gain).sum := by
    intro season dayType
    split
    · next hempty =>
      rw [List.isEmpty_iff.1 hempty]
      rfl
    · rw [List.map_singleton, List.sum_singleton, eval_dailyConstraint]
  have hslices : ∀ season dayType, slicesOf ctx season dayType =
      (ctx.sets.timeslices.filter fun timeslice =>
        ctx.model.time.seasons.memberOf[timeslice]? == some season).filter fun timeslice =>
          ctx.model.time.dayTypes.memberOf[timeslice]? == some dayType := by
    intro season dayType
    rw [List.filter_filter, slicesOf]
    exact List.filter_congr fun timeslice _ => Bool.and_comm _ _
  have hseason : ∀ season ∈ ctx.sets.seasons,
      (ctx.sets.dayTypes.map fun dayType => ((slicesOf ctx season dayType).map gain).sum).sum =
        ((ctx.sets.timeslices.filter fun timeslice =>
          ctx.model.time.seasons.memberOf[timeslice]? == some season).map gain).sum := by
    intro season _
    simp only [hslices]
    exact sum_fibers hc.dayTypesOnce
      (fun timeslice hl => hc.inDayType timeslice (List.mem_filter.1 hl).1) gain
  unfold dailyConstraints
  simp only [sum_map_flatMap, hrow]
  rw [List.map_congr_left hseason, sum_fibers hc.seasonsOnce hc.inSeason gain, hc.timeslices]
  rfl

theorem nodup_dailyConstraints : (ctx.dailyConstraints region storage year).Nodup := by
  have hindex : ∀ {season dayType season' dayType'},
      ctx.dailyConstraint region storage season dayType year =
        ctx.dailyConstraint region storage season' dayType' year →
          season = season' ∧ dayType = dayType' := by
    intro season dayType season' dayType' h
    have hlabels : [region, storage.id, season, dayType, year] =
        [region, storage.id, season', dayType', year] := congrArg Constraint.index h
    simpa using hlabels
  unfold dailyConstraints
  rw [List.nodup_flatMap]
  constructor
  · intro season _
    rw [List.nodup_flatMap]
    constructor
    · intro dayType _
      split
      · exact List.nodup_nil
      · exact List.nodup_singleton _
    · refine hc.dayTypesOnce.imp fun {a b} hne => List.disjoint_left.2 fun c ha hb => hne ?_
      exact (hindex ((mem_dailyRow.1 ha).2.symm.trans (mem_dailyRow.1 hb).2)).2
  · refine hc.seasonsOnce.imp fun {a b} hne => List.disjoint_left.2 fun c ha hb => hne ?_
    obtain ⟨dayType, -, ha⟩ := List.mem_flatMap.1 ha
    obtain ⟨dayType', -, hb⟩ := List.mem_flatMap.1 hb
    exact (hindex ((mem_dailyRow.1 ha).2.symm.trans (mem_dailyRow.1 hb).2)).1

/-- The daily balances that the problem has for a storage in a region and a year are those of its
seasons and day types. -/
theorem perm_dailyConstraints (hr : region ∈ ctx.sets.regions) (ho : storage ∈ ctx.model.storage)
    (hy : year ∈ ctx.sets.years) (hdaily : storage.balanceDaily = true) :
    (ctx.problem.constraintsWhere "S4_StorageDailyBalance"
      (dailySite region storage.id year)).Perm (ctx.dailyConstraints region storage year) := by
  have hfound : ∀ index c,
      ctx.problem.constraintAt ("S4_StorageDailyBalance", index) = some c →
        c ∈ (dailyBalanceRule.constraints ctx).value ∧ c.index = index :=
    fun index c hat => mem_of_constraintAt dailyBalanceRule_mem hat
  rw [List.perm_ext_iff_of_nodup (nodup_constraintsWhere fun index c hat => (hfound index c hat).2)
    (nodup_dailyConstraints hc)]
  intro c
  rw [mem_constraintsWhere]
  constructor
  · rintro ⟨index, hsite, hat⟩
    obtain ⟨hm, rfl⟩ := hfound index c hat
    obtain ⟨region', -, storage', ho', year', -, -, hm⟩ :=
      (mem_dailyBalanceRule hc.toTimed).1 hm
    obtain ⟨season, -, dayType, -, -, rfl⟩ := mem_dailyConstraints.1 hm
    have hlabels : (region' = region ∧ storage'.id = storage.id) ∧ year' = year := by
      simpa [dailySite, Context.dailyConstraint, Constraint.of, labelAt, lastLabel] using hsite
    obtain ⟨⟨rfl, hid⟩, rfl⟩ := hlabels
    obtain rfl := List.inj_on_of_nodup_map hc.distinct.storage ho' ho hid
    exact hm
  · intro hm
    obtain ⟨season, hs, dayType, hd, hne, rfl⟩ := mem_dailyConstraints.1 hm
    refine ⟨_, ?_, constraintAt_daily hc.toTimed hr ho hy hdaily hs hd hne⟩
    simp [dailySite, labelAt, lastLabel]

end Context

/-- The daily balances of a storage in a region and a year divide its net charge over the year. Each
timeslice is in the balance of its season and day type with its share, and in no other; the left
sides add up to the net charge over the year, which is zero if they are. -/
structure Problem.BalancesDaily (problem : Problem R) (time : TimeStructure R) (region : String)
    (storage : Storage R) (year : String) : Prop where
  once : ∀ timeslice ∈ time.timeslices, ∃ season dayType c,
    time.seasons.memberOf[timeslice]? = some season ∧
      time.dayTypes.memberOf[timeslice]? = some dayType ∧
      problem.constraintAt
          ("S4_StorageDailyBalance", [region, storage.id, season, dayType, year]) = some c ∧
      c.lhs.coefficient (storage.chargeRef region ⟨timeslice, year⟩) =
        time.share ⟨timeslice, year⟩ ∧
      c.lhs.coefficient (storage.dischargeRef region ⟨timeslice, year⟩) =
        -time.share ⟨timeslice, year⟩ ∧
      ∀ index other, problem.constraintAt ("S4_StorageDailyBalance", index) = some other →
        other.lhs.coefficient (storage.chargeRef region ⟨timeslice, year⟩) ≠ 0 ∨
          other.lhs.coefficient (storage.dischargeRef region ⟨timeslice, year⟩) ≠ 0 →
        index = [region, storage.id, season, dayType, year]
  total : ∀ assignment, ((problem.constraintsWhere "S4_StorageDailyBalance"
      (dailySite region storage.id year)).map fun c => c.lhs.eval assignment).sum =
    time.annualCharge assignment region storage.id year
  balanced : ∀ assignment, (∀ c ∈ problem.constraintsWhere "S4_StorageDailyBalance"
      (dailySite region storage.id year), c.Holds assignment) →
    time.annualCharge assignment region storage.id year = 0

/-- The annual balance of a storage in a region and a year sets its net charge over the year to
zero. -/
def Problem.BalancesAnnually (problem : Problem R) (time : TimeStructure R) (region : String)
    (storage : Storage R) (year : String) : Prop :=
  ∃ c, problem.constraintAt ("S5_StorageAnnualBalance", [region, storage.id, year]) = some c ∧
    ∀ assignment,
      c.lhs.eval assignment = time.annualCharge assignment region storage.id year ∧
        (c.Holds assignment ↔ time.annualCharge assignment region storage.id year = 0)

section

variable [IsStrictOrderedRing R]

/-- A balance without a constant holds exactly if its left side is zero. -/
theorem holds_balance_iff {index : Key} {terms : List (VariableRef × R)}
    {assignment : VariableRef → R} :
    (Constraint.of index (.ofTerms terms) .equal 0).Holds assignment ↔
      (Constraint.of index (.ofTerms terms) .equal 0).lhs.eval assignment = 0 := by
  rw [Constraint.holds_of_iff, Constraint.eval_of, constant_ofTerms, sub_zero]
  rfl

/-- In the problem of a model whose timeslices lie in its seasons and day types, storages that are
balanced daily are balanced over the year. -/
theorem balancesDaily_of_parted {ctx : Context R} (hc : ctx.Parted) {region : String}
    (hr : region ∈ ctx.sets.regions) {storage : Storage R} (ho : storage ∈ ctx.model.storage)
    {year : String} (hy : year ∈ ctx.sets.years) (hdaily : storage.balanceDaily = true) :
    ctx.problem.BalancesDaily ctx.model.time region storage year := by
  have hperm := perm_dailyConstraints hc hr ho hy hdaily
  have htotal : ∀ assignment, ((ctx.problem.constraintsWhere "S4_StorageDailyBalance"
      (dailySite region storage.id year)).map fun c => c.lhs.eval assignment).sum =
        ctx.model.time.annualCharge assignment region storage.id year :=
    fun assignment => (hperm.map _).sum_eq.trans (sum_eval_dailyConstraints hc assignment)
  constructor
  case once =>
    intro timeslice hl
    rw [← hc.timeslices] at hl
    obtain ⟨season, hs, hinSeason⟩ := hc.inSeason timeslice hl
    obtain ⟨dayType, hd, hinDayType⟩ := hc.inDayType timeslice hl
    have hm : timeslice ∈ slicesOf ctx season dayType :=
      mem_slicesOf.2 ⟨hl, hinSeason, hinDayType⟩
    refine ⟨season, dayType, _, hinSeason, hinDayType, constraintAt_daily hc.toTimed hr ho hy
      hdaily hs hd (List.ne_nil_of_mem hm),
      (coefficient_dailyConstraint_of_mem hc.slicesOnce hm).1,
      (coefficient_dailyConstraint_of_mem hc.slicesOnce hm).2, ?_⟩
    intro index other hat hne
    obtain ⟨hother, rfl⟩ := mem_of_constraintAt dailyBalanceRule_mem hat
    obtain ⟨region', -, storage', -, year', -, -, hother⟩ :=
      (mem_dailyBalanceRule hc.toTimed).1 hother
    obtain ⟨season', -, dayType', -, -, rfl⟩ := mem_dailyConstraints.1 hother
    obtain ⟨rfl, hid, rfl, hm'⟩ := mem_slicesOf_of_coefficient hne
    obtain ⟨-, hinSeason', hinDayType'⟩ := mem_slicesOf.1 hm'
    rw [hinSeason] at hinSeason'
    rw [hinDayType] at hinDayType'
    cases hinSeason'
    cases hinDayType'
    show [region', storage'.id, season, dayType, year'] = _
    rw [hid]
  case total => exact htotal
  case balanced =>
    intro assignment hholds
    rw [← htotal assignment]
    apply List.sum_eq_zero
    intro x hx
    obtain ⟨c, hm, rfl⟩ := List.mem_map.1 hx
    have hc' := hholds c hm
    obtain ⟨season, -, dayType, -, -, rfl⟩ := mem_dailyConstraints.1 (hperm.mem_iff.1 hm)
    exact holds_balance_iff.1 hc'

/-- In the problem of a model over its own timeslices, annual balances are on the net charge over
the year. -/
theorem balancesAnnually_of_timed {ctx : Context R} (hc : ctx.Timed) {region : String}
    (hr : region ∈ ctx.sets.regions) {storage : Storage R} (ho : storage ∈ ctx.model.storage)
    {year : String} (hy : year ∈ ctx.sets.years) (hannual : storage.balanceAnnual = true) :
    ctx.problem.BalancesAnnually ctx.model.time region storage year := by
  refine ⟨_, constraintAt_annual hc hr ho hy hannual, fun assignment => ?_⟩
  have heval : (ctx.annualConstraint region storage year).lhs.eval assignment =
      ctx.model.time.annualCharge assignment region storage.id year := eval_annualConstraint hc
  refine ⟨heval, ?_⟩
  rw [← heval]
  exact holds_balance_iff

/-- **The daily balance divides the year.** A model that was built and whose sets were derived,
with distinct timeslices, compiles to a problem in which the daily balances of each storage that
has them divide its net charge over the year, however the time definition says what the seasons
and day types are: what is taken up and given in a timeslice is in exactly one of them, with the
share of the timeslice, and together they set to zero what an annual balance does. -/
theorem compile_balances_daily {definition root : Node} {time : TimeStructure R}
    {members : MemberSets} {tolerance bigM : R} {model : EnergyModel R} {sets : IndexSets}
    (ht : TimeStructure.ofNode definition = .ok time)
    (hb : buildModel root time members tolerance = .ok model)
    (hs : deriveSets model = .ok sets) (hslices : model.time.timeslices.Nodup) :
    ∃ problem, compile model sets bigM = .ok problem ∧
      ∀ region ∈ sets.regions, ∀ storage ∈ model.storage, ∀ year ∈ sets.years,
        (storage.balanceDaily = true → problem.BalancesDaily model.time region storage year) ∧
          (storage.balanceAnnual = true →
            problem.BalancesAnnually model.time region storage year) := by
  have hc := parted_of_stages ht hb hs hslices bigM
  refine ⟨_, compile_of_sound hc.toSound (lt_irrefl 0), ?_⟩
  intro region hr storage ho year hy
  exact ⟨balancesDaily_of_parted hc hr ho hy, balancesAnnually_of_timed hc.toTimed hr ho hy⟩

end

/-- A lake with a pump whose storage is balanced daily; hot days are in summer, cold ones in
winter. -/
def Exact.lake : Node :=
  .mapping [
    ("id", .plain "plan"),
    ("time_definition", .mapping [
      ("years", .sequence [.plain "2020"]),
      ("timeslice_in_season", .mapping [
        ("hot", .plain "summer"), ("cold", .plain "winter")]),
      ("year_split", .mapping [("hot", .plain "0.25"), ("cold", .plain "0.75")])]),
    ("regions", .sequence [.mapping [("id", .plain "lake")]]),
    ("commodities", .sequence [.mapping [("id", .plain "power")]]),
    ("impacts", .sequence [.mapping [("id", .plain "smoke")]]),
    ("technologies", .sequence [.mapping [
      ("id", .plain "pump"),
      ("operating_modes", .sequence [.mapping [
        ("id", .plain "lift"),
        ("output_activity_ratio", .mapping [("power", .plain "1")]),
        ("to_storage", .mapping [("basin", .plain "true")]),
        ("from_storage", .mapping [("basin", .plain "true")])]])]]),
    ("storage", .sequence [.mapping [
      ("id", .plain "basin"),
      ("capex", .plain "5"),
      ("operating_life", .plain "10"),
      ("balance_daily", .plain "true")]])]

/-- The cold days are three quarters of the year, and in the balance of the winter only. -/
theorem compile_balances_daily_lake :
    ∃ (definition root : Node) (time : TimeStructure Rat) (members : MemberSets)
      (tolerance : Rat) (model : EnergyModel Rat) (sets : IndexSets),
      TimeStructure.ofNode definition = .ok time ∧
      buildModel root time members tolerance = .ok model ∧ deriveSets model = .ok sets ∧
      model.time.timeslices.Nodup ∧ ∃ problem, compile model sets 1000 = .ok problem ∧
        (∃ c, problem.constraintAt
            ("S4_StorageDailyBalance", ["lake", "basin", "winter", "1", "2020"]) = some c ∧
          c.lhs.coefficient ⟨"RateOfStorageCharge", ["lake", "basin", "cold", "2020"]⟩ = 3 / 4 ∧
          c.lhs.coefficient
            ⟨"RateOfStorageDischarge", ["lake", "basin", "cold", "2020"]⟩ = -(3 / 4)) ∧
        ∀ assignment, (∀ c ∈ problem.constraintsWhere "S4_StorageDailyBalance"
            (dailySite "lake" "basin" "2020"), c.Holds assignment) →
          model.time.annualCharge assignment "lake" "basin" "2020" = 0 := by
  have haccepts : Exact.accepts Exact.noVariables .standard Exact.lake (fun model sets =>
      decide (model.time.timeslices.Nodup ∧ "lake" ∈ sets.regions ∧ "2020" ∈ sets.years ∧
        "cold" ∈ model.time.timeslices ∧
        model.time.seasons.memberOf["cold"]? = some "winter" ∧
        model.time.dayTypes.memberOf["cold"]? = some "1" ∧
        model.time.share ⟨"cold", "2020"⟩ = 3 / 4 ∧
        ∃ storage ∈ model.storage, storage.id = "basin" ∧ storage.balanceDaily = true)) =
          true := by
    decide +kernel
  obtain ⟨options, root, resolved, expanded, model, sets, -, -, he, hb, hs, htest⟩ :=
    Exact.exists_of_accepts haccepts
  obtain ⟨hslices, hr, hy, hl, hwinter, hdays, hshare, storage, ho, hid, hdaily⟩ :=
    of_decide_eq_true htest
  have ht := ofNode_of_expandModel he
  obtain ⟨problem, hp, hbalances⟩ : ∃ problem, compile model sets 1000 = .ok problem ∧ _ :=
    compile_balances_daily ht hb hs hslices
  have hbalance := (hbalances "lake" hr storage ho "2020" hy).1 hdaily
  obtain ⟨season, dayType, c, hseason, hdayType, hat, hcharge, hdischarge, -⟩ :=
    hbalance.once "cold" hl
  rw [hwinter] at hseason
  rw [hdays] at hdayType
  cases hseason
  cases hdayType
  have hbalanced := hbalance.balanced
  rw [hid] at hat hbalanced
  unfold Storage.chargeRef at hcharge
  unfold Storage.dischargeRef at hdischarge
  rw [hid, hshare] at hcharge hdischarge
  exact ⟨_, _, _, _, _, model, sets, ht, hb, hs, hslices, problem, hp,
    ⟨c, hat, hcharge, hdischarge⟩, hbalanced⟩

end EnergyPlan
