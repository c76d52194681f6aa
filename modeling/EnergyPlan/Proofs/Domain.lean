/-
# The exact domain of every family of constraints

For a model that was built, whose sets were derived and in which no timeslice occurs twice
and no two trades carry one commodity, `domains` says for each family where its constraints
are: the compiled problem has exactly these families, each with a constraint at exactly the
indexes of its domain, and no constraint that a rule makes is overwritten by another one
(`compile_domains`). Modes play no part here, as no constraint is indexed by them.

Key definitions: `Context.Later`, `Context.domains`.
Key theorems: `orderly_of_stages`, `covers_domains`, `compile_domains`.
-/
import EnergyPlan.Proofs.Closed
import EnergyPlan.Proofs.Cover.Activity
import EnergyPlan.Proofs.Cover.Capacity
import EnergyPlan.Proofs.Cover.Store
import EnergyPlan.Proofs.Cover.Target

namespace EnergyPlan

open Noted Config Fields

namespace Context

variable {R : Type} (ctx : Context R)

/-- Some year of the model is before a year. -/
def Later (year : String) : Prop := ∃ earlier ∈ ctx.model.time.years, earlier < yearOf year

/-- A condition holds of some trade on one of its routes in a year in which the route is
open. -/
def routeYears (p : Trade R → String → String → String → Prop) : Prop :=
  ∃ trade ∈ ctx.model.trade, ∃ origin ∈ ctx.sets.regions, ∃ destination ∈ ctx.sets.regions,
    ∃ year ∈ ctx.sets.years, trade.Open origin destination year ∧
      p trade origin destination year

variable [Zero R] [LT R]

/-- The families of constraints, each with the indexes of its constraints. -/
def domains : List (String × (Key → Prop)) :=
  [("CAa4_Constraint_Capacity", fun i => ∃ region ∈ ctx.sets.regions,
      ∃ technology ∈ ctx.model.technologies, ∃ year ∈ ctx.sets.years,
        ∃ timeslice ∈ ctx.sets.timeslices, i = [region, timeslice, technology.id, year]),
    ("CAa5_TotalNewCapacity", ctx.technologyYears fun region technology year =>
      0 < (technology.unitCapacity.find? [region, year]).getD 0),
    ("CAb1_PlannedMaintenance", ctx.technologyYears fun _ _ _ => True),
    ("EBa11_EnergyBalanceEachTS5", fun i => ∃ region ∈ ctx.sets.regions,
      ∃ commodity ∈ ctx.model.commodities, ∃ year ∈ ctx.sets.years,
        ¬ ctx.BalancedYearly region commodity year ∧
          ∃ timeslice ∈ ctx.sets.timeslices, i = [region, timeslice, commodity.id, year]),
    ("EBb4_EnergyBalanceEachYear", fun i => ∃ region ∈ ctx.sets.regions,
      ∃ commodity ∈ ctx.model.commodities, ∃ year ∈ ctx.sets.years,
        ctx.BalancedYearly region commodity year ∧ i = [region, commodity.id, year]),
    ("NCC1_TotalAnnualMaxNewCapacityConstraint", ctx.technologyYears
      fun region technology year => (technology.additionalMax.find? [region, year]).isSome),
    ("NCC2_TotalAnnualMinNewCapacityConstraint", ctx.technologyYears
      fun region technology year => (technology.additionalMin.find? [region, year]).isSome),
    ("TCC1_TotalAnnualMaxCapacityConstraint", ctx.technologyYears
      fun region technology year => (technology.grossMax.find? [region, year]).isSome),
    ("TCC2_TotalAnnualMinCapacityConstraint", ctx.technologyYears
      fun region technology year => (technology.grossMin.find? [region, year]).isSome),
    ("AAC2_TotalAnnualTechnologyActivityUpperLimit", ctx.technologyYears
      fun region technology year => (technology.activityAnnualMax.find? [region, year]).isSome),
    ("AAC3_TotalAnnualTechnologyActivityLowerLimit", ctx.technologyYears
      fun region technology year => (technology.activityAnnualMin.find? [region, year]).isSome),
    ("ACF1_AnnualCapacityFactorMin", ctx.technologyYears
      fun region technology year => (technology.capacityFactorMin.find? [region, year]).isSome),
    ("TAC2_TotalModelHorizonTechnologyActivityUpperLimit", fun i =>
      ∃ region ∈ ctx.sets.regions, ∃ technology ∈ ctx.model.technologies,
        (technology.activityTotalMax.find? [region]).isSome ∧ i = [region, technology.id]),
    ("TAC3_TotalModelHorizonTechnologyActivityLowerLimit", fun i =>
      ∃ region ∈ ctx.sets.regions, ∃ technology ∈ ctx.model.technologies,
        (technology.activityTotalMin.find? [region]).isSome ∧ i = [region, technology.id]),
    ("E8_AnnualEmissionsLimit", fun i => ∃ region ∈ ctx.sets.regions,
      ∃ impact ∈ ctx.model.impacts, ∃ year ∈ ctx.sets.years,
        (impact.limitAnnual.find? [region, year]).isSome ∧ i = [region, impact.id, year]),
    ("E9_ModelPeriodEmissionsLimit", fun i => ∃ region ∈ ctx.sets.regions,
      ∃ impact ∈ ctx.model.impacts,
        (impact.limitTotal.find? [region]).isSome ∧ i = [region, impact.id]),
    ("RM3_ReserveMargin_Constraint", fun i => ∃ region ∈ ctx.sets.regions,
      ∃ year ∈ ctx.sets.years, ctx.CountsIn Commodity.inReserveMargin region year ∧
        ∃ timeslice ∈ ctx.sets.timeslices, i = [region, timeslice, year]),
    ("RM3_ReserveMargin_RegionGroup", fun i => ∃ group ∈ ctx.model.regionGroups,
      ∃ year ∈ ctx.sets.years, (group.reserveMargin.find? [year]).isSome ∧
        ctx.CountsInGroup Commodity.inReserveMargin group year ∧
          ∃ timeslice ∈ ctx.sets.timeslices, i = [group.id, timeslice, year]),
    ("RE4_EnergyConstraint", fun i => ∃ region ∈ ctx.sets.regions, ∃ year ∈ ctx.sets.years,
      (ctx.model.renewableTarget.find? [region, year]).isSome ∧
        ctx.CountsIn Commodity.inRenewableTarget region year ∧ i = [region, year]),
    ("RE4_EnergyConstraint_RegionGroup", fun i => ∃ group ∈ ctx.model.regionGroups,
      ∃ year ∈ ctx.sets.years, (group.renewableTarget.find? [year]).isSome ∧
        ctx.CountsInGroup Commodity.inRenewableTarget group year ∧ i = [group.id, year]),
    ("S1_RateOfStorageCharge", ctx.storageSlices fun _ _ _ => True),
    ("S2_RateOfStorageDischarge", ctx.storageSlices fun _ _ _ => True),
    ("S3_StorageLevel", ctx.storageSlices fun _ _ _ => True),
    ("S4_StorageDailyBalance", fun i => ∃ region ∈ ctx.sets.regions,
      ∃ storage ∈ ctx.model.storage, ∃ year ∈ ctx.sets.years, storage.balanceDaily ∧
        ∃ season ∈ ctx.sets.seasons, ∃ dayType ∈ ctx.sets.dayTypes,
          (∃ timeslice ∈ ctx.sets.timeslices,
            ctx.model.time.seasons.memberOf[timeslice]? = some season ∧
              ctx.model.time.dayTypes.memberOf[timeslice]? = some dayType) ∧
            i = [region, storage.id, season, dayType, year]),
    ("S5_StorageAnnualBalance", fun i => ∃ region ∈ ctx.sets.regions,
      ∃ storage ∈ ctx.model.storage, ∃ year ∈ ctx.sets.years, storage.balanceAnnual ∧
        i = [region, storage.id, year]),
    ("SC1_StorageUpperLimit", ctx.storageSlices fun _ _ _ => True),
    ("SC2_StorageLowerLimit", ctx.storageSlices fun region storage year =>
      0 < (storage.minimumCharge.find? [region, year]).getD 0),
    ("SC3_MaxChargeConstraint", ctx.storageSlices fun region storage _ =>
      (storage.maxChargeRate.find? [region]).isSome),
    ("SC4_MaxDischargeConstraint", ctx.storageSlices fun region storage _ =>
      (storage.maxDischargeRate.find? [region]).isSome),
    ("TR1_TradeCapacity", fun i => ctx.routeYears fun trade origin destination year =>
      ∃ timeslice ∈ ctx.sets.timeslices,
        i = [origin, destination, timeslice, trade.commodity, year]),
    ("TR2_TradeCapacityMax", fun i => ctx.routeYears fun trade origin destination year =>
      (trade.additionalMax.find? [origin, destination, year]).isSome ∧
        i = [origin, destination, trade.commodity, year]),
    ("GR1_NewCapacityMaxGrowthRate", ctx.technologyYears fun region technology year =>
      ctx.Later year ∧ (technology.maxGrowthRate.find? [region]).isSome ∧
        technology.maxGrowthFloor.find? [region] = none),
    ("GR2a_NewCapacityMaxGrowthRateBranch", ctx.technologyYears fun region technology year =>
      ctx.Later year ∧ (technology.maxGrowthRate.find? [region]).isSome ∧
        (technology.maxGrowthFloor.find? [region]).isSome),
    ("GR2b_NewCapacityMaxFloorBranch", ctx.technologyYears fun region technology year =>
      ctx.Later year ∧ (technology.maxGrowthRate.find? [region]).isSome ∧
        (technology.maxGrowthFloor.find? [region]).isSome),
    ("GR3_NewCapacityMinGrowthRate", ctx.technologyYears fun region technology year =>
      ctx.Later year ∧ (technology.minGrowthRate.find? [region]).isSome),
    ("PT1_ProductionTargetMin", fun i => ∃ technology ∈ ctx.model.technologies,
      ∃ region ∈ ctx.sets.regions, ∃ commodity ∈ ctx.sets.commodities,
        ∃ year ∈ ctx.sets.years,
          (technology.productionTargetMin.find? [region, commodity, year]).isSome ∧
            i = [region, technology.id, commodity, year]),
    ("PT2_ProductionTargetMax", fun i => ∃ technology ∈ ctx.model.technologies,
      ∃ region ∈ ctx.sets.regions, ∃ commodity ∈ ctx.sets.commodities,
        ∃ year ∈ ctx.sets.years,
          (technology.productionTargetMax.find? [region, commodity, year]).isSome ∧
            i = [region, technology.id, commodity, year])]

end Context

/-- A family that covers a domain has a constraint at exactly its indexes, and every
constraint that its rule makes. -/
theorem exact_of_covers {R : Type} {rule : ConstraintRule R} {ctx : Context R} {p : Key → Prop}
    (h : Covers (rule.constraints ctx) p) :
    (∀ i, i ∈ (rule.family ctx).value.entries ↔ p i) ∧
      ∀ c ∈ (rule.constraints ctx).value, (rule.family ctx).value.entries[c.index]? = some c := by
  constructor
  · intro i
    rw [ConstraintRule.mem_entries_family, ← h.2 i, List.mem_map]
  · intro c hm
    have hi : c.index ∈ (rule.family ctx).value.entries :=
      ConstraintRule.mem_entries_family.2 ⟨c, hm, rfl⟩
    obtain ⟨c', hc'⟩ := Option.isSome_iff_exists.1
      (Std.ExtTreeMap.mem_iff_isSome_getElem?.1 hi)
    obtain ⟨hm', hindex⟩ := ConstraintRule.mem_of_getElem?_entries hc'
    rw [hc', List.inj_on_of_nodup_map h.1 hm' hm hindex]

/-- What one of two lists has is related to something in the other. -/
theorem exists_of_forall₂ {α β : Type} {r : α → β → Prop} {as : List α} {bs : List β}
    (h : List.Forall₂ r as bs) {a : α} (ha : a ∈ as) : ∃ b ∈ bs, r a b := by
  induction h with
  | nil => cases ha
  | cons hab _ ih =>
    rcases List.mem_cons.1 ha with rfl | ha
    · exact ⟨_, List.mem_cons_self, hab⟩
    · obtain ⟨b, hb, hr⟩ := ih ha
      exact ⟨b, List.mem_cons_of_mem _ hb, hr⟩

variable {R : Type} [Zero R] [One R] [Add R] [Sub R] [Mul R] [Div R] [Neg R] [BEq R] [LT R]
  [DecidableLT R]

section

omit [Mul R] [BEq R]

variable [LE R] [DecidableLE R] [Scalar R] {definition root : Node} {time : TimeStructure R}
  {members : MemberSets} {tolerance : R} {model : EnergyModel R} {sets : IndexSets}
  (hb : buildModel root time members tolerance = .ok model)

include hb

omit [Div R] in
/-- The years of a model that was built increase. -/
theorem pairwise_lt_years : model.time.years.Pairwise (· < ·) := by
  obtain ⟨htime, hcheck, -⟩ := checked_of_buildModel hb
  rw [TimeStructure.check] at hcheck
  simp only [List.append_eq_nil_iff] at hcheck
  rw [htime]
  exact TimeStructure.pairwise_lt_of_checkYears hcheck.1.1.1.1

variable (ht : TimeStructure.ofNode definition = .ok time) (hs : deriveSets model = .ok sets)

include hs

omit [Div R] in
/-- No year occurs twice in the sets. -/
theorem nodup_years : sets.years.Nodup := by
  have hyears : model.time.years.Nodup :=
    (pairwise_lt_years hb).imp fun hab => Int.ne_of_lt hab
  rw [← (deriveSets_eq_ok_iff.1 hs).1]
  exact ((List.mergeSort_perm _ _).nodup_iff.2 hyears).map yearLabel_injective

include ht

/-- A year of the sets has one before it exactly if some year of the model is earlier. -/
theorem isSome_previousYear_iff_later {bigM : R} {year : String} (hy : year ∈ sets.years) :
    ((Context.ofModel model sets bigM).previousYear year).isSome = true ↔
      (Context.ofModel model sets bigM).Later year := by
  have hsets := (deriveSets_eq_ok_iff.1 hs).1
  have htime := (checked_of_buildModel hb).1
  have hincrease := pairwise_lt_years hb
  rw [← hsets] at hy
  obtain ⟨y, hm, rfl⟩ := List.mem_map.1 hy
  have hm : y ∈ model.time.years := List.mem_mergeSort.1 hm
  have hnext : model.time.nextYear = successors (model.time.years.mergeSort (· ≤ ·)) := by
    rw [htime]
    exact TimeStructure.nextYear_eq ht
  have hiff := TimeStructure.isSome_previousYear_iff hnext hincrease hm
  rw [Context.previousYear, Context.Later, yearOf_yearLabel]
  exact hiff

/-- The context of a model is orderly if no timeslice occurs twice and no two trades carry one
commodity. -/
theorem orderly_of_stages (hslices : model.time.timeslices.Nodup)
    (htrades : (model.trade.map (·.commodity)).Nodup) (bigM : R) :
    (Context.ofModel model sets bigM).Orderly := by
  have hsound := sound_of_stages ht hb hs bigM
  have hsets := (deriveSets_eq_ok_iff.1 hs).1
  have htime := (checked_of_buildModel hb).1
  have hparts := TimeStructure.nodup_parts ht
  rw [← htime] at hparts
  have hyears := nodup_years hb hs
  subst hsets
  exact ⟨hsound, nodup_sortedDistinct _, hyears, hslices, hparts.1, hparts.2.1, htrades⟩

end

/-! ### The rules and their domains -/

section

variable {ctx : Context R} (hc : ctx.Orderly)
  (hlater : ∀ year ∈ ctx.sets.years, (ctx.previousYear year).isSome = true ↔ ctx.Later year)

include hlater in
omit [One R] [Add R] [Sub R] [Mul R] [Div R] [Neg R] [BEq R] [Zero R] [LT R] [DecidableLT R] in
/-- The years with a year before them are the later years. -/
theorem covers_later {r : Lookup (List (Constraint R))} {p : String → Technology R → Prop}
    (h : Covers r (ctx.technologyYears fun region technology year =>
      (ctx.previousYear year).isSome = true ∧ p region technology)) :
    Covers r (ctx.technologyYears fun region technology year =>
      ctx.Later year ∧ p region technology) := by
  refine h.congr fun i => ?_
  refine exists_congr fun region => and_congr_right fun _ => exists_congr fun technology =>
    and_congr_right fun _ => exists_congr fun year => and_congr_right fun hy => ?_
  exact and_congr_left fun _ => and_congr_left fun _ => hlater year hy

include hc hlater

open ConstraintRule in
/-- Each rule covers the domain of its name. -/
theorem covers_domains : List.Forall₂ (fun rule domain => rule.name = domain.1 ∧
    Covers (rule.constraints ctx) domain.2) constraintRules ctx.domains := by
  have hs := hc.shaped.technologies
  refine .cons ⟨rfl, covers_capacityRule hc⟩ (.cons ⟨rfl, covers_unitRule hc⟩
    (.cons ⟨rfl, covers_maintenanceRule hc⟩ (.cons ⟨rfl, covers_balanceRule hc⟩
    (.cons ⟨rfl, covers_annualBalanceRule hc⟩ ?_))))
  refine .cons ⟨rfl, covers_newCapacityRule hc⟩ (.cons ⟨rfl, covers_newCapacityRule hc⟩
    (.cons ⟨rfl, covers_grossCapacityRule hc⟩ (.cons ⟨rfl, covers_grossCapacityRule hc⟩ ?_)))
  refine .cons ⟨rfl, covers_annualActivityRule hc⟩
    (.cons ⟨rfl, covers_annualActivityRule hc⟩ (.cons ⟨rfl, covers_leastUseRule hc⟩
    (.cons ⟨rfl, covers_totalActivityRule hc⟩ (.cons ⟨rfl, covers_totalActivityRule hc⟩ ?_))))
  refine .cons ⟨rfl, covers_emissionRule hc⟩ (.cons ⟨rfl, covers_totalEmissionRule hc⟩
    (.cons ⟨rfl, covers_marginRule hc⟩ (.cons ⟨rfl, covers_groupMarginRule hc⟩
    (.cons ⟨rfl, covers_renewableRule hc⟩ (.cons ⟨rfl, covers_groupRenewableRule hc⟩ ?_)))))
  refine .cons ⟨rfl, covers_rateRule hc⟩ (.cons ⟨rfl, covers_rateRule hc⟩
    (.cons ⟨rfl, covers_levelRule hc.regions hc.distinct.storage hc.years hc.timeslices⟩
    (.cons ⟨rfl, covers_dailyBalanceRule hc⟩
    (.cons ⟨rfl, covers_annualBalanceOfStorageRule hc⟩ ?_))))
  refine .cons ⟨rfl, covers_upperLimitRule hc⟩ (.cons ⟨rfl, covers_lowerLimitRule hc⟩
    (.cons ⟨rfl, covers_rateLimitRule hc⟩ (.cons ⟨rfl, covers_rateLimitRule hc⟩ ?_)))
  refine .cons ⟨rfl, covers_routeCapacityRule hc⟩ (.cons ⟨rfl, covers_newRouteRule hc⟩ ?_)
  refine .cons ⟨rfl, covers_later hlater (covers_maxGrowthRule hc)⟩
    (.cons ⟨rfl, covers_later hlater (covers_growthBranchRule hc)⟩
    (.cons ⟨rfl, covers_later hlater (covers_floorBranchRule hc)⟩
    (.cons ⟨rfl, covers_later hlater (covers_minGrowthRule hc)⟩ ?_)))
  exact .cons ⟨rfl, covers_productionTargetRule hc (fun t h => (hs t h).productionTargetMin)
      fun _ _ => mem_fieldValues_productionTargetMin⟩
    (.cons ⟨rfl, covers_productionTargetRule hc (fun t h => (hs t h).productionTargetMax)
      fun _ _ => mem_fieldValues_productionTargetMax⟩ .nil)

end

/-- **Every family has its constraints exactly where they belong.** A model with distinct
timeslices and trades of distinct commodities compiles to a problem with the families of
`domains` and no others. Each has a constraint at exactly the indexes of its domain, and the
constraint that a rule makes for an index is the one that the problem has there. -/
theorem compile_domains [LE R] [DecidableLE R] [Scalar R] (irrefl : ¬ (0 : R) < 0)
    {definition root : Node} {time : TimeStructure R} {members : MemberSets} {tolerance bigM : R}
    {model : EnergyModel R} {sets : IndexSets}
    (ht : TimeStructure.ofNode definition = .ok time)
    (hb : buildModel root time members tolerance = .ok model)
    (hs : deriveSets model = .ok sets) (hslices : model.time.timeslices.Nodup)
    (htrades : (model.trade.map (·.commodity)).Nodup) :
    ∃ problem, compile model sets bigM = .ok problem ∧
      (∀ name, problem.hasConstraints name = true ↔
        name ∈ (Context.ofModel model sets bigM).domains.map (·.1)) ∧
      (∀ domain ∈ (Context.ofModel model sets bigM).domains, ∃ family,
        problem.constraints[domain.1]? = some family ∧
          ∀ i, i ∈ family.entries ↔ domain.2 i) ∧
      ∀ rule ∈ constraintRules, ∃ family, problem.constraints[rule.name]? = some family ∧
        ∀ c ∈ (rule.constraints (Context.ofModel model sets bigM)).value,
          family.entries[c.index]? = some c := by
  have hc := orderly_of_stages hb ht hs hslices htrades bigM
  have hcovers := covers_domains hc fun year hy => isSome_previousYear_iff_later hb ht hs hy
  have hrule : ∀ domain ∈ (Context.ofModel model sets bigM).domains, ∃ rule ∈ constraintRules,
      rule.name = domain.1 ∧
        Covers (rule.constraints (Context.ofModel model sets bigM)) domain.2 :=
    fun domain hd => exists_of_forall₂ (r := fun domain (rule : ConstraintRule R) =>
      rule.name = domain.1 ∧ Covers (rule.constraints _) domain.2) hcovers.flip hd
  refine ⟨_, compile_of_sound hc.toSound irrefl, fun name => ?_, fun domain hd => ?_,
    fun rule hr => ?_⟩
  · rw [Problem.hasConstraints, Std.ExtTreeMap.contains_eq_isSome_getElem?,
      Option.isSome_iff_exists, List.mem_map]
    constructor
    · rintro ⟨family, hf⟩
      obtain ⟨rule, hr, rfl, -⟩ := exists_rule_of_constraintTable hf
      obtain ⟨domain, hd, hname, -⟩ := exists_of_forall₂ hcovers hr
      exact ⟨domain, hd, hname.symm⟩
    · rintro ⟨domain, hd, rfl⟩
      obtain ⟨rule, hr, hname, -⟩ := hrule domain hd
      rw [← hname]
      exact ⟨_, getElem?_constraintTable hr⟩
  · obtain ⟨rule, hr, hname, hcover⟩ := hrule domain hd
    rw [← hname]
    exact ⟨_, getElem?_constraintTable hr, (exact_of_covers hcover).1⟩
  · obtain ⟨domain, -, -, hcover⟩ := exists_of_forall₂ hcovers hr
    exact ⟨_, getElem?_constraintTable hr, (exact_of_covers hcover).2⟩

/-- Two regions with trade and a storage have their constraints where they belong. -/
theorem compile_domains_sample :
    ¬ (0 : Rat) < 0 ∧
      ∃ (definition root : Node) (time : TimeStructure Rat) (members : MemberSets)
        (tolerance : Rat) (model : EnergyModel Rat) (sets : IndexSets),
        TimeStructure.ofNode definition = .ok time ∧
        buildModel root time members tolerance = .ok model ∧ deriveSets model = .ok sets ∧
        model.time.timeslices.Nodup ∧ (model.trade.map (·.commodity)).Nodup ∧
        model.trade ≠ [] ∧ model.storage ≠ [] ∧
        ∃ problem, compile model sets 1000 = .ok problem ∧
          (∀ name, problem.hasConstraints name = true ↔
            name ∈ (Context.ofModel model sets 1000).domains.map (·.1)) ∧
          (∀ domain ∈ (Context.ofModel model sets 1000).domains, ∃ family,
            problem.constraints[domain.1]? = some family ∧
              ∀ i, i ∈ family.entries ↔ domain.2 i) ∧
          ∀ rule ∈ constraintRules, ∃ family, problem.constraints[rule.name]? = some family ∧
            ∀ c ∈ (rule.constraints (Context.ofModel model sets 1000)).value,
              family.entries[c.index]? = some c := by
  have haccepts : Exact.accepts Exact.noVariables .standard Exact.sample (fun model _ =>
      decide (model.time.timeslices.Nodup ∧ (model.trade.map (·.commodity)).Nodup) &&
        !model.trade.isEmpty && !model.storage.isEmpty) = true := by decide +kernel
  obtain ⟨options, root, resolved, expanded, model, sets, -, -, he, hb, hs, htest⟩ :=
    Exact.exists_of_accepts haccepts
  simp only [Bool.and_eq_true, decide_eq_true_eq, Bool.not_eq_true', List.isEmpty_eq_false_iff]
    at htest
  obtain ⟨⟨⟨hslices, htrades⟩, htrade⟩, hstorage⟩ := htest
  have ht := ofNode_of_expandModel he
  refine ⟨Rat.lt_irrefl, _, _, _, _, _, model, sets, ht, hb, hs, hslices, htrades, htrade,
    hstorage, ?_⟩
  exact compile_domains Rat.lt_irrefl ht hb hs hslices htrades

end EnergyPlan
