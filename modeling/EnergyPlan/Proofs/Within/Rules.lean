/-
# Every family of constraints is over the sets

Each rule makes the same constraints for the part of a model over its sets as for the whole
model: a row of a rule is for labels of the sets, and what it asks of a field with a default
it asks under keys of these labels. Growth goes by the capacity of the year before, which is
a year of the model; the targets whose entries are listed are over the sets.

Key theorems: `within_growth`, `within_marginSurplus`, `within_constraintRules`.
-/
import EnergyPlan.Proofs.Cover.Target
import EnergyPlan.Proofs.Within.Quantities

set_option linter.unusedSectionVars false

namespace EnergyPlan.ConstraintRule

open Noted IndexSets Context

variable {R : Type} [Zero R] [One R] [Add R] [Sub R] [Mul R] [Div R] [Neg R] [BEq R] [LT R]
  [DecidableLT R] {ctx : Context R} (hc : ctx.Inside)

include hc

/-! ### Capacity -/

theorem within_capacityRule : (capacityRule : ConstraintRule R).Within ctx := by
  refine perTechnologyYear_within fun region hr technology ht year hy => ?_
  have hs := hc.shaped.technologies technology ht
  refine bind_congr (Tensor.lookup_within _ hs.capacityActivityRatio (tuple_region hr) 1)
    fun ratio => bind_congr (hc.grossCapacity_eq hr hy ht) fun gross => ?_
  refine each_congr fun timeslice hl => ?_
  refine bind_congr (Tensor.lookup_within _ hs.capacityFactor (tuple_slice hr hy hl) 1)
    fun factor => ?_
  exact bind_congr (ctx.totalRate_within ..) fun _ => rfl

theorem within_unitRule : (unitRule : ConstraintRule R).Within ctx :=
  perTechnologyYear_within fun _ _ _ _ _ _ => rfl

theorem availableShare_eq {region year : String} (hr : region ∈ ctx.sets.regions)
    (hy : year ∈ ctx.sets.years) {technology : Technology R}
    (ht : technology ∈ ctx.model.technologies) :
    availableShare ctx.within region (technology.within ctx.sets) year =
      availableShare ctx region technology year := by
  have hs := hc.shaped.technologies technology ht
  refine foldlM_congr (fun available timeslice hl => ?_) 0
  exact bind_congr (Tensor.lookup_within _ hs.capacityFactor (tuple_slice hr hy hl) 1)
    fun _ => rfl

theorem within_maintenanceRule : (maintenanceRule : ConstraintRule R).Within ctx := by
  refine perTechnologyYear_within fun region hr technology ht year hy => ?_
  have hs := hc.shaped.technologies technology ht
  refine bind_congr (Tensor.lookup_within _ hs.capacityActivityRatio (tuple_region hr) 1)
    fun ratio => bind_congr (hc.grossCapacity_eq hr hy ht) fun gross => ?_
  refine bind_congr (availableShare_eq hc hr hy ht) fun available => ?_
  refine bind_congr (Tensor.lookup_within _ hs.availabilityFactor (tuple_annual hr hy) 1)
    fun availability => bind_congr (ctx.annualActivity_within ..) fun _ => rfl

section

variable {name : String} {bounds : Technology R → Tensor R} {relation : Relation}
  (hb : ∀ technology, bounds (technology.within ctx.sets) = bounds technology)

include hb

theorem within_newCapacityRule : (newCapacityRule name bounds relation).Within ctx := by
  refine perTechnologyYear_within fun region _ technology _ year _ => ?_
  exact bind_congr rfl fun added => bind_congr (by rw [hb]) fun _ => rfl

theorem within_grossCapacityRule : (grossCapacityRule name bounds relation).Within ctx := by
  refine perTechnologyYear_within fun region hr technology ht year hy => ?_
  refine bind_congr (by rw [hb]) fun bound => ?_
  cases bound with
  | none => rfl
  | some bound => exact bind_congr (hc.grossCapacity_eq hr hy ht) fun _ => rfl

theorem within_annualActivityRule : (annualActivityRule name bounds relation).Within ctx := by
  refine perTechnologyYear_within fun region hr technology ht year hy => ?_
  refine bind_congr (by rw [hb]) fun bound => ?_
  cases bound with
  | none => rfl
  | some bound => exact bind_congr (ctx.annualActivity_within ..) fun _ => rfl

theorem within_totalActivityRule : (totalActivityRule name bounds relation).Within ctx := by
  refine perTechnology_within fun region hr technology ht => ?_
  refine bind_congr (by rw [hb]) fun bound => ?_
  cases bound with
  | none => rfl
  | some bound =>
    refine bind_congr (each_congr fun year _ => ?_) fun _ => rfl
    exact ctx.annualActivity_within region technology year

end

theorem within_leastUseRule : (leastUseRule : ConstraintRule R).Within ctx := by
  refine perTechnologyYear_within fun region hr technology ht year hy => ?_
  have hs := hc.shaped.technologies technology ht
  refine bind_congr rfl fun factor => ?_
  cases factor with
  | none => rfl
  | some factor =>
    refine bind_congr (ctx.annualActivity_within ..) fun annual => ?_
    refine bind_congr (hc.grossCapacity_eq hr hy ht) fun gross => ?_
    exact bind_congr (Tensor.lookup_within _ hs.capacityActivityRatio (tuple_region hr) 1)
      fun _ => rfl

/-! ### Growth -/

theorem growth_eq_within {region year : String} (hr : region ∈ ctx.sets.regions)
    {technology : Technology R} (ht : technology ∈ ctx.model.technologies) {previous : Int}
    (hp : ctx.previousYear year = some previous) (rate : R) :
    growth ctx.within region (technology.within ctx.sets) year previous rate =
      growth ctx region technology year previous rate :=
  bind_congr rfl fun _ =>
    bind_congr (hc.grossCapacity_eq hr (hc.earlier (yearOf year) previous hp) ht) fun _ => rfl

omit hc in
theorem perLaterYear_within
    {rows rows' : String → Technology R → String → Int → Lookup (List (Constraint R))}
    (h : ∀ region ∈ ctx.sets.regions, ∀ technology ∈ ctx.model.technologies,
      ∀ year previous, ctx.previousYear year = some previous →
        rows region (technology.within ctx.sets) year previous =
          rows' region technology year previous) :
    perLaterYear ctx.within rows = perLaterYear ctx rows' := by
  refine perTechnologyYear_within fun region hr technology ht year _ => ?_
  have hprevious : ctx.within.previousYear year = ctx.previousYear year := rfl
  rw [hprevious]
  cases hp : ctx.previousYear year with
  | none => rfl
  | some previous => exact h region hr technology ht year previous hp

theorem within_maxGrowthRule : (maxGrowthRule : ConstraintRule R).Within ctx := by
  refine perLaterYear_within fun region hr technology ht year previous hp => ?_
  refine bind_congr rfl fun rate => bind_congr rfl fun floor => ?_
  cases rate with
  | none => rfl
  | some rate =>
    cases floor with
    | none => exact bind_congr (growth_eq_within hc hr ht hp rate) fun _ => rfl
    | some floor => rfl

theorem within_growthBranchRule : (growthBranchRule : ConstraintRule R).Within ctx := by
  refine perLaterYear_within fun region hr technology ht year previous hp => ?_
  refine bind_congr rfl fun rate => bind_congr rfl fun floor => ?_
  cases rate with
  | none => rfl
  | some rate =>
    cases floor with
    | none => rfl
    | some floor => exact bind_congr (growth_eq_within hc hr ht hp rate) fun _ => rfl

theorem within_floorBranchRule : (floorBranchRule : ConstraintRule R).Within ctx :=
  perLaterYear_within fun _ _ _ _ _ _ _ => rfl

theorem within_minGrowthRule : (minGrowthRule : ConstraintRule R).Within ctx := by
  refine perLaterYear_within fun region hr technology ht year previous hp => ?_
  refine bind_congr rfl fun rate => ?_
  cases rate with
  | none => rfl
  | some rate => exact bind_congr (growth_eq_within hc hr ht hp rate) fun _ => rfl

/-! ### Emissions and balances -/

theorem within_emissionRule : (emissionRule : ConstraintRule R).Within ctx := by
  refine gather_congr fun region _ => gather_congr fun impact _ => gather_congr fun year _ => ?_
  refine bind_congr rfl fun limit => ?_
  cases limit with
  | none => rfl
  | some limit => exact bind_congr (ctx.annualEmissions_within ..) fun _ => rfl

theorem within_totalEmissionRule : (totalEmissionRule : ConstraintRule R).Within ctx := by
  refine gather_congr fun region _ => gather_congr fun impact _ => bind_congr rfl fun limit => ?_
  cases limit with
  | none => rfl
  | some limit =>
    refine bind_congr (each_congr fun year _ => ?_) fun _ => rfl
    exact ctx.annualEmissions_within region impact.id year

theorem balanceParts_eq {region year : String} (hr : region ∈ ctx.sets.regions)
    (hy : year ∈ ctx.sets.years) (timeslice commodity : String) :
    balanceParts ctx.within region timeslice commodity year =
      balanceParts ctx region timeslice commodity year :=
  bind_congr (ctx.production_within ..) fun _ => bind_congr (ctx.use_within ..) fun _ =>
    bind_congr (hc.netTrade_eq hr hy timeslice commodity) fun _ => rfl

theorem within_balanceRule : (balanceRule : ConstraintRule R).Within ctx := by
  refine perCommodityYear_within fun region hr commodity _ year hy => ?_
  refine bind_congr rfl fun demand => ?_
  cases demand with
  | some demand => rfl
  | none =>
    refine bind_congr rfl fun demand => each_congr fun timeslice _ => ?_
    exact bind_congr (balanceParts_eq hc hr hy timeslice commodity.id) fun _ => rfl

theorem within_annualBalanceRule : (annualBalanceRule : ConstraintRule R).Within ctx := by
  refine perCommodityYear_within fun region hr commodity _ year hy => ?_
  refine bind_congr rfl fun demand => ?_
  cases demand with
  | none => rfl
  | some demand =>
    refine bind_congr (gather_congr fun timeslice _ => ?_) fun _ => rfl
    exact balanceParts_eq hc hr hy timeslice commodity.id

/-! ### Reserve margins -/

section

variable {region year : String} (hr : region ∈ ctx.sets.regions) (hy : year ∈ ctx.sets.years)

include hr hy

theorem marginCommodities_eq : marginCommodities ctx.within region year =
    marginCommodities ctx region year >>= fun found => pure (found.map (·.within ctx.sets)) := by
  refine flaggedAt_map fun commodity hm => ?_
  exact Tensor.lookup_within _ (hc.shaped.commodities commodity hm).inReserveMargin
    (tuple_annual hr hy) false

theorem marginSurplus_eq (timeslice : String) (margin : R) :
    marginSurplus ctx.within region timeslice year margin =
      marginSurplus ctx region timeslice year margin := by
  have hflagged : flaggedAt Technology.inReserveMargin [region, year]
      ctx.within.model.technologies = flaggedAt Technology.inReserveMargin [region, year]
        ctx.model.technologies >>= fun found => pure (found.map (·.within ctx.sets)) :=
    flaggedAt_map fun technology ht => Tensor.lookup_within _
      (hc.shaped.technologies technology ht).inReserveMargin (tuple_annual hr hy) false
  refine bind_congr_map hflagged ?_
  refine bind_congr (each_map_congr _ fun technology hm => ?_) fun capacity => ?_
  · have ht := (mem_flaggedAt.1 hm).1
    refine bind_congr (hc.grossCapacity_eq hr hy ht) fun gross => ?_
    exact bind_congr (Tensor.lookup_within _
      (hc.shaped.technologies technology ht).capacityActivityRatio (tuple_region hr) 1)
      fun _ => rfl
  · refine bind_congr_map (marginCommodities_eq hc hr hy) ?_
    refine bind_congr (each_map_congr _ fun commodity _ => ?_) fun _ => rfl
    exact bind_congr (ctx.totalCommodityRate_within ..) fun _ => rfl

end

theorem within_marginRule : (marginRule : ConstraintRule R).Within ctx := by
  refine gather_congr fun region hr => gather_congr fun year hy => ?_
  refine bind_congr_map (marginCommodities_eq hc hr hy) ?_
  rw [List.isEmpty_map]
  cases (marginCommodities ctx region year).value.isEmpty with
  | true => rfl
  | false =>
    refine bind_congr (Tensor.lookup_within _ hc.shaped.fields.reserveMargin
      (tuple_annual hr hy) 1) fun margin => each_congr fun timeslice _ => ?_
    exact bind_congr (marginSurplus_eq hc hr hy timeslice margin) fun _ => rfl

theorem groupRegions_eq {group : RegionGroup R} (hg : group ∈ ctx.model.regionGroups)
    {year : String} (hy : year ∈ ctx.sets.years) :
    groupRegions ctx.within (group.within ctx.sets) year = groupRegions ctx group year := by
  refine gather_congr fun region hr => ?_
  exact bind_congr (Tensor.lookup_within _ (hc.shaped.regionGroups group hg).includes
    (tuple_annual hr hy) false) fun _ => rfl

theorem within_groupMarginRule : (groupMarginRule : ConstraintRule R).Within ctx := by
  refine gather_map_congr ctx.model.regionGroups fun group hg => ?_
  refine gather_congr fun year hy => bind_congr rfl fun margin => ?_
  cases margin with
  | none => rfl
  | some margin =>
    refine bind_congr_value (groupRegions_eq hc hg hy) ?_
    have hregions : ∀ region ∈ (groupRegions ctx group year).value, region ∈ ctx.sets.regions :=
      fun region hm => (mem_groupRegions.1 hm).1
    refine bind_congr_value (gather_congr fun region hm => ?_) ?_
    · refine bind_congr_map (marginCommodities_eq hc (hregions region hm) hy) ?_
      rw [List.isEmpty_map]
    · split
      · rfl
      · refine each_congr fun timeslice _ => bind_congr (each_congr fun region hm => ?_) fun _ => rfl
        obtain ⟨region', hm', hin⟩ := mem_value_gather.1 hm
        obtain ⟨-, hin⟩ := List.mem_ite_nil_left.1 hin
        obtain rfl := List.mem_singleton.1 hin
        exact bind_congr (marginSurplus_eq hc (hregions region hm') hy timeslice margin)
          fun _ => rfl

/-! ### Renewable targets -/

section

variable {region year : String} (hr : region ∈ ctx.sets.regions) (hy : year ∈ ctx.sets.years)

include hr hy

theorem renewableCommodities_eq : renewableCommodities ctx.within region year =
    renewableCommodities ctx region year >>= fun found =>
      pure (found.map (·.within ctx.sets)) := by
  refine flaggedAt_map fun commodity hm => ?_
  exact Tensor.lookup_within _ (hc.shaped.commodities commodity hm).inRenewableTarget
    (tuple_annual hr hy) false

theorem renewableSurplus_eq (share : R) :
    renewableSurplus ctx.within region year share = renewableSurplus ctx region year share := by
  have hflagged : flaggedAt Technology.inRenewableTarget [region, year]
      ctx.within.model.technologies = flaggedAt Technology.inRenewableTarget [region, year]
        ctx.model.technologies >>= fun found => pure (found.map (·.within ctx.sets)) :=
    flaggedAt_map fun technology ht => Tensor.lookup_within _
      (hc.shaped.technologies technology ht).inRenewableTarget (tuple_annual hr hy) false
  refine bind_congr_map (renewableCommodities_eq hc hr hy) ?_
  refine bind_congr (gather_map_congr _ fun commodity _ => gather_congr fun timeslice _ => ?_)
    fun _ => rfl
  refine bind_congr rfl fun split => bind_congr_map hflagged ?_
  refine bind_congr (each_map_congr _ fun technology _ => ?_) fun renewable => ?_
  · exact bind_congr (ctx.commodityRate_within ..) fun _ => rfl
  · exact bind_congr (ctx.production_within ..) fun _ => rfl

end

theorem within_renewableRule : (renewableRule : ConstraintRule R).Within ctx := by
  refine gather_congr fun (key, share) hm => ?_
  dsimp only
  split
  · next region year =>
    obtain ⟨hr, hy⟩ := hc.targets region year share hm
    refine bind_congr_map (renewableCommodities_eq hc hr hy) ?_
    rw [List.isEmpty_map, renewableSurplus_eq hc hr hy]
  · rfl

theorem within_groupRenewableRule : (groupRenewableRule : ConstraintRule R).Within ctx := by
  refine gather_map_congr ctx.model.regionGroups fun group hg => ?_
  refine gather_congr fun (key, share) hm => ?_
  dsimp only
  split
  · next year =>
    have hy := hc.groupTargets group hg year share hm
    have hregions : ∀ region ∈ (groupRegions ctx group year).value, region ∈ ctx.sets.regions :=
      fun region hm => (mem_groupRegions.1 hm).1
    have hcounting : gather (renewableCommodities ctx.within · year)
        (groupRegions ctx group year).value =
          gather (renewableCommodities ctx · year) (groupRegions ctx group year).value >>=
            fun found => pure (found.map (·.within ctx.sets)) := by
      rw [← gather_bind_map]
      exact gather_congr fun region hm => renewableCommodities_eq hc (hregions region hm) hy
    refine bind_congr_value (groupRegions_eq hc hg hy) (bind_congr_map hcounting ?_)
    rw [List.isEmpty_map]
    split
    · rfl
    · refine bind_congr (each_congr fun region hm => ?_) fun _ => rfl
      exact bind_congr (renewableSurplus_eq hc (hregions region hm) hy share) fun _ => rfl
  · rfl

/-! ### Production targets -/

omit hc in
theorem within_productionTargetRule {name : String} {targets : Technology R → Tensor R}
    {relation : Relation}
    (ht : ∀ technology, targets (technology.within ctx.sets) = targets technology) :
    (productionTargetRule name targets relation).Within ctx := by
  refine gather_map_congr ctx.model.technologies fun technology _ => ?_
  dsimp only
  rw [ht]
  refine gather_congr fun (key, share) _ => ?_
  dsimp only
  split
  · refine bind_congr (bind_congr (gather_congr fun timeslice _ => ?_) fun _ => rfl) fun _ => rfl
    refine bind_congr (ctx.commodityRate_within ..) fun rate => bind_congr rfl fun split => ?_
    exact bind_congr (ctx.production_within ..) fun _ => rfl
  · rfl

/-! ### Storage -/

omit hc in
theorem within_rateRule {name : String} {group : VariableGroup}
    {ties : OperatingMode R → Tensor Bool}
    (ht : ∀ mode, ties (mode.within ctx.sets) = ties mode) :
    (rateRule name group ties).Within ctx := by
  refine perStorageYear_within fun region _ storage _ year _ => each_congr fun timeslice _ => ?_
  refine bind_congr rfl fun rate => bind_congr ?_ fun _ => rfl
  refine gather_map_congr ctx.model.technologies fun technology _ => ?_
  refine gather_map_congr technology.modes fun mode _ => ?_
  rw [ht]
  rfl

theorem earlierLevel_eq {region : String} (hr : region ∈ ctx.sets.regions) {storage : Storage R}
    (ho : storage ∈ ctx.model.storage) (previousYear previousSlice : Option String)
    (year : String) :
    earlierLevel ctx.within region (storage.within ctx.sets) previousYear previousSlice year =
      earlierLevel ctx region storage previousYear previousSlice year := by
  have hinitial := Tensor.lookup_within ctx.sets (hc.shaped.storage storage ho).initialLevel
    (tuple_region hr) 0
  cases previousSlice with
  | some slice => rfl
  | none =>
    cases previousYear with
    | none => exact bind_congr hinitial fun _ => rfl
    | some earlier =>
      have hsets : ctx.within.sets = ctx.sets := rfl
      unfold earlierLevel
      simp only [hsets, Option.bind_some]
      cases ctx.sets.timeslices.getLast? with
      | none => exact bind_congr hinitial fun _ => rfl
      | some slice => rfl

theorem within_levelRule : (levelRule : ConstraintRule R).Within ctx := by
  refine gather_congr fun region hr => ?_
  refine gather_map_congr ctx.model.storage fun storage ho => ?_
  refine gather_congr fun (previousYear, year) _ => each_congr fun (previousSlice, timeslice) _ => ?_
  refine bind_congr rfl fun split => bind_congr rfl fun level => bind_congr rfl fun charge =>
    bind_congr rfl fun discharge => ?_
  exact bind_congr (earlierLevel_eq hc hr ho previousYear previousSlice year) fun _ => rfl

omit hc in
theorem within_annualBalanceOfStorageRule :
    (annualBalanceOfStorageRule : ConstraintRule R).Within ctx :=
  perStorageYear_within fun _ _ _ _ _ _ => rfl

omit hc in
theorem within_dailyBalanceRule : (dailyBalanceRule : ConstraintRule R).Within ctx :=
  perStorageYear_within fun _ _ _ _ _ _ => rfl

section

variable {region year : String} (hr : region ∈ ctx.sets.regions) (hy : year ∈ ctx.sets.years)
  {storage : Storage R} (ho : storage ∈ ctx.model.storage)

include hr hy ho

theorem headroom_eq (timeslice : String) (multiple : R) :
    headroom ctx.within region (storage.within ctx.sets) timeslice year multiple =
      headroom ctx region storage timeslice year multiple :=
  bind_congr rfl fun _ => bind_congr (hc.grossStorage_eq hr hy ho) fun _ => rfl

end

theorem within_upperLimitRule : (upperLimitRule : ConstraintRule R).Within ctx := by
  refine perStorageYear_within fun region hr storage ho year hy =>
    each_congr fun timeslice _ => ?_
  exact bind_congr (headroom_eq hc hr hy ho timeslice 1) fun _ => rfl

theorem within_lowerLimitRule : (lowerLimitRule : ConstraintRule R).Within ctx := by
  refine perStorageYear_within fun region hr storage ho year hy => ?_
  refine bind_congr (Tensor.lookup_within _ (hc.shaped.storage storage ho).minimumCharge
    (tuple_annual hr hy) 0) fun minimum => ?_
  split
  · refine each_congr fun timeslice _ => ?_
    exact bind_congr (headroom_eq hc hr hy ho timeslice minimum) fun _ => rfl
  · rfl

omit hc in
theorem within_rateLimitRule {name : String} {group : VariableGroup}
    {limits : Storage R → Tensor R}
    (hl : ∀ storage, limits (storage.within ctx.sets) = limits storage) :
    (rateLimitRule name group limits).Within ctx := by
  refine perStorageYear_within fun region _ storage _ year _ => ?_
  exact bind_congr (by rw [hl]) fun _ => rfl

/-! ### Trade -/

omit hc in
theorem perRouteYear_within
    {rows rows' : Trade R → String → String → String → Lookup (List (Constraint R))}
    (h : ∀ trade ∈ ctx.model.trade, ∀ origin ∈ ctx.sets.regions,
      ∀ destination ∈ ctx.sets.regions, ∀ year ∈ ctx.sets.years,
        rows (trade.within ctx.sets) origin destination year =
          rows' trade origin destination year) :
    perRouteYear ctx.within rows = perRouteYear ctx rows' := by
  refine gather_map_congr ctx.model.trade fun trade ht => ?_
  refine gather_congr fun origin ho => gather_congr fun destination hd =>
    gather_congr fun year hy => bind_congr rfl fun there => ?_
  split
  · exact h trade ht origin ho destination hd year hy
  · rfl

theorem within_routeCapacityRule : (routeCapacityRule : ConstraintRule R).Within ctx := by
  refine perRouteYear_within fun trade ht origin ho destination hd year hy => ?_
  have hs := hc.shaped.trade trade ht
  refine bind_congr (hc.grossTrade_eq ho hy hd ht) fun gross => ?_
  refine bind_congr (Tensor.lookup_within _ hs.loss (tuple_routeYear ho hd hy) 0) fun loss => ?_
  exact bind_congr (Tensor.lookup_within _ hs.capacityActivityRatio (tuple_route ho hd) 1)
    fun _ => rfl

omit hc in
theorem within_newRouteRule : (newRouteRule : ConstraintRule R).Within ctx :=
  perRouteYear_within fun _ _ _ _ _ _ _ _ => rfl

end EnergyPlan.ConstraintRule
