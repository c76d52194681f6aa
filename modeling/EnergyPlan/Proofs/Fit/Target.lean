/-
# Constraints on margins and targets fit

A target is on a region, a commodity and a year that are in the sets, because the sets
hold every label that the model refers to; so what is produced there has its variables.

Key theorems: `fitsIn_marginRule`, `fitsIn_renewableRule`, `fitsIn_groupRenewableRule`,
`fitsIn_productionTargetRule`.
-/
import EnergyPlan.Proofs.Fit.Basic

set_option linter.unusedSectionVars false

namespace EnergyPlan.ConstraintRule

open Noted LinearExpression Context

/-- Asking which entities have a flag set yields some of them. -/
theorem yields_flaggedAt {α : Type} {flags : α → Tensor Bool} {dimensions : List Dimension}
    {key : Key} (hl : key.length = dimensions.length) {entities : List α}
    (hd : ∀ entity ∈ entities, (flags entity).dimensions = dimensions) :
    (flaggedAt flags key entities).Yields fun es => ∀ e ∈ es, e ∈ entities := by
  refine .gather fun entity he => (Tensor.yields_lookup (hd entity he) hl).bind
    fun flag _ => yields_pure fun e hm => ?_
  rw [List.mem_ite_nil_right, List.mem_singleton] at hm
  exact hm.2 ▸ he

variable {R : Type} [Zero R] [One R] [LT R] [DecidableLT R] {ctx : Context R} (hc : ctx.Sound)

include hc

theorem yields_groupRegions {group : RegionGroup R} (hg : group ∈ ctx.model.regionGroups)
    {year : String} :
    (groupRegions ctx group year).Yields fun regions => ∀ r ∈ regions, r ∈ ctx.sets.regions := by
  have hs := hc.shaped.regionGroups group hg
  refine .gather fun region hr => (Tensor.yields_lookup hs.includes rfl).bind
    fun flag _ => yields_pure fun r hm => ?_
  rw [List.mem_ite_nil_right, List.mem_singleton] at hm
  exact hm.2 ▸ hr

theorem yields_marginCommodities {region year : String} :
    (marginCommodities ctx region year).Yields fun _ => True :=
  (yields_flaggedAt rfl fun commodity hm =>
    (hc.shaped.commodities commodity hm).inReserveMargin).mono fun _ _ => trivial

theorem yields_renewableCommodities {region year : String} :
    (renewableCommodities ctx region year).Yields fun _ => True :=
  (yields_flaggedAt rfl fun commodity hm =>
    (hc.shaped.commodities commodity hm).inRenewableTarget).mono fun _ _ => trivial

variable [Add R] [Sub R] [Mul R] [Neg R] [BEq R]

/-! ### Reserve margin -/

theorem yields_marginSurplus {region timeslice year : String} (hr : region ∈ ctx.sets.regions)
    (hy : year ∈ ctx.sets.years) (hl : timeslice ∈ ctx.sets.timeslices) {margin : R} :
    (marginSurplus ctx region timeslice year margin).Yields (Over ctx.Known) := by
  refine (yields_flaggedAt rfl fun technology ht =>
    (hc.shaped.technologies technology ht).inReserveMargin).bind fun technologies hts => ?_
  refine (Yields.each (P := fun p => p.1.Over ctx.Known) fun technology ht => ?_).bind
    fun capacity hcapacity => ?_
  · have hs := hc.shaped.technologies technology (hts technology ht)
    exact (hc.yields_grossCapacity hr (hts technology ht)).bind fun gross hgross =>
      (Tensor.yields_lookup hs.capacityActivityRatio rfl).bind fun ratio _ => yields_pure hgross
  · refine (yields_marginCommodities hc).bind fun commodities _ => ?_
    refine (Yields.each (P := fun p => p.1.Over ctx.Known) fun commodity _ => ?_).bind
      fun demand hdemand => ?_
    · exact (hc.yields_totalCommodityRate hr hy hl).bind fun rate hrate => yields_pure hrate
    · exact yields_pure (over_sum (List.forall_mem_append.2 ⟨hcapacity, hdemand⟩))

theorem fitsIn_marginRule : (marginRule : ConstraintRule R).FitsIn ctx := by
  refine .gather fun region hr => .gather fun year hy => ?_
  refine (yields_marginCommodities hc).bind fun commodities _ => .ite
    (fun _ => yields_pure (List.forall_mem_nil _)) fun _ => ?_
  refine (Tensor.yields_lookup hc.shaped.fields.reserveMargin rfl).bind fun margin _ => ?_
  exact .each fun timeslice hl => (yields_marginSurplus hc hr hy hl).bind
    fun surplus hsurplus => yields_pure (fits_of rfl hsurplus)

theorem fitsIn_groupMarginRule : (groupMarginRule : ConstraintRule R).FitsIn ctx := by
  refine .gather fun group hg => .gather fun year hy => ?_
  refine (Tensor.yields_lookup? (hc.shaped.regionGroups group hg).reserveMargin rfl).bind
    fun margin _ => ?_
  cases margin with
  | none => exact yields_pure (List.forall_mem_nil _)
  | some margin =>
    refine (yields_groupRegions hc hg).bind fun included hincluded => ?_
    refine Yields.bind (P := fun regions => ∀ r ∈ regions, r ∈ ctx.sets.regions) ?_
      fun regions hregions => ?_
    · refine .gather fun region hr => (yields_marginCommodities hc).bind
        fun commodities _ => yields_pure fun r hm => ?_
      rw [List.mem_ite_nil_left, List.mem_singleton] at hm
      exact hm.2 ▸ hincluded region hr
    · refine .ite (fun _ => yields_pure (List.forall_mem_nil _)) fun _ => ?_
      refine .each fun timeslice hl => ?_
      refine (Yields.each (P := fun p => p.1.Over ctx.Known) fun region hr => ?_).bind
        fun parts hparts => yields_pure (fits_of rfl (over_sum hparts))
      exact (yields_marginSurplus hc (hregions region hr) hy hl).bind
        fun surplus hsurplus => yields_pure hsurplus

/-! ### Renewable target -/

theorem yields_renewableSurplus {region year : String} (hr : region ∈ ctx.sets.regions)
    (hy : year ∈ ctx.sets.years) {share : R} :
    (renewableSurplus ctx region year share).Yields (Over ctx.Known) := by
  refine (yields_renewableCommodities hc).bind fun commodities _ => ?_
  refine Yields.bind (P := fun parts => ∀ p ∈ parts, p.1.Over ctx.Known) ?_
    fun parts hparts => yields_pure (over_sum hparts)
  refine .gather fun commodity _ => .gather fun timeslice hl => ?_
  refine hc.yields_yearSplit.bind fun split _ => ?_
  refine (yields_flaggedAt rfl fun technology ht =>
    (hc.shaped.technologies technology ht).inRenewableTarget).bind fun technologies hts => ?_
  refine (Yields.each (P := fun p => p.1.Over ctx.Known) fun technology ht => ?_).bind
    fun renewable hrenewable => ?_
  · exact (hc.yields_commodityRate hr hy (hts technology ht) hl).bind
      fun rate hrate => yields_pure hrate
  · exact (hc.yields_production hr hy hl).bind fun production hproduction =>
      yields_pure (List.forall_mem_append.2
        ⟨hrenewable, List.forall_mem_singleton.2 hproduction⟩)

/-- A renewable target is one of a region and a year of the model. -/
theorem within_renewableTarget {region year : String} {share : R}
    (h : ([region, year], share) ∈ ctx.model.renewableTarget.entries) :
    region ∈ ctx.sets.regions ∧ year ∈ ctx.sets.years := by
  have hm : ("renewable_production_target", FieldValues.reals ctx.model.renewableTarget) ∈
      ctx.model.toModelFields.fieldValues := by simp [ModelFields.fieldValues]
  have hwithin := hc.hold.fields.reals hm h
  rw [hc.shaped.fields.renewableTarget] at hwithin
  exact ⟨hwithin (.region, region) (by simp), hwithin (.year, year) (by simp)⟩

theorem fitsIn_renewableRule : (renewableRule : ConstraintRule R).FitsIn ctx := by
  refine .gather ?_
  rintro ⟨key, share⟩ hk
  dsimp only
  split
  · next region year =>
    obtain ⟨hr, hy⟩ := within_renewableTarget hc hk
    refine (yields_renewableCommodities hc).bind fun commodities _ => .ite
      (fun _ => yields_pure (List.forall_mem_nil _)) fun _ => ?_
    exact (yields_renewableSurplus hc hr hy).bind fun surplus hsurplus =>
      yields_pure (List.forall_mem_singleton.2 (fits_of rfl hsurplus))
  · exact yields_pure (List.forall_mem_nil _)

/-- A renewable target of a group is one of a year of the model. -/
theorem within_groupTarget {group : RegionGroup R} (hg : group ∈ ctx.model.regionGroups)
    {year : String} {share : R} (h : ([year], share) ∈ group.renewableTarget.entries) :
    year ∈ ctx.sets.years := by
  have hm : ("renewable_production_target", FieldValues.reals group.renewableTarget) ∈
      group.fieldValues := by simp [RegionGroup.fieldValues]
  have hwithin := (hc.hold.regionGroups group hg).reals hm h
  rw [(hc.shaped.regionGroups group hg).renewableTarget] at hwithin
  exact hwithin (.year, year) (by simp)

theorem fitsIn_groupRenewableRule : (groupRenewableRule : ConstraintRule R).FitsIn ctx := by
  refine .gather fun group hg => .gather ?_
  rintro ⟨key, share⟩ hk
  dsimp only
  split
  · next year =>
    have hy := within_groupTarget hc hg hk
    refine (yields_groupRegions hc hg).bind fun regions hregions => ?_
    refine (Yields.gather (P := fun _ => True) fun region _ =>
      (yields_renewableCommodities hc).mono fun _ _ _ _ => trivial).bind fun counting _ => ?_
    refine .ite (fun _ => yields_pure (List.forall_mem_nil _)) fun _ => ?_
    refine (Yields.each (P := fun p => p.1.Over ctx.Known) fun region hr => ?_).bind
      fun parts hparts =>
        yields_pure (List.forall_mem_singleton.2 (fits_of rfl (over_sum hparts)))
    exact (yields_renewableSurplus hc (hregions region hr) hy).bind
      fun surplus hsurplus => yields_pure hsurplus
  · exact yields_pure (List.forall_mem_nil _)

/-! ### Production target -/

theorem yields_productionSurplus {technology : Technology R}
    (ht : technology ∈ ctx.model.technologies) {region commodity year : String}
    (hr : region ∈ ctx.sets.regions) (hy : year ∈ ctx.sets.years) {share : R} :
    (productionSurplus ctx technology region commodity year share).Yields
      (Over ctx.Known) := by
  refine Yields.bind (P := fun parts => ∀ p ∈ parts, p.1.Over ctx.Known) ?_
    fun parts hparts => yields_pure (over_sum hparts)
  refine .gather fun timeslice hl => ?_
  refine (hc.yields_commodityRate hr hy ht hl).bind fun rate hrate => ?_
  refine hc.yields_yearSplit.bind fun split _ => ?_
  refine (hc.yields_production hr hy hl).bind fun production hproduction => yields_pure ?_
  exact List.forall_mem_cons.2 ⟨hrate, List.forall_mem_singleton.2 hproduction⟩

section

variable {field : String} {targets : Technology R → Tensor R}
  (hd : ∀ technology ∈ ctx.model.technologies,
    (targets technology).dimensions = [.region, .commodity, .year])
  (hf : ∀ technology ∈ ctx.model.technologies,
    (field, FieldValues.reals (targets technology)) ∈ technology.fieldValues)

include hd hf

/-- A target that is a field of a technology is one of a region, a commodity and a year of the
model. -/
theorem within_productionTarget {technology : Technology R}
    (ht : technology ∈ ctx.model.technologies) {region commodity year : String} {share : R}
    (h : ([region, commodity, year], share) ∈ (targets technology).entries) :
    region ∈ ctx.sets.regions ∧ commodity ∈ ctx.sets.commodities ∧ year ∈ ctx.sets.years := by
  have hwithin := (hc.hold.technologies technology ht).reals (hf technology ht) h
  rw [hd technology ht] at hwithin
  exact ⟨hwithin (.region, region) (by simp), hwithin (.commodity, commodity) (by simp),
    hwithin (.year, year) (by simp)⟩

/-- A target on production fits if it is one of the fields of the technologies. -/
theorem fitsIn_productionTargetRule {name : String} {relation : Relation} :
    (productionTargetRule name targets relation).FitsIn ctx := by
  refine .gather fun technology ht => .gather ?_
  rintro ⟨key, share⟩ hk
  dsimp only
  split
  · next region commodity year =>
    obtain ⟨hr, -, hy⟩ := within_productionTarget hc hd hf ht hk
    exact (yields_productionSurplus hc ht hr hy).bind fun surplus hsurplus =>
      yields_pure (List.forall_mem_singleton.2 (fits_of rfl hsurplus))
  · exact yields_pure (List.forall_mem_nil _)

end

end EnergyPlan.ConstraintRule
