/-
# Constraints on capacity fit

The size of a unit is given wherever there is a variable for the units, for a technology
shares its id with no other one; and there is an indicator wherever a growth limit has
both branches.

Key theorems: `isSome_unitCapacity`, `has_growthFloor`, `fitsIn_unitRule`,
`fitsIn_growthBranchRule`.
-/
import EnergyPlan.Proofs.Fit.Basic
import Mathlib.Data.List.Nodup

set_option linter.unusedSectionVars false

namespace EnergyPlan.ConstraintRule

open Noted LinearExpression Context

variable {R : Type} [Zero R] [LT R] [DecidableLT R] {ctx : Context R}

/-- There is an indicator where growth has a rate, a floor and a year before. -/
theorem has_growthFloor {region : String} (hr : region ∈ ctx.sets.regions)
    {technology : Technology R} (ht : technology ∈ ctx.model.technologies) {year : String}
    (hy : year ∈ ctx.sets.years) {rate floor : R} {previous : Int}
    (hrate : technology.maxGrowthRate.find? [region] = some rate)
    (hfloor : technology.maxGrowthFloor.find? [region] = some floor)
    (hp : ctx.previousYear year = some previous) :
    ctx.Has .growthFloor [region, technology.id, year] := by
  refine VariableGroup.mem_technologyKeys.2 ⟨region, hr, technology, ht, year, hy, ?_, rfl⟩
  show ((technology.maxGrowthRate.find? [region]).isSome &&
    (technology.maxGrowthFloor.find? [region]).isSome && (ctx.previousYear year).isSome) = true
  rw [hrate, hfloor, hp]
  rfl

variable [One R] (hc : ctx.Sound)

include hc

/-- Where there are units, their size is given: units come with a size above zero. -/
theorem isSome_unitCapacity (irrefl : ¬ (0 : R) < 0) {region year : String}
    {technology : Technology R} (ht : technology ∈ ctx.model.technologies)
    (h : ctx.Has .newUnits [region, technology.id, year]) :
    (technology.unitCapacity.find? [region, year]).isSome := by
  obtain ⟨region', -, technology', ht', year', -, hp, hk⟩ := VariableGroup.mem_technologyKeys.1 h
  simp only [List.cons.injEq, and_true] at hk
  obtain ⟨rfl, hid, rfl⟩ := hk
  obtain rfl : technology = technology' :=
    List.inj_on_of_nodup_map hc.distinct.technologies ht ht' hid
  have hpos : 0 < (technology.unitCapacity.find? [region, year]).getD 0 := of_decide_eq_true hp
  cases hf : technology.unitCapacity.find? [region, year] with
  | some size => rfl
  | none => exact absurd (by rw [hf] at hpos; exact hpos) irrefl

variable [Add R] [Sub R] [Mul R] [Neg R] [BEq R]

theorem fitsIn_capacityRule : (capacityRule : ConstraintRule R).FitsIn ctx := by
  refine yields_perTechnologyYear fun region hr technology ht year hy => ?_
  have hs := hc.shaped.technologies technology ht
  refine (Tensor.yields_lookup hs.capacityActivityRatio rfl).bind fun ratio _ => ?_
  refine (hc.yields_grossCapacity hr ht).bind fun gross hgross => .each fun timeslice hl => ?_
  refine (Tensor.yields_lookup hs.capacityFactor rfl).bind fun factor _ => ?_
  exact (hc.yields_totalRate hr hy ht hl).bind fun rate hrate =>
    yields_pure (fits_of rfl (hrate.addScaled hgross _))

theorem fitsIn_unitRule (irrefl : ¬ (0 : R) < 0) : (unitRule : ConstraintRule R).FitsIn ctx := by
  refine yields_perTechnologyYear fun region hr technology ht year hy => ?_
  have hs := hc.shaped.technologies technology ht
  refine (hc.yields_has rfl).bind fun there hthere => .ite (fun h => ?_)
    fun _ => yields_pure (List.forall_mem_nil _)
  refine (hc.yields_term (has_newCapacity hr hy ht)).bind fun capacity hcapacity => ?_
  refine (Tensor.yields_require hs.unitCapacity rfl
    (isSome_unitCapacity hc irrefl ht (hthere.1 h))).bind fun size _ => ?_
  refine (hc.yields_term (hthere.1 h)).bind fun units hunits =>
    yields_pure (List.forall_mem_singleton.2 (fits_of rfl (over_ofTerms ?_)))
  exact List.forall_mem_append.2 ⟨hcapacity, hunits⟩

theorem fitsIn_maintenanceRule : (maintenanceRule : ConstraintRule R).FitsIn ctx := by
  refine yields_perTechnologyYear fun region hr technology ht year hy => ?_
  have hs := hc.shaped.technologies technology ht
  refine (Tensor.yields_lookup hs.capacityActivityRatio rfl).bind fun ratio _ => ?_
  refine (hc.yields_grossCapacity hr ht).bind fun gross hgross => ?_
  have havailable : (availableShare ctx region technology year).Yields fun _ => True := by
    refine .foldlM trivial fun available _ timeslice _ => ?_
    exact (Tensor.yields_lookup hs.capacityFactor rfl).bind fun factor _ =>
      hc.yields_yearSplit.bind fun split _ => yields_pure trivial
  refine havailable.bind fun available _ => ?_
  refine (Tensor.yields_lookup hs.availabilityFactor rfl).bind fun availability _ => ?_
  exact (hc.yields_annualActivity hr hy ht).bind fun annual hannual =>
    yields_pure (List.forall_mem_singleton.2 (fits_of rfl (hannual.addScaled hgross _)))

/-- A bound on new capacity fits if it is given over regions and years. -/
theorem fitsIn_newCapacityRule {name : String} {bounds : Technology R → Tensor R}
    {relation : Relation}
    (hb : ∀ technology ∈ ctx.model.technologies,
      (bounds technology).dimensions = [.region, .year]) :
    (newCapacityRule name bounds relation).FitsIn ctx := by
  refine yields_perTechnologyYear fun region hr technology ht year hy => ?_
  refine (hc.yields_term (has_newCapacity hr hy ht)).bind fun added hadded => ?_
  exact (Tensor.yields_lookup? (hb technology ht) rfl).bind fun bound _ =>
    yields_pure (fits_boundBy rfl (over_ofTerms hadded))

/-- A bound on the capacity in service fits if it is given over regions and years. -/
theorem fitsIn_grossCapacityRule {name : String} {bounds : Technology R → Tensor R}
    {relation : Relation}
    (hb : ∀ technology ∈ ctx.model.technologies,
      (bounds technology).dimensions = [.region, .year]) :
    (grossCapacityRule name bounds relation).FitsIn ctx := by
  refine yields_perTechnologyYear fun region hr technology ht year hy => ?_
  refine (Tensor.yields_lookup? (hb technology ht) rfl).bind fun bound _ => ?_
  cases bound with
  | none => exact yields_pure (List.forall_mem_nil _)
  | some bound =>
    exact (hc.yields_grossCapacity hr ht).bind fun gross hgross =>
      yields_pure (List.forall_mem_singleton.2 (fits_of rfl hgross))

/-! ### Growth -/

theorem yields_growth {region : String} (hr : region ∈ ctx.sets.regions)
    {technology : Technology R} (ht : technology ∈ ctx.model.technologies) {year : String}
    (hy : year ∈ ctx.sets.years) {previous : Int} {rate : R} :
    (growth ctx region technology year previous rate).Yields (Over ctx.Known) :=
  (hc.yields_term (has_newCapacity hr hy ht)).bind fun _ hadded =>
    (hc.yields_grossCapacity hr ht).bind fun _ hearlier =>
      yields_pure ((over_ofTerms hadded).addScaled hearlier _)

theorem fitsIn_maxGrowthRule : (maxGrowthRule : ConstraintRule R).FitsIn ctx := by
  refine yields_perLaterYear fun region hr technology ht year hy previous _ => ?_
  have hs := hc.shaped.technologies technology ht
  refine (Tensor.yields_lookup? hs.maxGrowthRate rfl).bind fun rate _ => ?_
  refine (Tensor.yields_lookup? hs.maxGrowthFloor rfl).bind fun floor _ => ?_
  split
  · exact (yields_growth hc hr ht hy).bind fun grown hgrown =>
      yields_pure (List.forall_mem_singleton.2 (fits_of rfl hgrown))
  · exact yields_pure (List.forall_mem_nil _)

theorem fitsIn_growthBranchRule : (growthBranchRule : ConstraintRule R).FitsIn ctx := by
  refine yields_perLaterYear fun region hr technology ht year hy previous hp => ?_
  have hs := hc.shaped.technologies technology ht
  refine (Tensor.yields_lookup? hs.maxGrowthRate rfl).bind fun rate hrate => ?_
  refine (Tensor.yields_lookup? hs.maxGrowthFloor rfl).bind fun floor hfloor => ?_
  split
  · refine (yields_growth hc hr ht hy).bind fun grown hgrown => ?_
    have hkey := has_growthFloor hr ht hy hrate.symm hfloor.symm hp
    exact (hc.yields_term hkey).bind fun selector hselector =>
      yields_pure (List.forall_mem_singleton.2 (fits_of rfl (hgrown.addTerms hselector)))
  · exact yields_pure (List.forall_mem_nil _)

theorem fitsIn_floorBranchRule : (floorBranchRule : ConstraintRule R).FitsIn ctx := by
  refine yields_perLaterYear fun region hr technology ht year hy previous hp => ?_
  have hs := hc.shaped.technologies technology ht
  refine (Tensor.yields_lookup? hs.maxGrowthRate rfl).bind fun rate hrate => ?_
  refine (Tensor.yields_lookup? hs.maxGrowthFloor rfl).bind fun floor hfloor => ?_
  split
  · refine (hc.yields_term (has_newCapacity hr hy ht)).bind fun added hadded => ?_
    have hkey := has_growthFloor hr ht hy hrate.symm hfloor.symm hp
    exact (hc.yields_term hkey).bind fun selector hselector =>
      yields_pure (List.forall_mem_singleton.2 (fits_of rfl
        (over_ofTerms (List.forall_mem_append.2 ⟨hadded, hselector⟩))))
  · exact yields_pure (List.forall_mem_nil _)

theorem fitsIn_minGrowthRule : (minGrowthRule : ConstraintRule R).FitsIn ctx := by
  refine yields_perLaterYear fun region hr technology ht year hy previous _ => ?_
  have hs := hc.shaped.technologies technology ht
  refine (Tensor.yields_lookup? hs.minGrowthRate rfl).bind fun rate _ => ?_
  cases rate with
  | none => exact yields_pure (List.forall_mem_nil _)
  | some rate =>
    exact (yields_growth hc hr ht hy).bind fun grown hgrown =>
      yields_pure (List.forall_mem_singleton.2 (fits_of rfl hgrown))

end EnergyPlan.ConstraintRule
