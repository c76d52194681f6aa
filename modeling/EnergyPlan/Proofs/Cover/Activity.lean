/-
# Where the constraints on activity, emissions and the balance of energy are

Bounds hold exactly where they are given. For each region, commodity and year there is one
of two: a balance over the year, if an annual demand is given there and no timeslice has a
profile, or else a balance in each timeslice.

Key definitions: `Context.BalancedYearly`.
Key theorems: `covers_annualActivityRule`, `covers_emissionRule`,
`isSome_yearlyDemand_iff`, `covers_balanceRule`, `covers_annualBalanceRule`.
-/
import EnergyPlan.Proofs.Cover.Basic
import EnergyPlan.Program.Activity

set_option linter.unusedSectionVars false

namespace EnergyPlan

open Noted Context

variable {R : Type} [Zero R] [One R] [LT R] [DecidableLT R] {ctx : Context R}

/-- A commodity has an annual demand in a region and a year, and no profile there. -/
def Context.BalancedYearly (ctx : Context R) (region : String) (commodity : Commodity R)
    (year : String) : Prop :=
  (commodity.demandAnnual.find? [region, year]).isSome = true ∧
    ∀ timeslice ∈ ctx.sets.timeslices,
      commodity.demandProfile.find? [region, year, timeslice] = none

theorem isSome_yearlyDemand_iff {region : String} {commodity : Commodity R} {year : String} :
    (yearlyDemand ctx region commodity year).value.isSome = true ↔
      ctx.BalancedYearly region commodity year := by
  have hvalue : (yearlyDemand ctx region commodity year).value =
      if (ctx.sets.timeslices.map fun timeslice =>
          (commodity.demandProfile.find? [region, year, timeslice]).isSome).any id
        then none else commodity.demandAnnual.find? [region, year] := by
    rw [yearlyDemand, value_bind, value_bind, value_each]
    rfl
  rw [hvalue, BalancedYearly]
  by_cases h : (ctx.sets.timeslices.map fun timeslice =>
      (commodity.demandProfile.find? [region, year, timeslice]).isSome).any id = true
  · rw [if_pos h]
    refine iff_of_false (by simp) fun hb => ?_
    obtain ⟨b, hm, hb'⟩ := List.any_eq_true.1 h
    obtain ⟨timeslice, hl, rfl⟩ := List.mem_map.1 hm
    rw [hb.2 timeslice hl] at hb'
    cases hb'
  · rw [if_neg h]
    refine (and_iff_left fun timeslice hl => ?_).symm
    rw [← Option.not_isSome_iff_eq_none]
    exact fun hs => h (List.any_eq_true.2 ⟨_, List.mem_map_of_mem hl, hs⟩)

namespace ConstraintRule

variable (hc : ctx.Orderly)

include hc

variable [Add R] [Sub R] [Mul R] [Neg R] [BEq R]

theorem covers_annualActivityRule {name : String} {bounds : Technology R → Tensor R}
    {relation : Relation} : Covers ((annualActivityRule name bounds relation).constraints ctx)
    (ctx.technologyYears fun region technology year =>
      ((bounds technology).find? [region, year]).isSome = true) := by
  refine hc.covers_technologyYears fun region _ technology _ year _ => ?_
  exact covers_lookup? rfl fun _ => covers_one rfl rfl

theorem covers_leastUseRule : Covers ((leastUseRule : ConstraintRule R).constraints ctx)
    (ctx.technologyYears fun region technology year =>
      (technology.capacityFactorMin.find? [region, year]).isSome = true) := by
  refine hc.covers_technologyYears fun region _ technology _ year _ => ?_
  exact covers_lookup? rfl fun _ => covers_one rfl rfl

theorem covers_totalActivityRule {name : String} {bounds : Technology R → Tensor R}
    {relation : Relation} : Covers ((totalActivityRule name bounds relation).constraints ctx)
    fun i => ∃ region ∈ ctx.sets.regions, ∃ technology ∈ ctx.model.technologies,
      ((bounds technology).find? [region]).isSome = true ∧ i = [region, technology.id] := by
  refine covers_loops₂ (labelAt 0) (labelAt 1) hc.map_regions hc.distinct.technologies
    (fun region _ technology _ => ?_) ?_
  · exact covers_lookup? rfl fun _ => covers_one rfl rfl
  · rintro region technology i ⟨-, rfl⟩
    exact ⟨rfl, rfl⟩

/-! ### Emissions -/

theorem covers_emissionRule : Covers ((emissionRule : ConstraintRule R).constraints ctx)
    fun i => ∃ region ∈ ctx.sets.regions, ∃ impact ∈ ctx.model.impacts,
      ∃ year ∈ ctx.sets.years, (impact.limitAnnual.find? [region, year]).isSome = true ∧
        i = [region, impact.id, year] := by
  refine covers_loops₃ (labelAt 0) (labelAt 1) lastLabel hc.map_regions hc.distinct.impacts
    hc.map_years (fun region _ impact _ year _ => ?_) ?_
  · exact covers_lookup? rfl fun _ => covers_one rfl rfl
  · rintro region impact year i ⟨-, rfl⟩
    exact ⟨rfl, rfl, rfl⟩

theorem covers_totalEmissionRule :
    Covers ((totalEmissionRule : ConstraintRule R).constraints ctx)
    fun i => ∃ region ∈ ctx.sets.regions, ∃ impact ∈ ctx.model.impacts,
      (impact.limitTotal.find? [region]).isSome = true ∧ i = [region, impact.id] := by
  refine covers_loops₂ (labelAt 0) (labelAt 1) hc.map_regions hc.distinct.impacts
    (fun region _ impact _ => ?_) ?_
  · exact covers_lookup? rfl fun _ => covers_one rfl rfl
  · rintro region impact i ⟨-, rfl⟩
    exact ⟨rfl, rfl⟩

/-! ### Energy balance -/

variable [Div R]

theorem covers_balanceRule : Covers ((balanceRule : ConstraintRule R).constraints ctx)
    fun i => ∃ region ∈ ctx.sets.regions, ∃ commodity ∈ ctx.model.commodities,
      ∃ year ∈ ctx.sets.years, ¬ ctx.BalancedYearly region commodity year ∧
        ∃ timeslice ∈ ctx.sets.timeslices, i = [region, timeslice, commodity.id, year] := by
  refine hc.covers_perCommodityYear 2 (fun region _ commodity _ year _ => ?_) ?_
  · rw [← isSome_yearlyDemand_iff]
    refine covers_bind (covers_unless rfl (covers_bind ?_))
    exact hc.covers_timeslices 1 (fun _ => rfl) fun _ => rfl
  · rintro region commodity year i ⟨-, timeslice, -, rfl⟩
    exact ⟨rfl, rfl, rfl⟩

theorem covers_annualBalanceRule :
    Covers ((annualBalanceRule : ConstraintRule R).constraints ctx)
    fun i => ∃ region ∈ ctx.sets.regions, ∃ commodity ∈ ctx.model.commodities,
      ∃ year ∈ ctx.sets.years, ctx.BalancedYearly region commodity year ∧
        i = [region, commodity.id, year] := by
  refine hc.covers_perCommodityYear 1 (fun region _ commodity _ year _ => ?_) ?_
  · rw [← isSome_yearlyDemand_iff]
    exact covers_option rfl fun _ => covers_one rfl rfl
  · rintro region commodity year i ⟨-, rfl⟩
    exact ⟨rfl, rfl, rfl⟩

end ConstraintRule

end EnergyPlan
