/-
# Constraints on activity, emissions and the balance of energy fit

Bounds, emissions and balances are over the regions, technologies, years and timeslices
of the model, and so are all their variables.

Key theorems: `fitsIn_annualActivityRule`, `fitsIn_emissionRule`, `fitsIn_balanceRule`.
-/
import EnergyPlan.Proofs.Fit.Basic

set_option linter.unusedSectionVars false

namespace EnergyPlan.ConstraintRule

open Noted LinearExpression Context

variable {R : Type} [Zero R] [One R] [LT R] [DecidableLT R] {ctx : Context R} (hc : ctx.Sound)

include hc

theorem yields_yearlyDemand {region : String} {commodity : Commodity R}
    (hm : commodity ∈ ctx.model.commodities) {year : String} :
    (yearlyDemand ctx region commodity year).Yields fun _ => True := by
  have hs := hc.shaped.commodities commodity hm
  refine (Tensor.yields_lookup? hs.demandAnnual rfl).bind fun demand _ => ?_
  refine (Yields.each (P := fun _ => True) fun timeslice _ => ?_).bind
    fun profiled _ => yields_pure trivial
  exact (Tensor.yields_has hs.demandProfile rfl).mono fun _ _ => trivial

variable [Add R] [Sub R] [Mul R] [Neg R] [BEq R]

/-! ### Activity -/

/-- A bound on the activity of a year fits if it is given over regions and years. -/
theorem fitsIn_annualActivityRule {name : String} {bounds : Technology R → Tensor R}
    {relation : Relation}
    (hb : ∀ technology ∈ ctx.model.technologies,
      (bounds technology).dimensions = [.region, .year]) :
    (annualActivityRule name bounds relation).FitsIn ctx := by
  refine yields_perTechnologyYear fun region hr technology ht year hy => ?_
  refine (Tensor.yields_lookup? (hb technology ht) rfl).bind fun bound _ => ?_
  cases bound with
  | none => exact yields_pure (List.forall_mem_nil _)
  | some bound =>
    exact (hc.yields_annualActivity hr hy ht).bind fun annual hannual =>
      yields_pure (List.forall_mem_singleton.2 (fits_of rfl hannual))

theorem fitsIn_leastUseRule : (leastUseRule : ConstraintRule R).FitsIn ctx := by
  refine yields_perTechnologyYear fun region hr technology ht year hy => ?_
  have hs := hc.shaped.technologies technology ht
  refine (Tensor.yields_lookup? hs.capacityFactorMin rfl).bind fun factor _ => ?_
  cases factor with
  | none => exact yields_pure (List.forall_mem_nil _)
  | some factor =>
    refine (hc.yields_annualActivity hr hy ht).bind fun annual hannual => ?_
    refine (hc.yields_grossCapacity hr ht).bind fun gross hgross => ?_
    exact (Tensor.yields_lookup hs.capacityActivityRatio rfl).bind fun ratio _ =>
      yields_pure (List.forall_mem_singleton.2 (fits_of rfl (hannual.addScaled hgross _)))

/-- A bound on the activity of all years fits if it is given over regions. -/
theorem fitsIn_totalActivityRule {name : String} {bounds : Technology R → Tensor R}
    {relation : Relation}
    (hb : ∀ technology ∈ ctx.model.technologies, (bounds technology).dimensions = [.region]) :
    (totalActivityRule name bounds relation).FitsIn ctx := by
  refine .gather fun region hr => .gather fun technology ht => ?_
  refine (Tensor.yields_lookup? (hb technology ht) rfl).bind fun bound _ => ?_
  cases bound with
  | none => exact yields_pure (List.forall_mem_nil _)
  | some bound =>
    refine (Yields.each fun year hy => hc.yields_annualActivity hr hy ht).bind
      fun annual hannual =>
        yields_pure (List.forall_mem_singleton.2 (fits_of rfl (over_sum fun p hp => ?_)))
    obtain ⟨e, he, rfl⟩ := List.mem_map.1 hp
    exact hannual e he

/-! ### Emissions -/

theorem fitsIn_emissionRule : (emissionRule : ConstraintRule R).FitsIn ctx := by
  refine .gather fun region hr => .gather fun impact hi => .gather fun year hy => ?_
  have hs := hc.shaped.impacts impact hi
  refine (Tensor.yields_lookup? hs.limitAnnual rfl).bind fun limit _ => ?_
  cases limit with
  | none => exact yields_pure (List.forall_mem_nil _)
  | some limit =>
    refine (hc.yields_annualEmissions hr hy).bind fun emissions hemissions => ?_
    exact (Tensor.yields_lookup hs.exogenousAnnual rfl).bind fun exogenous _ =>
      yields_pure (List.forall_mem_singleton.2 (fits_of rfl hemissions))

theorem fitsIn_totalEmissionRule : (totalEmissionRule : ConstraintRule R).FitsIn ctx := by
  refine .gather fun region hr => .gather fun impact hi => ?_
  have hs := hc.shaped.impacts impact hi
  refine (Tensor.yields_lookup? hs.limitTotal rfl).bind fun limit _ => ?_
  cases limit with
  | none => exact yields_pure (List.forall_mem_nil _)
  | some limit =>
    refine (Yields.each fun year hy => hc.yields_annualEmissions hr hy).bind
      fun emissions hemissions => ?_
    refine (Tensor.yields_lookup hs.exogenousTotal rfl).bind fun exogenous _ =>
      yields_pure (List.forall_mem_singleton.2 (fits_of rfl (over_sum fun p hp => ?_)))
    obtain ⟨e, he, rfl⟩ := List.mem_map.1 hp
    exact hemissions e he

/-! ### Energy balance -/

theorem yields_balanceParts [Div R] {region timeslice commodity year : String}
    (hr : region ∈ ctx.sets.regions) (hy : year ∈ ctx.sets.years)
    (hl : timeslice ∈ ctx.sets.timeslices) :
    (balanceParts ctx region timeslice commodity year).Yields
      fun parts => ∀ p ∈ parts, p.1.Over ctx.Known := by
  refine (hc.yields_production hr hy hl).bind fun production hproduction => ?_
  refine (hc.yields_use hr hy hl).bind fun use huse => ?_
  refine hc.yields_netTrade.bind fun trade htrade => yields_pure ?_
  exact List.forall_mem_cons.2
    ⟨hproduction, List.forall_mem_cons.2 ⟨huse, List.forall_mem_singleton.2 htrade⟩⟩

theorem fitsIn_balanceRule [Div R] : (balanceRule : ConstraintRule R).FitsIn ctx := by
  refine yields_perCommodityYear fun region hr commodity hm year hy => ?_
  have hs := hc.shaped.commodities commodity hm
  refine (yields_yearlyDemand hc hm).bind fun yearly _ => .ite
    (fun _ => yields_pure (List.forall_mem_nil _)) fun _ => ?_
  refine (Tensor.yields_lookup? hs.demandAnnual rfl).bind fun demand _ => ?_
  refine .each fun timeslice hl => ?_
  refine (yields_balanceParts hc hr hy hl).bind fun balance hbalance => ?_
  exact (Tensor.yields_lookup hs.demandProfile rfl).bind fun share _ =>
    yields_pure (fits_of rfl (over_sum hbalance))

theorem fitsIn_annualBalanceRule [Div R] :
    (annualBalanceRule : ConstraintRule R).FitsIn ctx := by
  refine yields_perCommodityYear fun region hr commodity hm year hy => ?_
  refine (yields_yearlyDemand hc hm).bind fun yearly _ => ?_
  cases yearly with
  | none => exact yields_pure (List.forall_mem_nil _)
  | some demand =>
    exact (Yields.gather fun timeslice hl => yields_balanceParts hc hr hy hl).bind
      fun balance hbalance =>
        yields_pure (List.forall_mem_singleton.2 (fits_of rfl (over_sum hbalance)))

end EnergyPlan.ConstraintRule
