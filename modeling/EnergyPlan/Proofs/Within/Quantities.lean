/-
# Quantities ask fields with defaults under keys over the sets

In the context of the part of a model over its sets every quantity is the one of the whole
model. A capacity in service asks for the life of a technology in its region and for what is
left in the year; trade asks for losses on routes that have a variable; all else goes by ids,
ratios and variables, which the part keeps.

Key theorems: `Inside.grossCapacity_eq`, `production_within`, `Inside.netTrade_eq`,
`annualEmissions_within`, `Inside.grossTrade_eq`.
-/
import EnergyPlan.Proofs.Within.Basic

set_option linter.unusedSectionVars false

namespace EnergyPlan.Context

open Noted IndexSets

variable {R : Type} [Zero R] [One R] [Add R] [Sub R] [Mul R] [Div R] [Neg R] [BEq R]
  (ctx : Context R)

/-! ### Quantities without defaults -/

theorem totalRate_within (region timeslice : String) (technology : Technology R)
    (year : String) :
    ctx.within.totalRate region timeslice (technology.within ctx.sets) year =
      ctx.totalRate region timeslice technology year := by
  unfold totalRate
  exact congrArg _ (gather_map_congr technology.modes fun _ _ => rfl)

theorem commodityRate_within (flow : Flow) (region timeslice : String)
    (technology : Technology R) (commodity year : String) :
    ctx.within.commodityRate flow region timeslice (technology.within ctx.sets) commodity year =
      ctx.commodityRate flow region timeslice technology commodity year := by
  cases flow <;> exact congrArg _ (gather_map_congr technology.modes fun _ _ => rfl)

theorem annualActivity_within (region : String) (technology : Technology R) (year : String) :
    ctx.within.annualActivity region (technology.within ctx.sets) year =
      ctx.annualActivity region technology year :=
  bind_congr (each_map_congr technology.modes fun _ _ => rfl) fun _ => rfl

theorem totalCommodityRate_within (flow : Flow) (region timeslice commodity year : String) :
    ctx.within.totalCommodityRate flow region timeslice commodity year =
      ctx.totalCommodityRate flow region timeslice commodity year := by
  refine bind_congr (each_map_congr ctx.model.technologies fun technology _ => ?_) fun _ => rfl
  exact ctx.commodityRate_within flow region timeslice technology commodity year

theorem production_within (region timeslice commodity year : String) :
    ctx.within.production region timeslice commodity year =
      ctx.production region timeslice commodity year :=
  bind_congr (ctx.totalCommodityRate_within ..) fun _ => rfl

theorem use_within (region timeslice commodity year : String) :
    ctx.within.use region timeslice commodity year =
      ctx.use region timeslice commodity year :=
  bind_congr (ctx.totalCommodityRate_within ..) fun _ => rfl

theorem annualEmissions_within (region impact year : String) :
    ctx.within.annualEmissions region impact year = ctx.annualEmissions region impact year := by
  refine bind_congr (gather_map_congr ctx.model.technologies fun technology _ => ?_)
    fun _ => rfl
  exact gather_map_congr technology.modes fun _ _ => rfl

/-! ### Quantities with defaults -/

namespace Inside

variable {ctx} (hc : ctx.Inside) {region year : String} (hr : region ∈ ctx.sets.regions)
  (hy : year ∈ ctx.sets.years)

include hc hr hy

theorem grossCapacity_eq {technology : Technology R} (ht : technology ∈ ctx.model.technologies) :
    ctx.within.grossCapacity region (technology.within ctx.sets) year =
      ctx.grossCapacity region technology year := by
  have hs := hc.shaped.technologies technology ht
  refine bind_congr (Tensor.lookup_within _ hs.operatingLife (tuple_region hr) 1) fun life => ?_
  exact bind_congr (Tensor.lookup_within _ hs.residualCapacity (tuple_annual hr hy) 0)
    fun _ => rfl

theorem grossStorage_eq {storage : Storage R} (ho : storage ∈ ctx.model.storage) :
    ctx.within.grossStorage region (storage.within ctx.sets) year =
      ctx.grossStorage region storage year := by
  have hs := hc.shaped.storage storage ho
  refine bind_congr rfl fun life => ?_
  exact bind_congr (Tensor.lookup_within _ hs.residualCapacity (tuple_annual hr hy) 0)
    fun _ => rfl

theorem grossTrade_eq {destination : String} (hd : destination ∈ ctx.sets.regions)
    {trade : Trade R} (ht : trade ∈ ctx.model.trade) :
    ctx.within.grossTrade region destination (trade.within ctx.sets) year =
      ctx.grossTrade region destination trade year := by
  have hs := hc.shaped.trade trade ht
  refine bind_congr (Tensor.lookup_within _ hs.residualCapacity (tuple_routeYear hr hd hy) 0)
    fun residual => bind_congr (gather_congr fun built hb => ?_) fun _ => rfl
  refine bind_congr rfl fun there => ?_
  cases there
  · rfl
  · exact bind_congr (Tensor.lookup_within _ hs.operatingLife (tuple_routeYear hr hd hb) 1)
      fun _ => rfl

theorem netTrade_eq (timeslice commodity : String) :
    ctx.within.netTrade region timeslice commodity year =
      ctx.netTrade region timeslice commodity year := by
  have hfind : ctx.within.tradeFor commodity =
      (ctx.tradeFor commodity).map (·.within ctx.sets) := by
    show List.find? _ (ctx.model.trade.map _) = _
    rw [List.find?_map]
    rfl
  unfold netTrade
  rw [hfind]
  cases hf : ctx.tradeFor commodity with
  | none => rfl
  | some trade =>
    have hs := hc.shaped.trade trade (List.mem_of_find?_eq_some hf)
    refine bind_congr (gather_congr fun other ho => ?_) fun _ => rfl
    refine bind_congr rfl fun there => ?_
    cases there
    · rfl
    · exact bind_congr (Tensor.lookup_within _ hs.loss (tuple_routeYear hr ho hy) 0) fun _ => rfl

end Inside

end EnergyPlan.Context
