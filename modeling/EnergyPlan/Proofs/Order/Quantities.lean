/-
# Quantities do not depend on the order of entities

What is reckoned in a context stays what it is if the entities of its model are listed in
another order: the sets and variables are the same, a technology is asked for the same
numbers, and the terms over its modes and the parts over all technologies are summed up
exactly. Trades are told apart by what they carry, so the trade of a commodity is the same
one too.

Key definitions: `Context.withModel`.
Key theorems: `yearSplit_eq`, `grossCapacity_eq`, `value_totalRate`, `value_commodityRate`,
`value_production`, `netTrade_eq`, `value_annualEmissions`.
-/
import EnergyPlan.Program.Capacity
import EnergyPlan.Proofs.Order.Reordered
import EnergyPlan.Proofs.Order.Sums

namespace EnergyPlan

open Noted LinearExpression

/-- The elements that a test on distinct labels finds do not depend on the order. -/
theorem find?_perm {α : Type} {label : α → String} {as bs : List α} (h : as.Perm bs)
    (hn : (as.map label).Nodup) (s : String) :
    (as.find? fun a => label a == s) = bs.find? fun a => label a == s := by
  induction h with
  | nil => rfl
  | cons a _ ih =>
    rw [List.map_cons, List.nodup_cons] at hn
    rw [List.find?_cons, List.find?_cons, ih hn.2]
  | swap a b rest =>
    rw [List.map_cons, List.map_cons, List.nodup_cons, List.mem_cons, not_or] at hn
    simp only [List.find?_cons]
    cases ha : label a == s with
    | false => rfl
    | true =>
      have hb : (label b == s) = false := by
        rw [beq_eq_false_iff_ne, ← beq_iff_eq.1 ha]
        exact hn.1.1
      rw [hb]
  | trans h _ ih ih' => exact (ih hn).trans (ih' ((h.map label).nodup_iff.1 hn))

variable {R : Type}

/-- A context with another model in the place of its own. -/
def Context.withModel (ctx : Context R) (model : EnergyModel R) : Context R := { ctx with model }

/-! ### Quantities of a technology -/

namespace Technology.Reordered

variable {technology technology' : Technology R} (ht : technology.Reordered technology')
  (ctx : Context R) (other : EnergyModel R)

include ht

theorem grossCapacity_eq [Zero R] [One R] [Add R] [BEq R] (region year : String) :
    (ctx.withModel other).grossCapacity region technology' year =
      ctx.grossCapacity region technology year := by
  obtain ⟨modes, -, rfl⟩ := ht
  rfl

variable [AddCommMonoid R] [BEq R] [LawfulBEq R]

theorem value_totalRate [One R] (region timeslice year : String) :
    ((ctx.withModel other).totalRate region timeslice technology' year).value =
      (ctx.totalRate region timeslice technology year).value := by
  obtain ⟨modes, hperm, rfl⟩ := ht
  exact ofTerms_perm (perm_gather_right hperm.symm)

theorem value_commodityRate (flow : Flow) (region timeslice commodity year : String) :
    ((ctx.withModel other).commodityRate flow region timeslice technology' commodity
        year).value =
      (ctx.commodityRate flow region timeslice technology commodity year).value := by
  obtain ⟨modes, hperm, rfl⟩ := ht
  exact ofTerms_perm (perm_gather_right hperm.symm)

end Technology.Reordered

namespace EnergyModel.Reordered

variable {ctx : Context R} {other : EnergyModel R} (h : ctx.model.Reordered other)
  {technology technology' : Technology R}

include h

theorem yearSplit_eq [Zero R] (timeslice year : String) :
    (ctx.withModel other).yearSplit timeslice year = ctx.yearSplit timeslice year := by
  simp only [Context.yearSplit, Context.withModel, h.time]

theorem previousYear_eq (year : String) :
    (ctx.withModel other).previousYear year = ctx.previousYear year := by
  simp only [Context.previousYear, Context.withModel, h.time]

/-- Trades of distinct commodities are found by them. -/
theorem tradeFor_eq (hn : (ctx.model.trade.map (·.commodity)).Nodup) (commodity : String) :
    (ctx.withModel other).tradeFor commodity = ctx.tradeFor commodity :=
  (find?_perm h.trade hn commodity).symm

theorem netTrade_eq [Zero R] [One R] [Add R] [BEq R] [Sub R] [Div R] [Neg R]
    (hn : (ctx.model.trade.map (·.commodity)).Nodup) (region timeslice commodity year : String) :
    (ctx.withModel other).netTrade region timeslice commodity year =
      ctx.netTrade region timeslice commodity year := by
  unfold Context.netTrade
  rw [h.tradeFor_eq hn]
  rfl

theorem modeActivity_eq [Zero R] [Add R] [BEq R] (ht : technology.Reordered technology')
    (region year : String) (mode : OperatingMode R) :
    (ctx.withModel other).modeActivity region technology' mode year =
      ctx.modeActivity region technology mode year := by
  obtain ⟨modes, -, rfl⟩ := ht
  simp only [Context.modeActivity, h.yearSplit_eq]
  rfl

/-! ### Quantities over all modes and technologies -/

variable [AddCommMonoid R] [BEq R] [LawfulBEq R] [One R] [Mul R]

theorem value_annualActivity (ht : technology.Reordered technology') (region year : String) :
    ((ctx.withModel other).annualActivity region technology' year).value =
      (ctx.annualActivity region technology year).value := by
  have hactivity := h.modeActivity_eq ht region year
  obtain ⟨modes, hperm, rfl⟩ := ht
  refine sum_perm (List.Perm.map _ (perm_each (.of_perm hperm.symm) fun mode mode' he => ?_))
  rw [hactivity, he]

theorem value_totalCommodityRate (flow : Flow) (region timeslice commodity year : String) :
    ((ctx.withModel other).totalCommodityRate flow region timeslice commodity year).value =
      (ctx.totalCommodityRate flow region timeslice commodity year).value := by
  refine sum_perm (List.Perm.map _ (perm_each h.technologies ?_)).symm
  intro technology technology' ht
  exact (ht.value_commodityRate ctx other flow region timeslice commodity year).symm

theorem value_production (region timeslice commodity year : String) :
    ((ctx.withModel other).production region timeslice commodity year).value =
      (ctx.production region timeslice commodity year).value := by
  simp only [Context.production, value_bind, value_pure, h.value_totalCommodityRate,
    h.yearSplit_eq]

theorem value_use (region timeslice commodity year : String) :
    ((ctx.withModel other).use region timeslice commodity year).value =
      (ctx.use region timeslice commodity year).value := by
  simp only [Context.use, value_bind, value_pure, h.value_totalCommodityRate, h.yearSplit_eq]

omit [One R] in
theorem value_annualEmissions (region impact year : String) :
    ((ctx.withModel other).annualEmissions region impact year).value =
      (ctx.annualEmissions region impact year).value := by
  refine sum_perm (perm_gather h.technologies fun technology technology' ht => ?_).symm
  have hactivity := h.modeActivity_eq ht region year
  obtain ⟨modes, hperm, rfl⟩ := ht
  refine perm_gather (.of_perm hperm) fun mode mode' he => ?_
  rw [he, hactivity]

end EnergyModel.Reordered

end EnergyPlan
