/-
# Trade is conserved

There is an export for each timeslice of each year in which a route is open, and no other. It
leaves the balance of one region and enters that of another: at its origin it counts with what
is lost on the way on top, at its destination with what arrives. A region balances a commodity
over the year or in each timeslice, so the two balances may be of different kinds; no third
balance names the export.

Key definitions: `Trade.lossOn`, `Trade.exchange`, `Context.balanceSite`,
`Problem.constraintAt`, `Problem.Conserves`.
Key theorems: `coefficient_netTrade`, `coefficient_balance`, `compile_conserves`.
-/
import EnergyPlan.Proofs.Coefficients
import EnergyPlan.Proofs.Compiled

set_option linter.unusedSectionVars false

namespace EnergyPlan

open Noted LinearExpression Context Config

/-- The families of the balances of energy. -/
def balanceFamilies : List String := ["EBa11_EnergyBalanceEachTS5", "EBb4_EnergyBalanceEachYear"]

/-- A variable of a problem enters two of the balances: at one site it takes an amount away, at
another one it adds one unit. -/
structure Problem.Conserves {R : Type} [Zero R] [One R] [Neg R] [LT R] (problem : Problem R)
    (v : VariableRef) (origin destination : String × Key) (amount : R) : Prop where
  has : problem.Has v
  families : origin.1 ∈ balanceFamilies ∧ destination.1 ∈ balanceFamilies
  apart : origin ≠ destination
  positive : 0 < amount
  leaves : ∃ c, problem.constraintAt origin = some c ∧ c.lhs.coefficient v = -amount
  enters : ∃ c, problem.constraintAt destination = some c ∧ c.lhs.coefficient v = 1
  elsewhere : ∀ site c, site.1 ∈ balanceFamilies → problem.constraintAt site = some c →
    c.lhs.coefficient v ≠ 0 → site = origin ∨ site = destination

/-- What is lost on a route in a year; nothing where the trade does not say. -/
def Trade.lossOn {R : Type} [Zero R] (trade : Trade R) (origin destination year : String) : R :=
  (trade.loss.find? [origin, destination, year]).getD 0

variable {R : Type} [Field R] [LinearOrder R] [BEq R] [LawfulBEq R] {ctx : Context R}

/-! ### Production and use -/

section

variable (hc : ctx.Sound) {w : VariableRef} (hw : w.family ≠ VariableGroup.activity.name)
  (flow : Flow) (region timeslice commodity year : String)

include hc hw

/-- What technologies take and give is reckoned in activities. -/
theorem coefficient_commodityRate (technology : Technology R) :
    (ctx.commodityRate flow region timeslice technology commodity year).value.coefficient w =
      0 := by
  unfold commodityRate
  show (ofTerms (gather _ technology.modes).value).coefficient w = 0
  rw [coefficient_ofTerms]
  apply amount_eq_zero
  intro t ht
  obtain ⟨mode, -, ht⟩ := mem_value_gather.1 ht
  dsimp only at ht
  rw [value_bind] at ht
  generalize (Tensor.lookup _ _ _).value = ratio at ht
  split at ht
  · cases ht
  · rw [hc.value_term, List.mem_singleton] at ht
    rw [ht]
    exact fun h => hw (congrArg VariableRef.family h).symm

theorem coefficient_totalCommodityRate :
    (ctx.totalCommodityRate flow region timeslice commodity year).value.coefficient w = 0 := by
  unfold totalCommodityRate
  rw [value_bind, value_each, value_pure, coefficient_sum, List.map_map, List.map_map]
  apply List.sum_eq_zero
  intro x hx
  obtain ⟨technology, -, rfl⟩ := List.mem_map.1 hx
  show (ctx.commodityRate flow region timeslice technology commodity
    year).value.coefficient w * 1 = 0
  rw [coefficient_commodityRate hc hw, zero_mul]

theorem coefficient_production :
    (ctx.production region timeslice commodity year).value.coefficient w = 0 := by
  unfold production
  rw [value_bind, value_bind, value_pure, coefficient_scaled,
    coefficient_totalCommodityRate hc hw, zero_mul]

theorem coefficient_use :
    (ctx.use region timeslice commodity year).value.coefficient w = 0 := by
  unfold use
  rw [value_bind, value_bind, value_pure, coefficient_scaled,
    coefficient_totalCommodityRate hc hw, zero_mul]

/-- In a balance a variable that is no activity counts as it does in what leaves by trade, with
the sign turned. -/
theorem coefficient_balanceParts :
    ((balanceParts ctx region timeslice commodity year).value.map fun p =>
      p.1.coefficient w * p.2).sum =
        -(ctx.netTrade region timeslice commodity year).value.coefficient w := by
  unfold balanceParts
  rw [value_bind, value_bind, value_bind, value_pure, List.map_cons, List.map_cons,
    List.map_singleton, List.sum_cons, List.sum_cons, List.sum_singleton,
    coefficient_production hc hw, coefficient_use hc hw, zero_mul, zero_mul, zero_add, zero_add,
    mul_neg_one]

end

/-! ### What a region sends and receives -/

/-- The terms of the net trade of a region that come from another region. -/
def Context.tradeTerms (ctx : Context R) (trade : Trade R)
    (region timeslice commodity year other : String) : List (VariableRef × R) :=
  (if (ctx.has .exports [region, other, timeslice, commodity, year]).value then
    [(⟨VariableGroup.exports.name, [region, other, timeslice, commodity, year]⟩,
      1 / (1 - trade.lossOn region other year))]
  else []) ++
  if (ctx.has .exports [other, region, timeslice, commodity, year]).value then
    [(⟨VariableGroup.exports.name, [other, region, timeslice, commodity, year]⟩, -1)]
  else []

section

variable (hc : ctx.Sound)

include hc

/-- Of the terms on exports that there are, one counts for an export that there is. -/
theorem amount_exports {asked key : Key} (hk : ctx.Has .exports asked) (hl : key.length = 5)
    (x : R) : amount ⟨VariableGroup.exports.name, asked⟩
      (if (ctx.has .exports key).value then [(⟨VariableGroup.exports.name, key⟩, x)] else []) =
        if key = asked then x else 0 := by
  by_cases h : key = asked
  · have hthere : (ctx.has .exports key).value = true := (hc.yields_has hl).2.2 (h ▸ hk)
    rw [if_pos hthere, if_pos h, amount_cons, amount_nil, add_zero, h, if_pos rfl]
  · rw [if_neg h]
    apply amount_eq_zero
    intro t ht
    split at ht
    · rw [List.mem_singleton.1 ht]
      exact fun he => h (congrArg VariableRef.key he)
    · cases ht

theorem amount_tradeTerms {asked : Key} (hk : ctx.Has .exports asked) (trade : Trade R)
    (region timeslice commodity year other : String) :
    amount ⟨VariableGroup.exports.name, asked⟩
        (ctx.tradeTerms trade region timeslice commodity year other) =
      (if [region, other, timeslice, commodity, year] = asked then
        1 / (1 - trade.lossOn region other year) else 0) +
      if [other, region, timeslice, commodity, year] = asked then -1 else 0 := by
  rw [tradeTerms, amount_append, amount_exports hc hk rfl, amount_exports hc hk rfl]

/-- The net trade of a region adds up the terms with each other region. -/
theorem value_netTrade {trade : Trade R} {commodity : String}
    (htrade : ctx.tradeFor commodity = some trade) (region timeslice year : String) :
    (ctx.netTrade region timeslice commodity year).value = ofTerms (ctx.sets.regions.flatMap
      (ctx.tradeTerms trade region timeslice commodity year)) := by
  unfold netTrade
  rw [htrade]
  show ofTerms (gather _ ctx.sets.regions).value = _
  rw [value_gather]
  congr 2
  funext other
  have hreceived : ∀ sent : List (VariableRef × R),
      (do
        let received ← if ← ctx.has .exports [other, region, timeslice, commodity, year] then
            ctx.term .exports [other, region, timeslice, commodity, year] (-1)
          else pure []
        return sent ++ received : Lookup (List (VariableRef × R))).value =
      sent ++ if (ctx.has .exports [other, region, timeslice, commodity, year]).value then
          [(⟨VariableGroup.exports.name, [other, region, timeslice, commodity, year]⟩, -1)]
        else [] := by
    intro sent
    rw [value_bind]
    split
    · rw [value_bind, hc.value_term, value_pure]
    · rfl
  rw [tradeTerms, value_bind]
  by_cases hsent : (ctx.has .exports [region, other, timeslice, commodity, year]).value = true
  · rw [if_pos hsent, if_pos hsent, value_bind, value_bind, hc.value_term]
    exact hreceived _
  · rw [if_neg hsent, if_neg hsent, value_bind]
    exact hreceived []

variable {trade : Trade R} {origin destination timeslice year : String}
  (hregions : ctx.sets.regions.Nodup) (ho : origin ∈ ctx.sets.regions)
  (hd : destination ∈ ctx.sets.regions)
  (htrade : ctx.tradeFor trade.commodity = some trade)
  (hk : ctx.Has .exports [origin, destination, timeslice, trade.commodity, year])

include hregions ho hd htrade hk

/-- An export counts in the net trade of its commodity, in its timeslice and year: for its origin
with what is lost on the way, and against its destination. -/
theorem coefficient_netTrade (region slice commodity label : String) :
    (ctx.netTrade region slice commodity label).value.coefficient
        ⟨VariableGroup.exports.name, [origin, destination, timeslice, trade.commodity, year]⟩ =
      if slice = timeslice ∧ commodity = trade.commodity ∧ label = year then
        (if region = origin then 1 / (1 - trade.lossOn origin destination year) else 0) +
          if region = destination then -1 else 0
      else 0 := by
  cases hany : ctx.tradeFor commodity with
  | none =>
    have hne : commodity ≠ trade.commodity := by
      rintro rfl
      rw [htrade] at hany
      cases hany
    unfold netTrade
    rw [hany, if_neg fun h => hne h.2.1]
    exact coefficient_zero
  | some carrier =>
    rw [value_netTrade hc hany, coefficient_ofTerms, amount_flatMap]
    simp only [amount_tradeTerms hc hk]
    rw [List.sum_map_add, sum_map_single hregions hd, sum_map_single hregions ho]
    · by_cases h : slice = timeslice ∧ commodity = trade.commodity ∧ label = year
      · obtain ⟨rfl, rfl, rfl⟩ := h
        rw [htrade] at hany
        cases hany
        simp only [List.cons.injEq, and_true, true_and, if_true]
        by_cases hregion : region = origin
        · rw [hregion]
        · rw [if_neg hregion, if_neg hregion]
      · rw [if_neg h, if_neg, if_neg, add_zero]
        · intro he
          simp only [List.cons.injEq, and_true, true_and] at he
          exact h he.2
        · intro he
          simp only [List.cons.injEq, and_true, true_and] at he
          exact h he.2
    · intro other _ hne
      rw [if_neg fun he => hne (List.cons.inj he).1]
    · intro other _ hne
      rw [if_neg fun he => hne (List.cons.inj (List.cons.inj he).2).1]

end

/-! ### The balances of an export -/

/-- What one unit of an export brings to the balance of a region. -/
def Trade.exchange (trade : Trade R) (origin destination year region : String) : R :=
  (if region = destination then 1 else 0) -
    if region = origin then 1 / (1 - trade.lossOn origin destination year) else 0

namespace Context

instance (ctx : Context R) (region : String) (commodity : Commodity R) (year : String) :
    Decidable (ctx.BalancedYearly region commodity year) :=
  inferInstanceAs (Decidable (_ ∧ _))

/-- Where a region balances a commodity in a timeslice: at the constraint of the year if its
demand is met over the year, at that of the timeslice otherwise. -/
def balanceSite (ctx : Context R) (region timeslice : String) (commodity : Commodity R)
    (year : String) : String × Key :=
  if ctx.BalancedYearly region commodity year then
    ((annualBalanceRule : ConstraintRule R).name, [region, commodity.id, year])
  else ((balanceRule : ConstraintRule R).name, [region, timeslice, commodity.id, year])

variable {region region' timeslice year : String} {commodity : Commodity R}

theorem balanceSite_mem : (ctx.balanceSite region timeslice commodity year).1 ∈
    balanceFamilies := by
  unfold balanceSite
  split
  · exact List.mem_cons_of_mem _ List.mem_cons_self
  · exact List.mem_cons_self

/-- Two regions have their balances at two sites. -/
theorem balanceSite_region (h : ctx.balanceSite region timeslice commodity year =
    ctx.balanceSite region' timeslice commodity year) : region = region' := by
  have hhead : ∀ region : String,
      (ctx.balanceSite region timeslice commodity year).2.head? = some region := by
    intro region
    unfold balanceSite
    split <;> rfl
  apply Option.some_inj.1
  rw [← hhead region, h, hhead region']

end Context

section

variable (hc : ctx.Sound) {trade : Trade R} {origin destination timeslice year : String}
  (hregions : ctx.sets.regions.Nodup) (ho : origin ∈ ctx.sets.regions)
  (hd : destination ∈ ctx.sets.regions)
  (htrade : ctx.tradeFor trade.commodity = some trade)
  (hk : ctx.Has .exports [origin, destination, timeslice, trade.commodity, year])

include hc hregions ho hd htrade hk

/-- The parts of a balance of its commodity, timeslice and year bring what an export brings to the
region; those of another one bring nothing. -/
theorem coefficient_parts (region slice commodity label : String) :
    ((balanceParts ctx region slice commodity label).value.map fun p => p.1.coefficient
        ⟨VariableGroup.exports.name, [origin, destination, timeslice, trade.commodity, year]⟩ *
          p.2).sum =
      if slice = timeslice ∧ commodity = trade.commodity ∧ label = year then
        trade.exchange origin destination year region
      else 0 := by
  have hfamily : VariableGroup.exports.name ≠ VariableGroup.activity.name := by decide
  rw [coefficient_balanceParts hc hfamily,
    coefficient_netTrade hc hregions ho hd htrade hk]
  by_cases h : slice = timeslice ∧ commodity = trade.commodity ∧ label = year
  · rw [if_pos h, if_pos h, Trade.exchange]
    by_cases hdest : region = destination
    · rw [if_pos hdest, if_pos hdest]
      ring
    · rw [if_neg hdest, if_neg hdest]
      ring
  · rw [if_neg h, if_neg h, neg_zero]

/-- What an export counts for in the balance of a timeslice. -/
theorem coefficient_of_mem_balanceRule {c : Constraint R}
    (hm : c ∈ ((balanceRule : ConstraintRule R).constraints ctx).value) :
    ∃ region ∈ ctx.sets.regions, ∃ commodity ∈ ctx.model.commodities, ∃ label ∈ ctx.sets.years,
      ∃ slice ∈ ctx.sets.timeslices, ¬ ctx.BalancedYearly region commodity label ∧
        c.index = [region, slice, commodity.id, label] ∧
        c.lhs.coefficient ⟨VariableGroup.exports.name,
            [origin, destination, timeslice, trade.commodity, year]⟩ =
          if slice = timeslice ∧ commodity.id = trade.commodity ∧ label = year then
            trade.exchange origin destination year region
          else 0 := by
  obtain ⟨region, hr, hm⟩ := mem_value_gather.1 hm
  obtain ⟨commodity, hcom, hm⟩ := mem_value_gather.1 hm
  obtain ⟨label, hlabel, hm⟩ := mem_value_gather.1 hm
  rw [value_bind] at hm
  split at hm
  · cases hm
  · next hyearly =>
    rw [isSome_yearlyDemand_iff] at hyearly
    rw [value_bind] at hm
    obtain ⟨slice, hslice, rfl⟩ := mem_value_each.1 hm
    refine ⟨region, hr, commodity, hcom, label, hlabel, slice, hslice, hyearly, rfl, ?_⟩
    rw [← coefficient_parts hc hregions ho hd htrade hk, ← coefficient_sum]
    exact Constraint.coefficient_of

/-- What an export counts for in the balance of a year. -/
theorem coefficient_of_mem_annualBalanceRule (hslices : ctx.sets.timeslices.Nodup)
    (hl : timeslice ∈ ctx.sets.timeslices) {c : Constraint R}
    (hm : c ∈ ((annualBalanceRule : ConstraintRule R).constraints ctx).value) :
    ∃ region ∈ ctx.sets.regions, ∃ commodity ∈ ctx.model.commodities, ∃ label ∈ ctx.sets.years,
      ctx.BalancedYearly region commodity label ∧ c.index = [region, commodity.id, label] ∧
        c.lhs.coefficient ⟨VariableGroup.exports.name,
            [origin, destination, timeslice, trade.commodity, year]⟩ =
          if commodity.id = trade.commodity ∧ label = year then
            trade.exchange origin destination year region
          else 0 := by
  obtain ⟨region, hr, hm⟩ := mem_value_gather.1 hm
  obtain ⟨commodity, hcom, hm⟩ := mem_value_gather.1 hm
  obtain ⟨label, hlabel, hm⟩ := mem_value_gather.1 hm
  rw [value_bind] at hm
  cases hdemand : (yearlyDemand ctx region commodity label).value with
  | none =>
    rw [hdemand] at hm
    cases hm
  | some demand =>
    have hyearly := isSome_yearlyDemand_iff.1 (Option.isSome_iff_exists.2 ⟨demand, hdemand⟩)
    rw [hdemand] at hm
    obtain rfl := List.mem_singleton.1 hm
    refine ⟨region, hr, commodity, hcom, label, hlabel, hyearly, rfl, ?_⟩
    rw [Constraint.coefficient_of, coefficient_sum, value_gather, List.map_flatMap,
      List.flatMap_def, List.sum_flatten, List.map_map]
    rw [sum_map_single hslices hl]
    · exact (coefficient_parts hc hregions ho hd htrade hk region timeslice commodity.id
        label).trans (if_congr (and_iff_right rfl) rfl rfl)
    · intro slice _ hne
      apply (coefficient_parts hc hregions ho hd htrade hk region slice commodity.id label).trans
      exact if_neg fun h => hne h.1

end

/-! ### The problem of a context -/

section

/-- A route that is open joins regions of the model in a year of the model. -/
theorem within_routes (hc : ctx.Sound) {trade : Trade R} (ht : trade ∈ ctx.model.trade)
    {origin destination year : String} (h : trade.Open origin destination year) :
    origin ∈ ctx.sets.regions ∧ destination ∈ ctx.sets.regions ∧ year ∈ ctx.sets.years := by
  have hkey : [origin, destination, year] ∈ (FieldValues.flags (R := R) trade.routes).keys :=
    List.mem_map_of_mem (f := Prod.fst)
      (Std.ExtTreeMap.mem_toList_iff_getElem?_eq_some.2 h.2)
  have hwithin := hc.hold.trade trade ht _ List.mem_cons_self _ hkey
  dsimp only [FieldValues.dimensions] at hwithin
  rw [(hc.shaped.trade trade ht).routes] at hwithin
  exact ⟨hwithin (.region, origin) (by simp), hwithin (.linkedRegion, destination) (by simp),
    hwithin (.year, year) (by simp)⟩

theorem tradeFor_of_mem (htraded : (ctx.model.trade.map (·.commodity)).Nodup) {trade : Trade R}
    (ht : trade ∈ ctx.model.trade) : ctx.tradeFor trade.commodity = some trade := by
  cases hfind : ctx.tradeFor trade.commodity with
  | none =>
    have := List.find?_eq_none.1 hfind trade ht
    simp at this
  | some other =>
    have hcommodity : other.commodity = trade.commodity := by
      simpa using List.find?_some hfind
    rw [List.inj_on_of_nodup_map htraded (List.mem_of_find?_eq_some hfind) ht hcommodity]

/-- There is an export for each timeslice of each year in which a route is open, and no other. -/
theorem has_exports_iff (hc : ctx.Sound) {key : Key} : ctx.Has .exports key ↔
    ∃ trade ∈ ctx.model.trade, ∃ origin destination year, trade.Open origin destination year ∧
      ∃ timeslice ∈ ctx.sets.timeslices,
        key = [origin, destination, timeslice, trade.commodity, year] := by
  constructor
  · intro h
    obtain ⟨trade, ht, origin, -, destination, -, year, -, hactive, timeslice, hl, hk⟩ :=
      VariableGroup.mem_exportKeys.1 h
    exact ⟨trade, ht, origin, destination, year, isActive_iff.1 hactive, timeslice, hl, hk.symm⟩
  · rintro ⟨trade, ht, origin, destination, year, hopen, timeslice, hl, rfl⟩
    obtain ⟨ho, hd, hy⟩ := within_routes hc ht hopen
    exact VariableGroup.mem_exportKeys.2 ⟨trade, ht, origin, ho, destination, hd, year, hy,
      isActive_iff.2 hopen, timeslice, hl, rfl⟩

theorem balanceRule_mem : (balanceRule : ConstraintRule R) ∈ constraintRules :=
  List.mem_cons_of_mem _ (List.mem_cons_of_mem _ (List.mem_cons_of_mem _ List.mem_cons_self))

theorem annualBalanceRule_mem : (annualBalanceRule : ConstraintRule R) ∈ constraintRules :=
  List.mem_cons_of_mem _ (List.mem_cons_of_mem _ (List.mem_cons_of_mem _
    (List.mem_cons_of_mem _ List.mem_cons_self)))

variable [Scalar R]

variable (hc : ctx.Orderly) {trade : Trade R} (ht : trade ∈ ctx.model.trade)
  {commodity : Commodity R} (hcom : commodity ∈ ctx.model.commodities)
  (hid : commodity.id = trade.commodity) {origin destination year : String}
  (hopen : trade.Open origin destination year) {timeslice : String}
  (hl : timeslice ∈ ctx.sets.timeslices)

include hc ht hcom hid hopen hl

/-- Every region has a balance of the commodity, and it gets what the export brings to it. -/
theorem exists_balance {region : String} (hr : region ∈ ctx.sets.regions) :
    ∃ c, ctx.problem.constraintAt (ctx.balanceSite region timeslice commodity year) = some c ∧
      c.lhs.coefficient ⟨VariableGroup.exports.name,
          [origin, destination, timeslice, trade.commodity, year]⟩ =
        trade.exchange origin destination year region := by
  obtain ⟨ho, hd, hy⟩ := within_routes hc.toSound ht hopen
  have htrade := tradeFor_of_mem hc.traded ht
  have hk := (has_exports_iff hc.toSound).2
    ⟨trade, ht, origin, destination, year, hopen, timeslice, hl, rfl⟩
  by_cases hyearly : ctx.BalancedYearly region commodity year
  · rw [balanceSite, if_pos hyearly]
    obtain ⟨c, hat⟩ := (exists_constraintAt_iff annualBalanceRule_mem
      (ConstraintRule.covers_annualBalanceRule hc)).2
      ⟨region, hr, commodity, hcom, year, hy, hyearly, rfl⟩
    obtain ⟨hm, hindex⟩ := mem_of_constraintAt annualBalanceRule_mem hat
    obtain ⟨region', -, commodity', -, year', -, -, hindex', hcoefficient⟩ :=
      coefficient_of_mem_annualBalanceRule hc.toSound hc.regions ho hd htrade hk hc.timeslices
        hl hm
    rw [hindex] at hindex'
    simp only [List.cons.injEq, and_true] at hindex'
    obtain ⟨rfl, hid', rfl⟩ := hindex'
    rw [if_pos ⟨hid'.symm.trans hid, rfl⟩] at hcoefficient
    exact ⟨c, hat, hcoefficient⟩
  · rw [balanceSite, if_neg hyearly]
    obtain ⟨c, hat⟩ := (exists_constraintAt_iff balanceRule_mem
      (ConstraintRule.covers_balanceRule hc)).2
      ⟨region, hr, commodity, hcom, year, hy, hyearly, timeslice, hl, rfl⟩
    obtain ⟨hm, hindex⟩ := mem_of_constraintAt balanceRule_mem hat
    obtain ⟨region', -, commodity', -, year', -, timeslice', -, -, hindex', hcoefficient⟩ :=
      coefficient_of_mem_balanceRule hc.toSound hc.regions ho hd htrade hk hm
    rw [hindex] at hindex'
    simp only [List.cons.injEq, and_true] at hindex'
    obtain ⟨rfl, rfl, hid', rfl⟩ := hindex'
    rw [if_pos ⟨rfl, hid'.symm.trans hid, rfl⟩] at hcoefficient
    exact ⟨c, hat, hcoefficient⟩

/-- A balance that the export counts in is that of some region, and it gets what the export
brings to the region. -/
theorem eq_balanceSite_of_coefficient_ne_zero {site : String × Key}
    (hsite : site.1 ∈ balanceFamilies) {c : Constraint R}
    (hat : ctx.problem.constraintAt site = some c)
    (hne : c.lhs.coefficient ⟨VariableGroup.exports.name,
      [origin, destination, timeslice, trade.commodity, year]⟩ ≠ 0) :
    ∃ region, site = ctx.balanceSite region timeslice commodity year ∧
      trade.exchange origin destination year region ≠ 0 := by
  obtain ⟨ho, hd, hy⟩ := within_routes hc.toSound ht hopen
  have htrade := tradeFor_of_mem hc.traded ht
  have hk := (has_exports_iff hc.toSound).2
    ⟨trade, ht, origin, destination, year, hopen, timeslice, hl, rfl⟩
  have hsame : ∀ {other : Commodity R}, other ∈ ctx.model.commodities →
      other.id = trade.commodity → other = commodity := fun hother hid' =>
    List.inj_on_of_nodup_map hc.distinct.commodities hother hcom (hid'.trans hid.symm)
  obtain ⟨name, index⟩ := site
  rcases List.mem_cons.1 hsite with rfl | hsite
  · obtain ⟨hm, rfl⟩ := mem_of_constraintAt balanceRule_mem hat
    obtain ⟨region, -, other, hother, label, -, slice, -, hyearly, hindex, hcoefficient⟩ :=
      coefficient_of_mem_balanceRule hc.toSound hc.regions ho hd htrade hk hm
    by_cases h : slice = timeslice ∧ other.id = trade.commodity ∧ label = year
    · obtain ⟨rfl, hid', rfl⟩ := h
      obtain rfl : other = commodity := hsame hother hid'
      rw [hcoefficient, if_pos ⟨rfl, hid, rfl⟩] at hne
      refine ⟨region, ?_, hne⟩
      rw [balanceSite, if_neg hyearly, hindex]
      rfl
    · rw [hcoefficient, if_neg h] at hne
      exact absurd rfl hne
  · obtain rfl := List.mem_singleton.1 hsite
    obtain ⟨hm, rfl⟩ := mem_of_constraintAt annualBalanceRule_mem hat
    obtain ⟨region, -, other, hother, label, -, hyearly, hindex, hcoefficient⟩ :=
      coefficient_of_mem_annualBalanceRule hc.toSound hc.regions ho hd htrade hk hc.timeslices
        hl hm
    by_cases h : other.id = trade.commodity ∧ label = year
    · obtain ⟨hid', rfl⟩ := h
      obtain rfl : other = commodity := hsame hother hid'
      rw [hcoefficient, if_pos ⟨hid, rfl⟩] at hne
      refine ⟨region, ?_, hne⟩
      rw [balanceSite, if_pos hyearly, hindex]
      rfl
    · rw [hcoefficient, if_neg h] at hne
      exact absurd rfl hne

end

/-! ### Compiling a model that was built -/

section

variable [IsStrictOrderedRing R] [Scalar R]

/-- In a model that was built something is left of what is sent. -/
theorem lossOn_lt_one {root : Node} {time : TimeStructure R} {members : MemberSets}
    {tolerance : R} {model : EnergyModel R}
    (hb : buildModel root time members tolerance = .ok model) {trade : Trade R}
    (ht : trade ∈ model.trade) (origin destination year : String) :
    trade.lossOn origin destination year < 1 := by
  obtain ⟨-, rfl⟩ := Noted.checked_eq_ok_iff.1 hb
  obtain ⟨node, -, path, -, -, hcheck⟩ := mem_collect ht
  rw [Trade.lossOn]
  cases hloss : trade.loss.find? [origin, destination, year] with
  | none => exact zero_lt_one
  | some loss =>
    have hentry : ([origin, destination, year], loss) ∈ trade.loss.entries :=
      Std.ExtTreeMap.mem_toList_iff_getElem?_eq_some.2 hloss
    have hbelow := List.filterMap_eq_nil_iff.1 hcheck _ hentry
    show loss < 1
    by_contra hone
    dsimp only at hbelow
    rw [if_pos (not_lt.1 hone)] at hbelow
    cases hbelow

/-- **Trade is conserved in the balances of energy.** A model with distinct timeslices and trades
of distinct commodities compiles to a problem in which each export of an open route enters two
balances of its commodity: it takes what is sent, that is what arrives over the share that
arrives, from the balance of the region that it leaves, and adds what arrives to that of the
region that it reaches. There are no other exports. -/
theorem compile_conserves {definition root : Node} {time : TimeStructure R}
    {members : MemberSets} {tolerance bigM : R} {model : EnergyModel R} {sets : IndexSets}
    (ht : TimeStructure.ofNode definition = .ok time)
    (hb : buildModel root time members tolerance = .ok model)
    (hs : deriveSets model = .ok sets) (hslices : model.time.timeslices.Nodup)
    (htrades : (model.trade.map (·.commodity)).Nodup) :
    ∃ problem, compile model sets bigM = .ok problem ∧
      (∀ trade ∈ model.trade, ∃ commodity ∈ model.commodities, commodity.id = trade.commodity ∧
        ∀ origin destination year, trade.Open origin destination year →
          ∀ timeslice ∈ sets.timeslices,
            problem.Conserves
              ⟨"Export", [origin, destination, timeslice, trade.commodity, year]⟩
              ((Context.ofModel model sets bigM).balanceSite origin timeslice commodity year)
              ((Context.ofModel model sets bigM).balanceSite destination timeslice commodity year)
              (1 / (1 - trade.lossOn origin destination year))) ∧
      ∀ key, problem.Has ⟨"Export", key⟩ ↔ ∃ trade ∈ model.trade, ∃ origin destination year,
        trade.Open origin destination year ∧ ∃ timeslice ∈ sets.timeslices,
          key = [origin, destination, timeslice, trade.commodity, year] := by
  have hc := orderly_of_stages hb ht hs hslices htrades bigM
  have hvariable : ∀ key, (Context.ofModel model sets bigM).problem.Has
      ⟨VariableGroup.exports.name, key⟩ ↔ _ := fun key => problem_has_iff hc.toSound
  have hexports : ∀ key, (Context.ofModel model sets bigM).problem.Has ⟨"Export", key⟩ ↔ _ :=
    fun key => (hvariable key).trans (has_exports_iff hc.toSound)
  refine ⟨_, compile_of_sound hc.toSound (lt_irrefl 0), fun trade htrade => ?_, hexports⟩
  have hsets := (deriveSets_eq_ok_iff.1 hs).1
  have hcarried := hc.hold.traded trade htrade
  have hcommodities : (Context.ofModel model sets bigM).sets.commodities =
      Text.sortedDistinct (model.commodities.map (·.id)) := by
    rw [← hsets]
    rfl
  rw [hcommodities, Text.mem_sortedDistinct] at hcarried
  obtain ⟨commodity, hcom, hid⟩ := List.mem_map.1 hcarried
  refine ⟨commodity, hcom, hid, fun origin destination year hopen timeslice hl => ?_⟩
  obtain ⟨ho, hd, hy⟩ := within_routes hc.toSound htrade hopen
  have harrives : 0 < 1 - trade.lossOn origin destination year :=
    sub_pos.2 (lossOn_lt_one hb htrade origin destination year)
  have hleaves : trade.exchange origin destination year origin =
      -(1 / (1 - trade.lossOn origin destination year)) := by
    rw [Trade.exchange, if_neg hopen.1, if_pos rfl, zero_sub]
  have henters : trade.exchange origin destination year destination = 1 := by
    rw [Trade.exchange, if_pos rfl, if_neg (Ne.symm hopen.1), sub_zero]
  constructor
  case has =>
    exact (hexports _).2
      ⟨trade, htrade, origin, destination, year, hopen, timeslice, hl, rfl⟩
  case families => exact ⟨balanceSite_mem, balanceSite_mem⟩
  case apart => exact fun h => hopen.1 (balanceSite_region h)
  case positive => exact div_pos one_pos harrives
  case leaves =>
    obtain ⟨c, hat, hcoefficient⟩ := exists_balance hc htrade hcom hid hopen hl ho
    exact ⟨c, hat, hcoefficient.trans hleaves⟩
  case enters =>
    obtain ⟨c, hat, hcoefficient⟩ := exists_balance hc htrade hcom hid hopen hl hd
    exact ⟨c, hat, hcoefficient.trans henters⟩
  case elsewhere =>
    intro site c hsite hat hne
    obtain ⟨region, rfl, hexchange⟩ :=
      eq_balanceSite_of_coefficient_ne_zero hc htrade hcom hid hopen hl hsite hat hne
    by_cases horigin : region = origin
    · exact .inl (by rw [horigin])
    · by_cases hdestination : region = destination
      · exact .inr (by rw [hdestination])
      · rw [Trade.exchange, if_neg hdestination, if_neg horigin, sub_zero] at hexchange
        exact absurd rfl hexchange

end

/-- Heat that is sent over a pipe is conserved. -/
theorem compile_conserves_sample :
    ∃ (definition root : Node) (time : TimeStructure Rat) (members : MemberSets)
      (tolerance : Rat) (model : EnergyModel Rat) (sets : IndexSets),
      TimeStructure.ofNode definition = .ok time ∧
      buildModel root time members tolerance = .ok model ∧ deriveSets model = .ok sets ∧
      model.time.timeslices.Nodup ∧ (model.trade.map (·.commodity)).Nodup ∧
      ∃ trade ∈ model.trade, trade.Open "north" "south" "2020" ∧ "1" ∈ sets.timeslices ∧
        ∃ problem, compile model sets 1000 = .ok problem ∧
          ∃ commodity ∈ model.commodities, commodity.id = trade.commodity ∧
            problem.Conserves ⟨"Export", ["north", "south", "1", trade.commodity, "2020"]⟩
              ((Context.ofModel model sets 1000).balanceSite "north" "1" commodity "2020")
              ((Context.ofModel model sets 1000).balanceSite "south" "1" commodity "2020")
              (1 / (1 - trade.lossOn "north" "south" "2020")) := by
  have haccepts : Exact.accepts Exact.noVariables .standard Exact.sample (fun model sets =>
      decide (model.time.timeslices.Nodup ∧ (model.trade.map (·.commodity)).Nodup ∧
        (∃ trade ∈ model.trade, "north" ≠ "south" ∧
          trade.routes.find? ["north", "south", "2020"] = some true) ∧
        "1" ∈ sets.timeslices)) = true := by decide +kernel
  obtain ⟨options, root, resolved, expanded, model, sets, -, -, he, hb, hs, htest⟩ :=
    Exact.exists_of_accepts haccepts
  obtain ⟨hslices, htrades, ⟨trade, htrade, hopen⟩, hl⟩ := of_decide_eq_true htest
  have ht := ofNode_of_expandModel he
  obtain ⟨problem, hp, hconserves, -⟩ := compile_conserves ht hb hs hslices htrades
  obtain ⟨commodity, hcom, hid, hroute⟩ := hconserves trade htrade
  exact ⟨_, _, _, _, _, model, sets, ht, hb, hs, hslices, htrades, trade, htrade, hopen, hl,
    problem, hp, commodity, hcom, hid, hroute "north" "south" "2020" hopen "1" hl⟩

end EnergyPlan
