/-
# Constraints on activity, emissions and the balance of energy

The activity of a technology may be bounded in each year and over all years, and a
least use of its capacity may be asked for. Emissions may be limited in each year and
over all years. In every region what is produced of a commodity, less what is used and
what leaves by trade, meets the demand: over the year if only an annual demand is given,
and in each timeslice otherwise.

Key definitions: `annualActivityRule`, `totalActivityRule`, `emissionRule`,
`balanceRule`, `annualBalanceRule`.
-/
import EnergyPlan.Program.Capacity

namespace EnergyPlan

variable {R : Type} [Zero R] [One R] [Add R] [Sub R] [Mul R] [Neg R] [BEq R]

/-- Activity in a year is within a bound. -/
def annualActivityRule (name : String) (bounds : Technology R → Tensor R) (relation : Relation) :
    ConstraintRule R where
  name
  dimensions := annualDimensions
  constraints ctx := ctx.perTechnologyYear fun region technology year => do
    match ← (bounds technology).lookup? [region, year] with
    | none => return []
    | some bound =>
      let annual ← ctx.annualActivity region technology year
      return [.of [region, technology.id, year] annual relation bound]

/-- The activity of a year is at most its upper bound. -/
def annualActivityMaxRule : ConstraintRule R :=
  annualActivityRule "AAC2_TotalAnnualTechnologyActivityUpperLimit" Technology.activityAnnualMax
    .atMost

/-- The activity of a year is at least its lower bound. -/
def annualActivityMinRule : ConstraintRule R :=
  annualActivityRule "AAC3_TotalAnnualTechnologyActivityLowerLimit" Technology.activityAnnualMin
    .atLeast

/-- A least share of the capacity in service is used over a year. -/
def leastUseRule : ConstraintRule R where
  name := "ACF1_AnnualCapacityFactorMin"
  dimensions := annualDimensions
  constraints ctx := ctx.perTechnologyYear fun region technology year => do
    match ← technology.capacityFactorMin.lookup? [region, year] with
    | none => return []
    | some factor =>
      let annual ← ctx.annualActivity region technology year
      let gross ← ctx.grossCapacity region technology year
      let ratio ← technology.capacityActivityRatio.lookup [region] 1
      return [.of [region, technology.id, year] (annual.addScaled gross (-factor * ratio))
        .atLeast 0]

/-- Activity over all years is within a bound. -/
def totalActivityRule (name : String) (bounds : Technology R → Tensor R) (relation : Relation) :
    ConstraintRule R where
  name
  dimensions := [.region, .technology]
  constraints ctx := ctx.perTechnology fun region technology => do
    match ← (bounds technology).lookup? [region] with
    | none => return []
    | some bound =>
      let annual ← Noted.each (ctx.annualActivity region technology) ctx.sets.years
      return [.of [region, technology.id] (.sum (annual.map (·, 1))) relation bound]

/-- The activity over all years is at most its upper bound. -/
def totalActivityMaxRule : ConstraintRule R :=
  totalActivityRule "TAC2_TotalModelHorizonTechnologyActivityUpperLimit"
    Technology.activityTotalMax .atMost

/-- The activity over all years is at least its lower bound. -/
def totalActivityMinRule : ConstraintRule R :=
  totalActivityRule "TAC3_TotalModelHorizonTechnologyActivityLowerLimit"
    Technology.activityTotalMin .atLeast

/-! ### Emissions -/

/-- Emissions in a year are within the limit, less what is emitted outside the model. -/
def emissionRule : ConstraintRule R where
  name := "E8_AnnualEmissionsLimit"
  dimensions := [.region, .impact, .year]
  constraints ctx :=
    Noted.gather (fun region => Noted.gather (fun (impact : Impact R) => Noted.gather
      (fun year => do
        match ← impact.limitAnnual.lookup? [region, year] with
        | none => return []
        | some limit =>
          let emissions ← ctx.annualEmissions region impact.id year
          let exogenous ← impact.exogenousAnnual.lookup [region, year] 0
          return [.of [region, impact.id, year] emissions .atMost (limit - exogenous)])
      ctx.sets.years) ctx.model.impacts) ctx.sets.regions

/-- Emissions over all years are within the limit, less what is emitted outside the model. -/
def totalEmissionRule : ConstraintRule R where
  name := "E9_ModelPeriodEmissionsLimit"
  dimensions := [.region, .impact]
  constraints ctx :=
    Noted.gather (fun region => Noted.gather
      (fun (impact : Impact R) => do
        match ← impact.limitTotal.lookup? [region] with
        | none => return []
        | some limit =>
          let emissions ← Noted.each (ctx.annualEmissions region impact.id) ctx.sets.years
          let exogenous ← impact.exogenousTotal.lookup [region] 0
          return [.of [region, impact.id] (.sum (emissions.map (·, 1))) .atMost
            (limit - exogenous)])
      ctx.model.impacts) ctx.sets.regions

/-! ### Energy balance -/

/-- The constraints for each region, commodity and year. -/
def perCommodityYear (ctx : Context R)
    (rows : String → Commodity R → String → Lookup (List (Constraint R))) :
    Lookup (List (Constraint R)) :=
  Noted.gather (fun region => Noted.gather (fun commodity => Noted.gather
    (rows region commodity) ctx.sets.years) ctx.model.commodities) ctx.sets.regions

/-- The annual demand that is balanced over the year: one without a profile. -/
def yearlyDemand (ctx : Context R) (region : String) (commodity : Commodity R) (year : String) :
    Lookup (Option R) := do
  let demand ← commodity.demandAnnual.lookup? [region, year]
  let profiled ← Noted.each
    (fun timeslice => commodity.demandProfile.has [region, year, timeslice]) ctx.sets.timeslices
  return if profiled.any id then none else demand

variable [Div R]

/-- The parts of the balance of a commodity in a timeslice: what is produced, less what is used,
less what leaves by trade. -/
def balanceParts (ctx : Context R) (region timeslice commodity year : String) :
    Lookup (List (LinearExpression R × R)) := do
  let production ← ctx.production region timeslice commodity year
  let use ← ctx.use region timeslice commodity year
  let trade ← ctx.netTrade region timeslice commodity year
  return [(production, 1), (use, -1), (trade, -1)]

/-- The demand in each timeslice is met, unless it is met over the year. -/
def balanceRule : ConstraintRule R where
  name := "EBa11_EnergyBalanceEachTS5"
  dimensions := [.region, .timeslice, .commodity, .year]
  constraints ctx := perCommodityYear ctx fun region commodity year => do
    if (← yearlyDemand ctx region commodity year).isSome then
      return []
    let demand ← commodity.demandAnnual.lookup? [region, year]
    Noted.each
      (fun timeslice => do
        let balance ← balanceParts ctx region timeslice commodity.id year
        let share ← commodity.demandProfile.lookup [region, year, timeslice] 0
        let required := match demand with
          | some demand => demand * share
          | none => 0
        return .of [region, timeslice, commodity.id, year] (.sum balance) .atLeast required)
      ctx.sets.timeslices

/-- A demand without a profile is met over the year. -/
def annualBalanceRule : ConstraintRule R where
  name := "EBb4_EnergyBalanceEachYear"
  dimensions := [.region, .commodity, .year]
  constraints ctx := perCommodityYear ctx fun region commodity year => do
    match ← yearlyDemand ctx region commodity year with
    | none => return []
    | some demand =>
      let balance ← Noted.gather
        (fun timeslice => balanceParts ctx region timeslice commodity.id year)
        ctx.sets.timeslices
      return [.of [region, commodity.id, year] (.sum balance) .atLeast demand]

end EnergyPlan
