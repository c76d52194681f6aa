/-
# The cost of a model

The objective is the cost of the model over all its years, discounted to the first:
capital costs less what is left at the end, fixed costs of the capacity in service,
variable costs and penalties of activity, and the penalties of what is emitted outside
the model. It is a sum of parts, each a linear expression times a factor, in the order
of the regions and years.

Key definitions: `costParts`, `objective`.
-/
import EnergyPlan.Discount
import EnergyPlan.Program.Quantity

namespace EnergyPlan

variable {R : Type}

/-- A part of the cost: an expression and the factor it counts with. -/
abbrev CostPart (R : Type) := LinearExpression R × R

/-- What costs of a region in a year are reckoned with. -/
structure CostFrame (R : Type) where
  region : String
  year : String
  current : Int
  first : Int
  last : Int
  rate : R
  method : DepreciationMethod

variable [Zero R] [One R] [Add R] [Sub R] [Mul R] [Div R] [Neg R] [BEq R] [LT R] [DecidableLT R]
  [Scalar R]

namespace CostFrame

/-- The frame of a region and year. -/
def of (ctx : Context R) (region year : String) : Lookup (CostFrame R) := do
  let rate ← ctx.model.discountRate.lookup [region] (1 / Scalar.ofInt 20)
  let method ← ctx.model.depreciation.lookup [region] .sinkingFund
  return ⟨region, year, yearOf year, ctx.model.time.firstYear, ctx.model.time.lastYear, rate,
    method⟩

/-- The factor for costs over the year. -/
def midFactor (frame : CostFrame R) : R :=
  Discount.factorMid frame.rate frame.current frame.first

/-- A multiple of one variable as a part of the cost. -/
def variablePart (ctx : Context R) (group : VariableGroup) (key : Key) (cost : R) :
    Lookup (List (CostPart R)) := do
  return [(.ofTerms (← ctx.term group key cost), 1)]

/-- The capital cost of a technology, spread over its life at its own cost of capital, less what
is left of it. -/
def capitalPart (ctx : Context R) (frame : CostFrame R) (technology : Technology R) :
    Lookup (List (CostPart R)) := do
  let ownRate ← ctx.model.costOfCapital.lookup [frame.region, technology.id] frame.rate
  let life ← technology.operatingLife.lookup [frame.region] 1
  let capex ← technology.capex.lookup [frame.region, frame.year] 0
  let capital := capex * Discount.capitalRecovery ownRate life * Discount.annuity ownRate life /
    Discount.factor frame.rate frame.current frame.first
  let salvage :=
    capex * Discount.salvageFraction frame.method frame.rate frame.current life frame.last /
      Discount.factorSalvage frame.rate frame.first frame.last
  variablePart ctx .newCapacity [frame.region, technology.id, frame.year] (capital - salvage)

/-- The fixed cost of the capacity of a technology in service. -/
def fixedPart (ctx : Context R) (frame : CostFrame R) (technology : Technology R) :
    Lookup (List (CostPart R)) := do
  let cost ← technology.opexFixed.lookup [frame.region, frame.year] 0
  if cost == 0 then return []
  else
    return [(← ctx.grossCapacity frame.region technology frame.year, cost / frame.midFactor)]

/-- What a unit of activity costs: the variable cost, and the penalties of what is emitted. -/
def activityCost (ctx : Context R) (frame : CostFrame R) (mode : OperatingMode R) : Lookup R := do
  let variableCost ← mode.opexVariable.lookup [frame.region, frame.year] 0
  ctx.model.impacts.foldlM
    (fun cost impact => do
      let penalty ← impact.penalty.lookup [frame.region, frame.year] 0
      let ratio ← mode.emissionRatio.lookup [frame.region, impact.id, frame.year] 0
      return cost + penalty * ratio)
    variableCost

/-- The cost of operating a technology. -/
def activityParts (ctx : Context R) (frame : CostFrame R) (technology : Technology R) :
    Lookup (List (CostPart R)) :=
  Noted.gather
    (fun mode => do
      let cost ← frame.activityCost ctx mode
      if cost == 0 then return []
      else
        return [(← ctx.modeActivity frame.region technology mode frame.year,
          cost / frame.midFactor)])
    technology.modes

/-- The penalty of what is emitted outside the model. -/
def exogenousPart (frame : CostFrame R) (impact : Impact R) : Lookup (List (CostPart R)) := do
  let penalty ← impact.penalty.lookup [frame.region, frame.year] 0
  let exogenous ← impact.exogenousAnnual.lookup [frame.region, frame.year] 0
  return [(.ofConstant (penalty * exogenous / frame.midFactor), 1)]

/-- The capital cost of a storage, less what is left of it. -/
def storagePart (ctx : Context R) (frame : CostFrame R) (storage : Storage R) :
    Lookup (List (CostPart R)) := do
  let ownRate ← ctx.model.costOfCapitalStorage.lookup [frame.region, storage.id] frame.rate
  let life ← storage.operatingLife.lookup [frame.region] 1
  let capex ← storage.capex.lookup [frame.region, frame.year] 0
  let capital := capex / Discount.factor ownRate frame.current frame.first
  let salvage :=
    capex * Discount.salvageFraction frame.method ownRate frame.current life frame.last /
      Discount.factorSalvage ownRate frame.first frame.last
  variablePart ctx .newStorage [frame.region, storage.id, frame.year] (capital - salvage)

/-- The capital cost of the routes of a trade, less what is left of it. -/
def tradeParts (ctx : Context R) (frame : CostFrame R) (trade : Trade R) :
    Lookup (List (CostPart R)) :=
  Noted.gather
    (fun other => do
      let key := [frame.region, other, trade.commodity, frame.year]
      if ← ctx.has .newTrade key then
        let ownRate ← trade.costOfCapital.lookup [frame.region, other] frame.rate
        let life ← trade.operatingLife.lookup [frame.region, other, frame.year] 1
        let capex ← trade.capex.lookup [frame.region, other, frame.year] 0
        let capital := capex * Discount.capitalRecovery ownRate life *
          Discount.annuity ownRate life / Discount.factor ownRate frame.current frame.first
        let salvage :=
          capex * Discount.salvageFraction frame.method ownRate frame.current life frame.last /
            Discount.factorSalvage ownRate frame.first frame.last
        variablePart ctx .newTrade key (capital - salvage)
      else return [])
    ctx.sets.regions

/-- The parts of the cost of a region in a year. -/
def parts (ctx : Context R) (frame : CostFrame R) : Lookup (List (CostPart R)) := do
  let technologies ← Noted.gather
    (fun technology => do
      let capital ← frame.capitalPart ctx technology
      let fixed ← frame.fixedPart ctx technology
      return capital ++ fixed ++ (← frame.activityParts ctx technology))
    ctx.model.technologies
  let impacts ← Noted.gather frame.exogenousPart ctx.model.impacts
  let storages ← Noted.gather (frame.storagePart ctx) ctx.model.storage
  let trades ← Noted.gather (frame.tradeParts ctx) ctx.model.trade
  return technologies ++ impacts ++ storages ++ trades

end CostFrame

/-- The parts of the cost of a model. -/
def costParts (ctx : Context R) : Lookup (List (CostPart R)) :=
  Noted.gather
    (fun region => Noted.gather
      (fun year => do (← CostFrame.of ctx region year).parts ctx)
      ctx.sets.years)
    ctx.sets.regions

/-- The cost of a model. -/
def objective (ctx : Context R) : Lookup (LinearExpression R) :=
  .sum <$> costParts ctx

end EnergyPlan
