/-
# Quantities of a model as linear expressions

What is constrained and paid for is a linear expression over the variables: the
capacity in service, the activity of a technology, what is produced, used and traded of
a commodity, and what is emitted. Capacity is in service from the year it is built in
for as many years as its life; what was there before the model begins is a constant.

Key definitions: `Context`, `Context.grossCapacity`, `Context.production`,
`Context.use`, `Context.netTrade`, `Context.annualEmissions`.
-/
import EnergyPlan.Program.Variables

namespace EnergyPlan

/-- A model, the sets it is compiled over, its variables, and the constant that switches a growth
limit off. -/
structure Context (R : Type) where
  model : EnergyModel R
  sets : IndexSets
  unknowns : Std.ExtTreeMap String (VariableFamily R)
  bigM : R

/-- Whether a commodity is taken or given. -/
inductive Flow where
  | input
  | output
deriving DecidableEq, Repr

namespace Context

variable {R : Type} (ctx : Context R)

/-- The family of a group of variables, which the model has to have. -/
def family (group : VariableGroup) : Lookup (VariableFamily R) :=
  ⟨(ctx.unknowns[group.name]?).getD ⟨group.name, group.dimensions, group.kind, ∅⟩,
    if ctx.unknowns.contains group.name then [] else [.noVariables group.name]⟩

/-- A variable of the model. -/
def ref (group : VariableGroup) (key : Key) : Lookup VariableRef := do
  (← ctx.family group).ref key

/-- Whether the model has a variable. -/
def has (group : VariableGroup) (key : Key) : Lookup Bool := do
  (← ctx.family group).has key

/-- A multiple of a variable, as the only term. -/
def term (group : VariableGroup) (key : Key) (coefficient : R) :
    Lookup (List (VariableRef × R)) := do
  return [(← ctx.ref group key, coefficient)]

/-- The share of a year that a timeslice takes. -/
def yearSplit [Zero R] (timeslice year : String) : Lookup R :=
  ctx.model.time.yearSplit.lookup [timeslice, year] 0

/-- The year before a year, if the model has one. -/
def previousYear (year : String) : Option Int := ctx.model.time.previousYear (yearOf year)

/-- The trade of a commodity. -/
def tradeFor (commodity : String) : Option (Trade R) :=
  ctx.model.trade.find? fun trade => trade.commodity == commodity

/-- Whether what is built in one year is in service in another. -/
def inService (built current : String) (life : Int) : Bool :=
  decide (yearOf built ≤ yearOf current ∧ yearOf current - yearOf built < life)

variable [Zero R] [One R] [Add R] [BEq R]

/-- The capacity of a technology in service in a year. -/
def grossCapacity (region : String) (technology : Technology R) (year : String) :
    Lookup (LinearExpression R) := do
  let life ← technology.operatingLife.lookup [region] 1
  let residual ← technology.residualCapacity.lookup [region, year] 0
  let terms ← Noted.gather
    (fun built => ctx.term .newCapacity [region, technology.id, built] 1)
    (ctx.sets.years.filter fun built => inService built year life)
  return (LinearExpression.ofConstant residual).addTerms terms

/-- The rate at which a technology is operated in a timeslice, over all modes. -/
def totalRate (region timeslice : String) (technology : Technology R) (year : String) :
    Lookup (LinearExpression R) :=
  .ofTerms <$> Noted.gather
    (fun (mode : OperatingMode R) =>
      ctx.term .activity [region, timeslice, technology.id, mode.id, year] 1)
    technology.modes

/-- The activity of a technology in one mode over a year. -/
def modeActivity (region : String) (technology : Technology R) (mode : OperatingMode R)
    (year : String) : Lookup (LinearExpression R) :=
  .ofTerms <$> Noted.gather
    (fun timeslice => do
      ctx.term .activity [region, timeslice, technology.id, mode.id, year]
        (← ctx.yearSplit timeslice year))
    ctx.sets.timeslices

/-- The rate at which a technology takes or gives a commodity in a timeslice. -/
def commodityRate (flow : Flow) (region timeslice : String) (technology : Technology R)
    (commodity year : String) : Lookup (LinearExpression R) :=
  .ofTerms <$> Noted.gather
    (fun (mode : OperatingMode R) => do
      let ratios := match flow with
        | .input => mode.inputRatio
        | .output => mode.outputRatio
      let ratio ← ratios.lookup [region, commodity, year] 0
      if ratio == 0 then return []
      else ctx.term .activity [region, timeslice, technology.id, mode.id, year] ratio)
    technology.modes

variable [Mul R]

/-- The activity of a technology over a year, in all modes. -/
def annualActivity (region : String) (technology : Technology R) (year : String) :
    Lookup (LinearExpression R) := do
  let activities ← Noted.each (ctx.modeActivity region technology · year) technology.modes
  return .sum (activities.map (·, 1))

/-- The rate at which all technologies take or give a commodity in a timeslice. -/
def totalCommodityRate (flow : Flow) (region timeslice commodity year : String) :
    Lookup (LinearExpression R) := do
  let rates ← Noted.each (ctx.commodityRate flow region timeslice · commodity year)
    ctx.model.technologies
  return .sum (rates.map (·, 1))

/-- What is produced of a commodity in a timeslice. -/
def production (region timeslice commodity year : String) : Lookup (LinearExpression R) := do
  let rate ← ctx.totalCommodityRate .output region timeslice commodity year
  return rate.scaled (← ctx.yearSplit timeslice year)

/-- What is used of a commodity in a timeslice. -/
def use (region timeslice commodity year : String) : Lookup (LinearExpression R) := do
  let rate ← ctx.totalCommodityRate .input region timeslice commodity year
  return rate.scaled (← ctx.yearSplit timeslice year)

/-- What a region sends of a commodity in a timeslice, with what is lost on the way, less what it
receives. -/
def netTrade [Sub R] [Div R] [Neg R] (region timeslice commodity year : String) :
    Lookup (LinearExpression R) := do
  match ctx.tradeFor commodity with
  | none => return 0
  | some trade =>
    let terms ← Noted.gather
      (fun other => do
        let outgoing := [region, other, timeslice, commodity, year]
        let sent ← if ← ctx.has .exports outgoing then do
            let loss ← trade.loss.lookup [region, other, year] 0
            ctx.term .exports outgoing (1 / (1 - loss))
          else pure []
        let incoming := [other, region, timeslice, commodity, year]
        let received ← if ← ctx.has .exports incoming then
            ctx.term .exports incoming (-1)
          else pure []
        return sent ++ received)
      ctx.sets.regions
    return .ofTerms terms

/-- What is emitted of an impact over a year. -/
def annualEmissions (region impact year : String) : Lookup (LinearExpression R) := do
  let parts ← Noted.gather
    (fun (technology : Technology R) => Noted.gather
      (fun (mode : OperatingMode R) => do
        let ratio ← mode.emissionRatio.lookup [region, impact, year] 0
        if ratio == 0 then return []
        else return [(← ctx.modeActivity region technology mode year, ratio)])
      technology.modes)
    ctx.model.technologies
  return .sum parts

omit [Mul R] in
/-- The capacity of a storage in service in a year. -/
def grossStorage (region : String) (storage : Storage R) (year : String) :
    Lookup (LinearExpression R) := do
  let life ← storage.operatingLife.lookup [region] 1
  let residual ← storage.residualCapacity.lookup [region, year] 0
  let terms ← Noted.gather
    (fun built => ctx.term .newStorage [region, storage.id, built] 1)
    (ctx.sets.years.filter fun built => inService built year life)
  return (LinearExpression.ofConstant residual).addTerms terms

omit [Mul R] in
/-- The capacity of a route in service in a year; its life is that of the year it is built in. -/
def grossTrade (origin destination : String) (trade : Trade R) (year : String) :
    Lookup (LinearExpression R) := do
  let residual ← trade.residualCapacity.lookup [origin, destination, year] 0
  let terms ← Noted.gather
    (fun built => do
      let key := [origin, destination, trade.commodity, built]
      if ← ctx.has .newTrade key then
        let life ← trade.operatingLife.lookup [origin, destination, built] 1
        if inService built year life then ctx.term .newTrade key 1 else return []
      else return [])
    ctx.sets.years
  return (LinearExpression.ofConstant residual).addTerms terms

end Context

end EnergyPlan
