/-
# Constraints on trade

What arrives over a route in a timeslice is within what its capacity in service can
deliver, losses deducted; new capacity of a route may be bounded.

Key definitions: `routeCapacityRule`, `newRouteRule`.
-/
import EnergyPlan.Program.Rule

namespace EnergyPlan

variable {R : Type} [Zero R] [One R] [Add R] [Sub R] [Mul R] [Neg R] [BEq R]

/-- The constraints for each trade on each of its routes in each year in which the route is open. -/
def perRouteYear (ctx : Context R)
    (rows : Trade R → String → String → String → Lookup (List (Constraint R))) :
    Lookup (List (Constraint R)) :=
  Noted.gather
    (fun (trade : Trade R) => Noted.gather
      (fun origin => Noted.gather
        (fun destination => Noted.gather
          (fun year => do
            if ← ctx.has .newTrade [origin, destination, trade.commodity, year] then
              rows trade origin destination year
            else return [])
          ctx.sets.years)
        ctx.sets.regions)
      ctx.sets.regions)
    ctx.model.trade

/-- What arrives is within what the capacity in service delivers. -/
def routeCapacityRule : ConstraintRule R where
  name := "TR1_TradeCapacity"
  dimensions := [.region, .linkedRegion, .timeslice, .commodity, .year]
  constraints ctx := perRouteYear ctx fun trade origin destination year => do
    let gross ← ctx.grossTrade origin destination trade year
    let loss ← trade.loss.lookup [origin, destination, year] 0
    let ratio ← trade.capacityActivityRatio.lookup [origin, destination] 1
    Noted.each
      (fun timeslice => do
        let key := [origin, destination, timeslice, trade.commodity, year]
        let arriving ← ctx.term .exports key 1
        let split ← ctx.yearSplit timeslice year
        return .of key
          ((LinearExpression.ofTerms arriving).addScaled gross (-((1 - loss) * ratio) * split))
          .atMost 0)
      ctx.sets.timeslices

/-- New capacity of a route is within a bound. -/
def newRouteRule : ConstraintRule R where
  name := "TR2_TradeCapacityMax"
  dimensions := [.region, .linkedRegion, .commodity, .year]
  constraints ctx := perRouteYear ctx fun trade origin destination year => do
    match ← trade.additionalMax.lookup? [origin, destination, year] with
    | none => return []
    | some bound =>
      let key := [origin, destination, trade.commodity, year]
      return [.of key (.ofTerms (← ctx.term .newTrade key 1)) .atMost bound]

end EnergyPlan
