/-
# Reserve margins, renewable targets and production targets

Some commodities are tagged for a joint reserve margin: the capacity of the tagged
technologies covers the rate at which those commodities are produced, times the margin.
Some are tagged for a joint renewable target: the tagged technologies produce a share of
them. Both can be asked of a region and of a group of regions. A technology may have to
produce at least, or at most, a share of a commodity.

Key definitions: `marginSurplus`, `marginRule`, `renewableSurplus`, `renewableRule`,
`productionTargetRule`.
-/
import EnergyPlan.Program.Rule

namespace EnergyPlan

variable {R : Type} [Zero R] [One R] [Add R] [Sub R] [Mul R] [Neg R] [BEq R]

/-- The entities with a flag set at a key. -/
def flaggedAt {α : Type} (flags : α → Tensor Bool) (key : Key) (entities : List α) :
    Lookup (List α) :=
  Noted.gather
    (fun entity => do
      return if ← (flags entity).lookup key false then [entity] else [])
    entities

/-! ### Reserve margin -/

/-- The commodities that count for the reserve margin of a region. -/
def marginCommodities (ctx : Context R) (region year : String) : Lookup (List (Commodity R)) :=
  flaggedAt Commodity.inReserveMargin [region, year] ctx.model.commodities

/-- The capacity that counts for the reserve margin of a region, less the margin times the rate at
which commodities that count are produced. -/
def marginSurplus (ctx : Context R) (region timeslice year : String) (margin : R) :
    Lookup (LinearExpression R) := do
  let technologies ← flaggedAt Technology.inReserveMargin [region, year] ctx.model.technologies
  let capacity ← Noted.each
    (fun technology => do
      let gross ← ctx.grossCapacity region technology year
      return (gross, ← technology.capacityActivityRatio.lookup [region] 1))
    technologies
  let demand ← Noted.each
    (fun commodity => do
      return (← ctx.totalCommodityRate .output region timeslice commodity.id year, -margin))
    (← marginCommodities ctx region year)
  return .sum (capacity ++ demand)

/-- A region with commodities that count keeps its reserve margin. -/
def marginRule : ConstraintRule R where
  name := "RM3_ReserveMargin_Constraint"
  dimensions := [.region, .timeslice, .year]
  constraints ctx :=
    Noted.gather (fun region => Noted.gather
      (fun year => do
        if (← marginCommodities ctx region year).isEmpty then
          return []
        let margin ← ctx.model.reserveMargin.lookup [region, year] 1
        Noted.each
          (fun timeslice => do
            let surplus ← marginSurplus ctx region timeslice year margin
            return .of [region, timeslice, year] surplus .atLeast 0)
          ctx.sets.timeslices)
      ctx.sets.years) ctx.sets.regions

/-- The regions of a group in a year. -/
def groupRegions (ctx : Context R) (group : RegionGroup R) (year : String) :
    Lookup (List String) :=
  Noted.gather
    (fun region => do
      return if ← group.includes.lookup [region, year] false then [region] else [])
    ctx.sets.regions

/-- A group keeps its reserve margin over those of its regions that have commodities that count. -/
def groupMarginRule : ConstraintRule R where
  name := "RM3_ReserveMargin_RegionGroup"
  dimensions := [.regionGroup, .timeslice, .year]
  constraints ctx :=
    Noted.gather (fun (group : RegionGroup R) => Noted.gather
      (fun year => do
        match ← group.reserveMargin.lookup? [year] with
        | none => return []
        | some margin =>
          let regions ← Noted.gather
            (fun region => do
              return if (← marginCommodities ctx region year).isEmpty then [] else [region])
            (← groupRegions ctx group year)
          if regions.isEmpty then
            return []
          Noted.each
            (fun timeslice => do
              let parts ← Noted.each
                (fun region => do
                  return (← marginSurplus ctx region timeslice year margin, 1))
                regions
              return .of [group.id, timeslice, year] (.sum parts) .atLeast 0)
            ctx.sets.timeslices)
      ctx.sets.years) ctx.model.regionGroups

/-! ### Renewable target -/

/-- The commodities that count for the renewable target of a region. -/
def renewableCommodities (ctx : Context R) (region year : String) :
    Lookup (List (Commodity R)) :=
  flaggedAt Commodity.inRenewableTarget [region, year] ctx.model.commodities

/-- What technologies that count produce of the commodities that count, less a share of all that is
produced of them. -/
def renewableSurplus (ctx : Context R) (region year : String) (share : R) :
    Lookup (LinearExpression R) := do
  let parts ← Noted.gather
    (fun (commodity : Commodity R) => Noted.gather
      (fun timeslice => do
        let split ← ctx.yearSplit timeslice year
        let renewable ← Noted.each
          (fun technology => do
            return (← ctx.commodityRate .output region timeslice technology commodity.id year,
              split))
          (← flaggedAt Technology.inRenewableTarget [region, year] ctx.model.technologies)
        let production ← ctx.production region timeslice commodity.id year
        return renewable ++ [(production, -share)])
      ctx.sets.timeslices)
    (← renewableCommodities ctx region year)
  return .sum parts

/-- A region with commodities that count meets its renewable target. -/
def renewableRule : ConstraintRule R where
  name := "RE4_EnergyConstraint"
  dimensions := [.region, .year]
  constraints ctx := Noted.gather
    (fun (key, share) => do
      match key with
      | [region, year] =>
        if (← renewableCommodities ctx region year).isEmpty then
          return []
        return [.of key (← renewableSurplus ctx region year share) .atLeast 0]
      | _ => return [])
    ctx.model.renewableTarget.entries

/-- A group meets its renewable target if one of its regions has commodities that count. -/
def groupRenewableRule : ConstraintRule R where
  name := "RE4_EnergyConstraint_RegionGroup"
  dimensions := [.regionGroup, .year]
  constraints ctx := Noted.gather
    (fun (group : RegionGroup R) => Noted.gather
      (fun (key, share) => do
        match key with
        | [year] =>
          let regions ← groupRegions ctx group year
          let counting ← Noted.gather (renewableCommodities ctx · year) regions
          if counting.isEmpty then
            return []
          let parts ← Noted.each
            (fun region => do return (← renewableSurplus ctx region year share, 1)) regions
          return [.of [group.id, year] (.sum parts) .atLeast 0]
        | _ => return [])
      group.renewableTarget.entries)
    ctx.model.regionGroups

/-! ### Production target -/

/-- What a technology produces of a commodity over a year, less a share of all that is produced of
it. -/
def productionSurplus (ctx : Context R) (technology : Technology R)
    (region commodity year : String) (share : R) : Lookup (LinearExpression R) := do
  let parts ← Noted.gather
    (fun timeslice => do
      let rate ← ctx.commodityRate .output region timeslice technology commodity year
      let split ← ctx.yearSplit timeslice year
      let production ← ctx.production region timeslice commodity year
      return [(rate, split), (production, -share)])
    ctx.sets.timeslices
  return .sum parts

/-- A technology produces at least, or at most, its share of a commodity. -/
def productionTargetRule (name : String) (targets : Technology R → Tensor R)
    (relation : Relation) : ConstraintRule R where
  name
  dimensions := [.region, .technology, .commodity, .year]
  constraints ctx := Noted.gather
    (fun (technology : Technology R) => Noted.gather
      (fun (key, share) => do
        match key with
        | [region, commodity, year] =>
          let surplus ← productionSurplus ctx technology region commodity year share
          return [.of [region, technology.id, commodity, year] surplus relation 0]
        | _ => return [])
      (targets technology).entries)
    ctx.model.technologies

/-- The share of a technology in the production of a commodity is at least its target. -/
def productionTargetMinRule : ConstraintRule R :=
  productionTargetRule "PT1_ProductionTargetMin" Technology.productionTargetMin .atLeast

/-- The share of a technology in the production of a commodity is at most its target. -/
def productionTargetMaxRule : ConstraintRule R :=
  productionTargetRule "PT2_ProductionTargetMax" Technology.productionTargetMax .atMost

end EnergyPlan
