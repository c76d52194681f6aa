/-
# Constraints on capacity

What a technology does in a timeslice is limited by its capacity in service, and what
it does in a year by its availability; new capacity may come in units of a fixed size
and, like the capacity in service, may be bounded. Growth limits tie new capacity to
the capacity in service the year before; where a floor is given too, an indicator
variable picks the greater of the two limits.

Key definitions: `capacityRule`, `maintenanceRule`, `growthBranchRule`, `floorBranchRule`.
-/
import EnergyPlan.Program.Rule

namespace EnergyPlan

/-- The dimensions of a constraint for each region, technology and year. -/
def annualDimensions : List Dimension := [.region, .technology, .year]

variable {R : Type} [Zero R] [One R] [Add R] [Sub R] [Mul R] [Neg R] [BEq R]

/-- Activity in a timeslice is within the capacity in service. -/
def capacityRule : ConstraintRule R where
  name := "CAa4_Constraint_Capacity"
  dimensions := [.region, .timeslice, .technology, .year]
  constraints ctx := ctx.perTechnologyYear fun region technology year => do
    let ratio ← technology.capacityActivityRatio.lookup [region] 1
    let gross ← ctx.grossCapacity region technology year
    Noted.each
      (fun timeslice => do
        let factor ← technology.capacityFactor.lookup [region, year, timeslice] 1
        let rate ← ctx.totalRate region timeslice technology year
        return .of [region, timeslice, technology.id, year]
          (rate.addScaled gross (-factor * ratio)) .atMost 0)
      ctx.sets.timeslices

/-- New capacity is a whole number of units. -/
def unitRule : ConstraintRule R where
  name := "CAa5_TotalNewCapacity"
  dimensions := annualDimensions
  constraints ctx := ctx.perTechnologyYear fun region technology year => do
    let key := [region, technology.id, year]
    if ← ctx.has .newUnits key then
      let capacity ← ctx.term .newCapacity key 1
      let units ← ctx.term .newUnits key (-(← technology.unitCapacity.require [region, year] 0))
      return [.of key (.ofTerms (capacity ++ units)) .equal 0]
    else return []

/-- The share of its capacity that a technology can use over a year, outages apart. -/
def availableShare (ctx : Context R) (region : String) (technology : Technology R)
    (year : String) : Lookup R :=
  ctx.sets.timeslices.foldlM
    (fun available timeslice => do
      let factor ← technology.capacityFactor.lookup [region, year, timeslice] 1
      return available + factor * (← ctx.yearSplit timeslice year))
    0

/-- Activity over a year is within what capacity and availability allow. -/
def maintenanceRule : ConstraintRule R where
  name := "CAb1_PlannedMaintenance"
  dimensions := annualDimensions
  constraints ctx := ctx.perTechnologyYear fun region technology year => do
    let ratio ← technology.capacityActivityRatio.lookup [region] 1
    let gross ← ctx.grossCapacity region technology year
    let available ← availableShare ctx region technology year
    let availability ← technology.availabilityFactor.lookup [region, year] 1
    let annual ← ctx.annualActivity region technology year
    return [.of [region, technology.id, year]
      (annual.addScaled gross (-available * availability * ratio)) .atMost 0]

/-- New capacity is within a bound. -/
def newCapacityRule (name : String) (bounds : Technology R → Tensor R) (relation : Relation) :
    ConstraintRule R where
  name
  dimensions := annualDimensions
  constraints ctx := ctx.perTechnologyYear fun region technology year => do
    let key := [region, technology.id, year]
    let added ← ctx.term .newCapacity key 1
    return boundBy key (.ofTerms added) relation (← (bounds technology).lookup? [region, year])

/-- The capacity added in a year is at most its upper bound. -/
def newCapacityMaxRule : ConstraintRule R :=
  newCapacityRule "NCC1_TotalAnnualMaxNewCapacityConstraint" Technology.additionalMax .atMost

/-- The capacity added in a year is at least its lower bound. -/
def newCapacityMinRule : ConstraintRule R :=
  newCapacityRule "NCC2_TotalAnnualMinNewCapacityConstraint" Technology.additionalMin .atLeast

/-- The capacity in service is within a bound. -/
def grossCapacityRule (name : String) (bounds : Technology R → Tensor R) (relation : Relation) :
    ConstraintRule R where
  name
  dimensions := annualDimensions
  constraints ctx := ctx.perTechnologyYear fun region technology year => do
    match ← (bounds technology).lookup? [region, year] with
    | none => return []
    | some bound =>
      let gross ← ctx.grossCapacity region technology year
      return [.of [region, technology.id, year] gross relation bound]

/-- The capacity in service in a year is at most its upper bound. -/
def grossCapacityMaxRule : ConstraintRule R :=
  grossCapacityRule "TCC1_TotalAnnualMaxCapacityConstraint" Technology.grossMax .atMost

/-- The capacity in service in a year is at least its lower bound. -/
def grossCapacityMinRule : ConstraintRule R :=
  grossCapacityRule "TCC2_TotalAnnualMinCapacityConstraint" Technology.grossMin .atLeast

/-! ### Growth -/

/-- New capacity less a multiple of the capacity in service the year before. -/
def growth (ctx : Context R) (region : String) (technology : Technology R) (year : String)
    (previous : Int) (rate : R) : Lookup (LinearExpression R) := do
  let added ← ctx.term .newCapacity [region, technology.id, year] 1
  let earlier ← ctx.grossCapacity region technology (yearLabel previous)
  return (LinearExpression.ofTerms added).addScaled earlier (-rate)

/-- The constraints for each region, technology and year with a year before it. -/
def perLaterYear (ctx : Context R)
    (rows : String → Technology R → String → Int → Lookup (List (Constraint R))) :
    Lookup (List (Constraint R)) :=
  ctx.perTechnologyYear fun region technology year =>
    match ctx.previousYear year with
    | none => pure []
    | some previous => rows region technology year previous

/-- Without a floor, new capacity is limited by the growth rate. -/
def maxGrowthRule : ConstraintRule R where
  name := "GR1_NewCapacityMaxGrowthRate"
  dimensions := annualDimensions
  constraints ctx := perLaterYear ctx fun region technology year previous => do
    match ← technology.maxGrowthRate.lookup? [region],
        ← technology.maxGrowthFloor.lookup? [region] with
    | some rate, none =>
      let grown ← growth ctx region technology year previous rate
      return [.of [region, technology.id, year] grown .atMost 0]
    | _, _ => return []

/-- Unless the floor is picked, new capacity is limited by the growth rate. -/
def growthBranchRule : ConstraintRule R where
  name := "GR2a_NewCapacityMaxGrowthRateBranch"
  dimensions := annualDimensions
  constraints ctx := perLaterYear ctx fun region technology year previous => do
    match ← technology.maxGrowthRate.lookup? [region],
        ← technology.maxGrowthFloor.lookup? [region] with
    | some rate, some _ =>
      let key := [region, technology.id, year]
      let grown ← growth ctx region technology year previous rate
      let selector ← ctx.term .growthFloor key (-ctx.bigM)
      return [.of key (grown.addTerms selector) .atMost 0]
    | _, _ => return []

/-- If the floor is picked, new capacity is limited by it. -/
def floorBranchRule : ConstraintRule R where
  name := "GR2b_NewCapacityMaxFloorBranch"
  dimensions := annualDimensions
  constraints ctx := perLaterYear ctx fun region technology year _ => do
    match ← technology.maxGrowthRate.lookup? [region],
        ← technology.maxGrowthFloor.lookup? [region] with
    | some _, some floor =>
      let key := [region, technology.id, year]
      let added ← ctx.term .newCapacity key 1
      let selector ← ctx.term .growthFloor key ctx.bigM
      return [.of key (.ofTerms (added ++ selector)) .atMost (floor + ctx.bigM)]
    | _, _ => return []

/-- New capacity keeps up with a least growth rate. -/
def minGrowthRule : ConstraintRule R where
  name := "GR3_NewCapacityMinGrowthRate"
  dimensions := annualDimensions
  constraints ctx := perLaterYear ctx fun region technology year previous => do
    match ← technology.minGrowthRate.lookup? [region] with
    | none => return []
    | some rate =>
      let grown ← growth ctx region technology year previous rate
      return [.of [region, technology.id, year] grown .atLeast 0]

end EnergyPlan
