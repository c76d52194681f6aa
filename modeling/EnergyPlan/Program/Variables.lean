/-
# The variables of a model

The decisions of a model are its variables: how technologies are operated in each
timeslice, what capacity is added when, how storage is charged and discharged, and what
is sent between regions. Rates of activity, charge and discharge are those of a whole
year; a rate times the share of a timeslice is the energy of that timeslice. An export
is what arrives at the importing region.

Key definitions: `VariableGroup`, `VariableGroup.keys`, `VariableGroup.family`.
-/
import EnergyPlan.Linear.Problem
import EnergyPlan.Model.IndexSets

namespace EnergyPlan

/-- The families of variables of a model. -/
inductive VariableGroup where
  | activity
  | newCapacity
  | newUnits
  /-- Whether the floor, and not the growth rate, limits the new capacity. -/
  | growthFloor
  | newStorage
  | storageLevel
  | charge
  | discharge
  | exports
  | newTrade
deriving DecidableEq, Repr

namespace VariableGroup

/-- The groups of variables of every problem. -/
def all : List VariableGroup :=
  [.activity, .newCapacity, .newUnits, .growthFloor, .newStorage, .storageLevel, .charge,
    .discharge, .exports, .newTrade]

/-- The name of the family of a group. -/
def name : VariableGroup → String
  | .activity => "RateOfActivity"
  | .newCapacity => "NewCapacity"
  | .newUnits => "NumberOfNewTechnologyUnits"
  | .growthFloor => "GrowthRateFloorIndicator"
  | .newStorage => "NewStorageCapacity"
  | .storageLevel => "StorageLevel"
  | .charge => "RateOfStorageCharge"
  | .discharge => "RateOfStorageDischarge"
  | .exports => "Export"
  | .newTrade => "NewTradeCapacity"

/-- The dimensions of the keys of a group. -/
def dimensions : VariableGroup → List Dimension
  | .activity => [.region, .timeslice, .technology, .mode, .year]
  | .newCapacity | .newUnits | .growthFloor => [.region, .technology, .year]
  | .newStorage => [.region, .storage, .year]
  | .storageLevel | .charge | .discharge => [.region, .storage, .timeslice, .year]
  | .exports => [.region, .linkedRegion, .timeslice, .commodity, .year]
  | .newTrade => [.region, .linkedRegion, .commodity, .year]

/-- The values that the variables of a group may take. -/
def kind : VariableGroup → VariableKind
  | .newUnits => .integer
  | .growthFloor => .binary
  | _ => .continuous

variable {R : Type}

section

variable (model : EnergyModel R) (sets : IndexSets)

/-- The keys of the rates of activity. -/
def activityKeys : List Key :=
  sets.regions.flatMap fun region => model.technologies.flatMap fun technology =>
    sets.years.flatMap fun year => sets.timeslices.flatMap fun timeslice =>
      technology.modes.map fun mode => [region, timeslice, technology.id, mode.id, year]

/-- The keys of a technology in a region and year that a condition picks. -/
def technologyKeys (picked : String → Technology R → String → Lookup Bool) :
    Lookup (List Key) :=
  Noted.gather
    (fun region => Noted.gather
      (fun technology => Noted.gather
        (fun year => do
          return if ← picked region technology year then [[region, technology.id, year]] else [])
        sets.years)
      model.technologies)
    sets.regions

/-- Whether the new capacity of a technology comes in units of a fixed size. -/
def inUnits [Zero R] [LT R] [DecidableLT R] (region : String) (technology : Technology R)
    (year : String) : Lookup Bool := do
  return decide (0 < (← technology.unitCapacity.lookup [region, year] 0))

/-- Whether the growth of a technology is limited by the greater of a rate and a floor. -/
def growthIsFloored (region : String) (technology : Technology R) (year : String) :
    Lookup Bool := do
  let hasRate ← technology.maxGrowthRate.has [region]
  let hasFloor ← technology.maxGrowthFloor.has [region]
  return hasRate && hasFloor && (model.time.previousYear (yearOf year)).isSome

/-- The keys of the capacity that storages add. -/
def newStorageKeys : List Key :=
  sets.regions.flatMap fun region => model.storage.flatMap fun storage =>
    sets.years.map fun year => [region, storage.id, year]

/-- The keys of what storages do in a timeslice. -/
def storageKeys : List Key :=
  sets.regions.flatMap fun region => model.storage.flatMap fun storage =>
    sets.years.flatMap fun year => sets.timeslices.map fun timeslice =>
      [region, storage.id, timeslice, year]

/-- The keys that a trade has for each of its routes in each year in which the route is open. -/
def routeKeys (keys : String → String → String → String → List Key) : Lookup (List Key) :=
  Noted.gather
    (fun (trade : Trade R) => Noted.gather
      (fun origin => Noted.gather
        (fun destination => Noted.gather
          (fun year => do
            return if ← trade.isActive origin destination year then
              keys origin destination trade.commodity year
            else [])
          sets.years)
        sets.regions)
      sets.regions)
    model.trade

/-- The keys of the variables of a family. -/
def keys [Zero R] [LT R] [DecidableLT R] : VariableGroup → Lookup (List Key)
  | .activity => pure (activityKeys model sets)
  | .newCapacity => technologyKeys model sets fun _ _ _ => pure true
  | .newUnits => technologyKeys model sets inUnits
  | .growthFloor => technologyKeys model sets (growthIsFloored model)
  | .newStorage => pure (newStorageKeys model sets)
  | .storageLevel | .charge | .discharge => pure (storageKeys model sets)
  | .exports =>
    routeKeys model sets fun origin destination commodity year =>
      sets.timeslices.map fun timeslice => [origin, destination, timeslice, commodity, year]
  | .newTrade =>
    routeKeys model sets fun origin destination commodity year =>
      [[origin, destination, commodity, year]]

/-- A family of variables; they are not negative. -/
def family [Zero R] [One R] [LT R] [DecidableLT R] (group : VariableGroup) :
    Lookup (VariableFamily R) := do
  let keys ← group.keys model sets
  keys.foldlM (fun family key => family.add key ⟨0, none⟩)
    ⟨group.name, group.dimensions, group.kind, ∅⟩

end

end VariableGroup

end EnergyPlan
