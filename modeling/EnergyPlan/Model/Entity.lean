/-
# The entities of an energy model

A model consists of regions and groups of them, commodities that carry energy,
impacts such as emissions, technologies that convert commodities in operating modes,
storage, and trade between regions. Entities name each other by their ids only. Their
indexed fields are sparse tensors: a field that is not given has no entries.

Key definitions: `Commodity`, `Technology`, `Trade`, `EnergyModel`,
`Technology.produces`, `Trade.isActive`.
-/
import EnergyPlan.Fields.Schema
import EnergyPlan.Time.Structure

namespace EnergyPlan

/-- What every entity has. -/
structure Heading where
  id : String := ""
  longName : String := ""
  description : String := ""

/-- A part of the modelled area, with nothing of its own but its heading. -/
structure Region extends Heading

/-- Regions that share a reserve margin or a renewable target. -/
structure RegionGroup (R : Type) extends Heading where
  includes : Tensor Bool := .empty [.region, .year]
  reserveMargin : Tensor R := .empty [.year]
  renewableTarget : Tensor R := .empty [.year]

/-- An energy carrier. With a demand profile its demand is met in each timeslice, with an annual
demand alone over the year. -/
structure Commodity (R : Type) extends Heading where
  demandAnnual : Tensor R := .empty [.region, .year]
  demandProfile : Tensor R := .empty [.region, .year, .timeslice]
  inRenewableTarget : Tensor Bool := .empty [.region, .year]
  inReserveMargin : Tensor Bool := .empty [.region, .year]

/-- An emission or another side effect, which may be limited or have a price. -/
structure Impact (R : Type) extends Heading where
  limitAnnual : Tensor R := .empty [.region, .year]
  limitTotal : Tensor R := .empty [.region]
  exogenousAnnual : Tensor R := .empty [.region, .year]
  exogenousTotal : Tensor R := .empty [.region]
  penalty : Tensor R := .empty [.region, .year]

/-- A way to operate a technology: what it takes and gives for each unit of activity. -/
structure OperatingMode (R : Type) extends Heading where
  opexVariable : Tensor R := .empty [.region, .year]
  inputRatio : Tensor R := .empty [.region, .commodity, .year]
  outputRatio : Tensor R := .empty [.region, .commodity, .year]
  emissionRatio : Tensor R := .empty [.region, .impact, .year]
  toStorage : Tensor Bool := .empty [.region, .storage]
  fromStorage : Tensor Bool := .empty [.region, .storage]

/-- A conversion process with its capacity, its costs and its operating modes. -/
structure Technology (R : Type) extends Heading where
  operatingLife : Tensor Int := .empty [.region]
  capex : Tensor R := .empty [.region, .year]
  opexFixed : Tensor R := .empty [.region, .year]
  residualCapacity : Tensor R := .empty [.region, .year]
  capacityActivityRatio : Tensor R := .empty [.region]
  availabilityFactor : Tensor R := .empty [.region, .year]
  capacityFactor : Tensor R := .empty [.region, .year, .timeslice]
  unitCapacity : Tensor R := .empty [.region, .year]
  grossMax : Tensor R := .empty [.region, .year]
  grossMin : Tensor R := .empty [.region, .year]
  additionalMax : Tensor R := .empty [.region, .year]
  additionalMin : Tensor R := .empty [.region, .year]
  maxGrowthRate : Tensor R := .empty [.region]
  maxGrowthFloor : Tensor R := .empty [.region]
  minGrowthRate : Tensor R := .empty [.region]
  capacityFactorMin : Tensor R := .empty [.region, .year]
  activityAnnualMax : Tensor R := .empty [.region, .year]
  activityAnnualMin : Tensor R := .empty [.region, .year]
  activityTotalMax : Tensor R := .empty [.region]
  activityTotalMin : Tensor R := .empty [.region]
  inReserveMargin : Tensor Bool := .empty [.region, .year]
  inRenewableTarget : Tensor Bool := .empty [.region, .year]
  productionTargetMin : Tensor R := .empty [.region, .commodity, .year]
  productionTargetMax : Tensor R := .empty [.region, .commodity, .year]
  modes : List (OperatingMode R) := []

/-- A store of energy, charged and discharged by the modes that are tied to it. -/
structure Storage (R : Type) extends Heading where
  capex : Tensor R := .empty [.region, .year]
  operatingLife : Tensor Int := .empty [.region]
  minimumCharge : Tensor R := .empty [.region, .year]
  initialLevel : Tensor R := .empty [.region]
  residualCapacity : Tensor R := .empty [.region, .year]
  maxDischargeRate : Tensor R := .empty [.region]
  maxChargeRate : Tensor R := .empty [.region]
  /-- Whether the level returns to where it was in every day type. -/
  balanceDaily : Bool := false
  /-- Whether the level returns to where it was in every year. -/
  balanceAnnual : Bool := false

/-- The transport of a commodity over routes between regions; a key of a route has the exporting
region first. -/
structure Trade (R : Type) extends Heading where
  commodity : String := ""
  routes : Tensor Bool := .empty [.region, .linkedRegion, .year]
  loss : Tensor R := .empty [.region, .linkedRegion, .year]
  residualCapacity : Tensor R := .empty [.region, .linkedRegion, .year]
  capex : Tensor R := .empty [.region, .linkedRegion, .year]
  operatingLife : Tensor Int := .empty [.region, .linkedRegion, .year]
  additionalMax : Tensor R := .empty [.region, .linkedRegion, .year]
  costOfCapital : Tensor R := .empty [.region, .linkedRegion]
  capacityActivityRatio : Tensor R := .empty [.region, .linkedRegion]
  /-- Whether what is given for a route holds in both directions. -/
  bothWays : Bool := false

/-- How the value of capacity falls over its life. -/
inductive DepreciationMethod where
  | sinkingFund
  | straightLine
deriving DecidableEq, Repr

namespace DepreciationMethod

/-- How a method of depreciation is called in a configuration. -/
def name : DepreciationMethod → String
  | .sinkingFund => "sinking-fund"
  | .straightLine => "straight-line"

/-- The method of a name. -/
def ofName? (name : String) : Option DepreciationMethod :=
  [sinkingFund, straightLine].find? fun method => method.name == name

end DepreciationMethod

/-- The fields of a model as a whole. -/
structure ModelFields (R : Type) extends Heading where
  depreciation : Tensor DepreciationMethod := .empty [.region]
  discountRate : Tensor R := .empty [.region]
  costOfCapital : Tensor R := .empty [.region, .technology]
  costOfCapitalStorage : Tensor R := .empty [.region, .storage]
  reserveMargin : Tensor R := .empty [.region, .year]
  renewableTarget : Tensor R := .empty [.region, .year]

/-- A model: its own fields, its time structure, and its entities. -/
structure EnergyModel (R : Type) extends ModelFields R where
  time : TimeStructure R
  regions : List Region := []
  regionGroups : List (RegionGroup R) := []
  commodities : List (Commodity R) := []
  impacts : List (Impact R) := []
  technologies : List (Technology R) := []
  storage : List (Storage R) := []
  trade : List (Trade R) := []

section

variable {R : Type}

/-- Whether some mode of a technology has the commodity as an output somewhere. -/
def Technology.produces [Zero R] [LT R] [DecidableLT R] (technology : Technology R)
    (commodity : String) : Bool :=
  technology.modes.any fun mode =>
    mode.outputRatio.entries.any fun (key, ratio) =>
      key[1]? == some commodity && decide (0 < ratio)

/-- Whether a route is open in a year; no region trades with itself. -/
def Trade.isActive (trade : Trade R) (origin destination year : String) : Lookup Bool :=
  if origin = destination then pure false
  else trade.routes.lookup [origin, destination, year] false

namespace EnergyModel

/-- The first entity with an id. -/
def findById {α : Type} (heading : α → Heading) (kind : EntityKind) (id : String)
    (entities : List α) : Except IndexError α :=
  match entities.find? fun e => (heading e).id == id with
  | some e => .ok e
  | none => .error (.noEntity kind.name id)

/-- The technology of an id. -/
def technology (model : EnergyModel R) (id : String) : Except IndexError (Technology R) :=
  findById Technology.toHeading .technology id model.technologies

/-- The commodity of an id. -/
def commodity (model : EnergyModel R) (id : String) : Except IndexError (Commodity R) :=
  findById Commodity.toHeading .commodity id model.commodities

/-- The storage of an id. -/
def storageUnit (model : EnergyModel R) (id : String) : Except IndexError (Storage R) :=
  findById Storage.toHeading .storage id model.storage

end EnergyModel

end

end EnergyPlan
