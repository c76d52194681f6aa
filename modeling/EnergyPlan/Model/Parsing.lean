/-
# Reading entities

An entity is read from a mapping, field by field. Keys that are no fields of its kind
are violations, and so is a technology without operating modes. A trade whose routes
hold both ways takes the values of a route for the reverse one, unless it has its own,
before defaults are filled. Costs of capital that are not given are the region's
discount rate.

Key definitions: `parseTechnology`, `parseTrade`, `mirrorRoutes`, `parseModelFields`.
-/
import EnergyPlan.Fields.Reader
import EnergyPlan.Model.Entity

namespace EnergyPlan

open Config Fields

/-- Reads an entity from a mapping; anything else is a violation and leaves it `blank`. -/
def parseMapping {α : Type} (kind : EntityKind) (sets : MemberSets) (node : Node) (path : String)
    (blank : α) (extra : List String) (parse : Reader → Reading α) : Reading α :=
  if node.isMapping then do
    let reader : Reader := ⟨node, kind, path, sets⟩
    reader.rejectUnknown extra
    parse reader
  else ⟨blank, [⟨path, "must be a mapping"⟩]⟩

/-- Reads the fields that every entity starts with. -/
def parseHeading (reader : Reader) : Reading Heading := do
  let id ← reader.text "id"
  let longName ← reader.text "long_name"
  let description ← reader.text "description"
  return { id, longName, description }

/-- Reads a region. -/
def parseRegion (sets : MemberSets) (node : Node) (path : String) : Reading Region :=
  parseMapping .region sets node path {} [] fun reader => do
    return { toHeading := ← parseHeading reader }

section

variable {R : Type} [Zero R] [One R] [LT R] [DecidableLT R] [Scalar R]

/-- Reads a region group. -/
def parseRegionGroup (sets : MemberSets) (node : Node) (path : String) :
    Reading (RegionGroup R) :=
  parseMapping .regionGroup sets node path {} [] fun reader => do
    let heading ← parseHeading reader
    return {
      toHeading := heading
      includes := ← reader.filled convertFlag "include_in_region_group"
      reserveMargin := ← reader.filled convertReal "reserve_margin"
      renewableTarget := ← reader.filled convertReal "renewable_production_target" }

/-- Reads a commodity. -/
def parseCommodity (sets : MemberSets) (node : Node) (path : String) : Reading (Commodity R) :=
  parseMapping .commodity sets node path {} [] fun reader => do
    let heading ← parseHeading reader
    return {
      toHeading := heading
      demandAnnual := ← reader.filled convertReal "demand_annual"
      demandProfile := ← reader.filled convertReal "demand_profile"
      inRenewableTarget := ← reader.filled convertFlag "include_in_joint_renewable_target"
      inReserveMargin := ← reader.filled convertFlag "include_in_joint_reserve_margin" }

/-- Reads an impact. -/
def parseImpact (sets : MemberSets) (node : Node) (path : String) : Reading (Impact R) :=
  parseMapping .impact sets node path {} [] fun reader => do
    let heading ← parseHeading reader
    return {
      toHeading := heading
      limitAnnual := ← reader.filled convertReal "constraint_annual"
      limitTotal := ← reader.filled convertReal "constraint_total"
      exogenousAnnual := ← reader.filled convertReal "exogenous_annual"
      exogenousTotal := ← reader.filled convertReal "exogenous_total"
      penalty := ← reader.filled convertReal "penalty" }

/-- Reads an operating mode of a technology. -/
def parseOperatingMode (sets : MemberSets) (node : Node) (path : String) :
    Reading (OperatingMode R) :=
  parseMapping .operatingMode sets node path {} [] fun reader => do
    let heading ← parseHeading reader
    return {
      toHeading := heading
      opexVariable := ← reader.filled convertReal "opex_variable"
      inputRatio := ← reader.filled convertReal "input_activity_ratio"
      outputRatio := ← reader.filled convertReal "output_activity_ratio"
      emissionRatio := ← reader.filled convertReal "emission_activity_ratio"
      toStorage := ← reader.filled convertFlag "to_storage"
      fromStorage := ← reader.filled convertFlag "from_storage" }

/-- Reads the operating modes of a technology, of which there has to be one. -/
def parseModes (reader : Reader) : Reading (List (OperatingMode R)) := do
  let path := reader.fieldPath EntityKind.operatingMode.collection
  let nodes := ((reader.entity.entry? EntityKind.operatingMode.collection).getD .null).items
  Reading.reportIf nodes.isEmpty path "at least one operating mode is required"
  Noted.each
    (fun (node, i) => parseOperatingMode reader.sets node (Text.childPath path (node.label i)))
    nodes.zipIdx

/-- Reads a technology with its operating modes. -/
def parseTechnology (sets : MemberSets) (node : Node) (path : String) :
    Reading (Technology R) :=
  let modes := EntityKind.operatingMode.collection
  parseMapping .technology sets node path {} [modes] fun reader => do
    let heading ← parseHeading reader
    return {
      toHeading := heading
      operatingLife := ← reader.filled (convertWhole R) "operating_life"
      capex := ← reader.filled convertReal "capex"
      opexFixed := ← reader.filled convertReal "opex_fixed"
      residualCapacity := ← reader.filled convertReal "residual_capacity"
      capacityActivityRatio := ← reader.filled convertReal "capacity_activity_unit_ratio"
      availabilityFactor := ← reader.filled convertReal "availability_factor"
      capacityFactor := ← reader.filled convertReal "capacity_factor"
      unitCapacity := ← reader.filled convertReal "capacity_one_tech_unit"
      grossMax := ← reader.filled convertReal "capacity_gross_max"
      grossMin := ← reader.filled convertReal "capacity_gross_min"
      additionalMax := ← reader.filled convertReal "capacity_additional_max"
      additionalMin := ← reader.filled convertReal "capacity_additional_min"
      maxGrowthRate := ← reader.filled convertReal "capacity_additional_max_growth_rate"
      maxGrowthFloor := ← reader.filled convertReal "capacity_additional_max_floor"
      minGrowthRate := ← reader.filled convertReal "capacity_additional_min_growth_rate"
      capacityFactorMin := ← reader.filled convertReal "capacity_factor_annual_min"
      activityAnnualMax := ← reader.filled convertReal "activity_annual_max"
      activityAnnualMin := ← reader.filled convertReal "activity_annual_min"
      activityTotalMax := ← reader.filled convertReal "activity_total_max"
      activityTotalMin := ← reader.filled convertReal "activity_total_min"
      inReserveMargin := ← reader.filled convertFlag "include_in_joint_reserve_margin"
      inRenewableTarget := ← reader.filled convertFlag "include_in_joint_renewable_target"
      productionTargetMin := ← reader.filled convertReal "production_target_min"
      productionTargetMax := ← reader.filled convertReal "production_target_max"
      modes := ← parseModes reader }

/-- Reads a storage. -/
def parseStorage (sets : MemberSets) (node : Node) (path : String) : Reading (Storage R) :=
  parseMapping .storage sets node path {} [] fun reader => do
    let heading ← parseHeading reader
    return {
      toHeading := heading
      capex := ← reader.filled convertReal "capex"
      operatingLife := ← reader.filled (convertWhole R) "operating_life"
      minimumCharge := ← reader.filled convertReal "minimum_charge"
      initialLevel := ← reader.filled convertReal "initial_level"
      residualCapacity := ← reader.filled convertReal "residual_capacity"
      maxDischargeRate := ← reader.filled convertReal "max_discharge_rate"
      maxChargeRate := ← reader.filled convertReal "max_charge_rate"
      balanceDaily := ← reader.flag "balance_daily"
      balanceAnnual := ← reader.flag "balance_annual" }

/-- The key of the route in the other direction. -/
def reverseRoute : Key → Key
  | origin :: destination :: rest => destination :: origin :: rest
  | key => key

/-- Gives each route without a value the value of the reverse route. -/
def mirrorRoutes {α : Type} (tensor : Tensor α) : Tensor α :=
  tensor.entries.foldl
    (fun mirrored (key, value) => mirrored.insertNew (reverseRoute key) value) tensor

/-- Reads an indexed field of a trade: its entries, mirrored if routes hold both ways, and then its
default. -/
def parseRouteField {α : Type} (reader : Reader) (bothWays : Bool) (convert : Conversion α)
    (name : String) : Reading (Tensor α) := do
  let given ← reader.tensor convert name
  return reader.fill convert name (if bothWays then mirrorRoutes given else given)

/-- Reads a trade; its routes are mirrored where the configuration asks for it. -/
def parseTrade (sets : MemberSets) (node : Node) (path : String) : Reading (Trade R) :=
  parseMapping .trade sets node path {} [] fun reader => do
    let heading ← parseHeading reader
    let commodity ← reader.text "commodity"
    let bothWays ← reader.flag "construct_region_pairs"
    let reals := parseRouteField reader bothWays convertReal
    return {
      toHeading := heading, commodity, bothWays
      routes := ← parseRouteField reader bothWays convertFlag "trade_routes"
      loss := ← reals "trade_loss"
      residualCapacity := ← reals "residual_capacity"
      capex := ← reals "capex"
      operatingLife := ← parseRouteField reader bothWays (convertWhole R) "operating_life"
      additionalMax := ← reals "capacity_additional_max"
      costOfCapital := ← reals "cost_of_capital"
      capacityActivityRatio := ← reals "capacity_activity_unit_ratio" }

/-- Reads the depreciation methods of the regions. -/
def parseDepreciation (reader : Reader) : Reading (Tensor DepreciationMethod) := do
  let names ← reader.filled convertText "depreciation_method"
  names.entries.foldlM
    (fun methods (key, name) => do
      match DepreciationMethod.ofName? name with
      | some method => return methods.insert key method
      | none =>
        Reading.report (Text.childPath "depreciation_method" (key.headD ""))
          ("must be 'sinking-fund' or 'straight-line', found '" ++ name ++ "'")
        return methods)
    (.empty names.dimensions)

/-- Gives each key over the declared members that has no cost of capital the discount rate of its
region. -/
def fillRates (sets : MemberSets) (discountRate costs : Tensor R) : Tensor R :=
  (sets.product costs.dimensions).foldl
    (fun costs key =>
      match discountRate.find? (key.take 1) with
      | some rate => costs.insertNew key rate
      | none => costs)
    costs

/-- Reads the fields of the model as a whole. -/
def parseModelFields (sets : MemberSets) (root : Node) : Reading (ModelFields R) :=
  if root.isMapping then do
    let reader : Reader := ⟨root, .model, "", sets⟩
    let id ← reader.text "id"
    let longName ← reader.text "long_name"
    let description ← reader.text "description"
    let depreciation ← parseDepreciation reader
    let discountRate ← reader.filled convertReal "discount_rate"
    let costOfCapital ← reader.filled convertReal "cost_of_capital"
    let costOfCapitalStorage ← reader.filled convertReal "cost_of_capital_storage"
    let reserveMargin ← reader.filled convertReal "reserve_margin"
    let renewableTarget ← reader.filled convertReal "renewable_production_target"
    return {
      id, longName := if longName.isEmpty then id else longName, description
      depreciation, discountRate, reserveMargin, renewableTarget
      costOfCapital := fillRates sets discountRate costOfCapital
      costOfCapitalStorage := fillRates sets discountRate costOfCapitalStorage }
  else ⟨{}, [⟨"model", "must be a mapping"⟩]⟩

end

end EnergyPlan
