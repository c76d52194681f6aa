/-
# The fields of the entities

Every kind of entity has a fixed list of fields. A field without dimensions is a
single value; an indexed field has a value for each key over its dimensions. A
field may be required, or have a default, written as configuration text and
filled in wherever the configuration gives no value.

Key definitions: `EntityKind`, `FieldKind`, `FieldSpec`, `EntityKind.fields`.
Key theorems: `field_nodup`.
-/
import EnergyPlan.Index.Dimension

namespace EnergyPlan

/-- The kinds of entities. -/
inductive EntityKind where
  | region
  | regionGroup
  | commodity
  | impact
  | technology
  | operatingMode
  | storage
  | trade
  | model
deriving DecidableEq, Repr

/-- Which texts a field accepts. -/
inductive FieldKind where
  /-- Any number. -/
  | real
  /-- A number that is not negative. -/
  | nonNegative
  /-- A number from 0 to 1. -/
  | fraction
  /-- A whole number from 1 on. -/
  | integer
  /-- True or false. -/
  | flag
  /-- Any text. -/
  | text
deriving DecidableEq, Repr

/-- A field: its name, dimensions and kind, whether it is required, and its default. -/
structure FieldSpec where
  name : String
  dimensions : List Dimension
  kind : FieldKind
  required : Bool := false
  standard : Option String := none
deriving DecidableEq, Repr

namespace FieldKind

/-- How a kind of value is called in reports. -/
def name : FieldKind → String
  | .real => "Real"
  | .nonNegative => "NonNegative"
  | .fraction => "Fraction"
  | .integer => "Integer"
  | .flag => "Boolean"
  | .text => "Text"

end FieldKind

namespace FieldSpec

/-- A field that has to be given. -/
def needed (name : String) (dimensions : List Dimension) (kind : FieldKind) : FieldSpec :=
  ⟨name, dimensions, kind, true, none⟩

/-- A field that may be left out. -/
def free (name : String) (dimensions : List Dimension) (kind : FieldKind) : FieldSpec :=
  ⟨name, dimensions, kind, false, none⟩

/-- A field with a default. -/
def filled (name : String) (dimensions : List Dimension) (kind : FieldKind) (standard : String) :
    FieldSpec :=
  ⟨name, dimensions, kind, false, some standard⟩

/-- The fields that every listed entity starts with. -/
def headings : List FieldSpec :=
  [needed "id" [] .text, free "long_name" [] .text, free "description" [] .text]

end FieldSpec

namespace EntityKind

open FieldSpec

/-- The name of the kind in messages. -/
def name : EntityKind → String
  | .region => "region"
  | .regionGroup => "region group"
  | .commodity => "commodity"
  | .impact => "impact"
  | .technology => "technology"
  | .operatingMode => "operating mode"
  | .storage => "storage"
  | .trade => "trade"
  | .model => "model"

/-- The key of the list that holds the entities of the kind; the model is the tree itself. -/
def collection : EntityKind → String
  | .region => "regions"
  | .regionGroup => "region_groups"
  | .commodity => "commodities"
  | .impact => "impacts"
  | .technology => "technologies"
  | .operatingMode => "operating_modes"
  | .storage => "storage"
  | .trade => "trade"
  | .model => ""

/-- The kinds with a list of their own at the top of a configuration, in their order there. -/
def listed : List EntityKind :=
  [.region, .regionGroup, .commodity, .impact, .technology, .storage, .trade]

/-- The fields of a region group. -/
def regionGroupFields : List FieldSpec :=
  headings ++
    [filled "include_in_region_group" [.region, .year] .flag "false",
      free "reserve_margin" [.year] .nonNegative,
      free "renewable_production_target" [.year] .fraction]

/-- The fields of a commodity. -/
def commodityFields : List FieldSpec :=
  headings ++
    [free "demand_annual" [.region, .year] .nonNegative,
      free "demand_profile" [.region, .year, .timeslice] .fraction,
      filled "include_in_joint_renewable_target" [.region, .year] .flag "false",
      filled "include_in_joint_reserve_margin" [.region, .year] .flag "false"]

/-- The fields of an impact. -/
def impactFields : List FieldSpec :=
  headings ++
    [free "constraint_annual" [.region, .year] .real,
      free "constraint_total" [.region] .real,
      free "exogenous_annual" [.region, .year] .real,
      free "exogenous_total" [.region] .real,
      free "penalty" [.region, .year] .real]

/-- The fields of a technology, its operating modes apart. -/
def technologyFields : List FieldSpec :=
  headings ++
    [filled "operating_life" [.region] .integer "1",
      filled "capex" [.region, .year] .nonNegative "0.00001",
      filled "opex_fixed" [.region, .year] .nonNegative "0",
      filled "residual_capacity" [.region, .year] .nonNegative "0",
      filled "capacity_activity_unit_ratio" [.region] .nonNegative "1",
      filled "availability_factor" [.region, .year] .fraction "1",
      filled "capacity_factor" [.region, .year, .timeslice] .fraction "1",
      free "capacity_one_tech_unit" [.region, .year] .nonNegative,
      free "capacity_gross_max" [.region, .year] .nonNegative,
      free "capacity_gross_min" [.region, .year] .nonNegative,
      free "capacity_additional_max" [.region, .year] .nonNegative,
      free "capacity_additional_min" [.region, .year] .nonNegative,
      free "capacity_additional_max_growth_rate" [.region] .nonNegative,
      free "capacity_additional_max_floor" [.region] .nonNegative,
      free "capacity_additional_min_growth_rate" [.region] .nonNegative,
      free "capacity_factor_annual_min" [.region, .year] .fraction,
      free "activity_annual_max" [.region, .year] .nonNegative,
      free "activity_annual_min" [.region, .year] .nonNegative,
      free "activity_total_max" [.region] .nonNegative,
      free "activity_total_min" [.region] .nonNegative,
      filled "include_in_joint_reserve_margin" [.region, .year] .flag "false",
      filled "include_in_joint_renewable_target" [.region, .year] .flag "false",
      free "production_target_min" [.region, .commodity, .year] .fraction,
      free "production_target_max" [.region, .commodity, .year] .fraction]

/-- The fields of an operating mode. -/
def operatingModeFields : List FieldSpec :=
  headings ++
    [filled "opex_variable" [.region, .year] .real "0.00001",
      free "input_activity_ratio" [.region, .commodity, .year] .nonNegative,
      free "output_activity_ratio" [.region, .commodity, .year] .nonNegative,
      free "emission_activity_ratio" [.region, .impact, .year] .real,
      free "to_storage" [.region, .storage] .flag,
      free "from_storage" [.region, .storage] .flag]

/-- The fields of a storage. -/
def storageFields : List FieldSpec :=
  headings ++
    [needed "capex" [.region, .year] .nonNegative,
      needed "operating_life" [.region] .integer,
      filled "minimum_charge" [.region, .year] .fraction "0",
      filled "initial_level" [.region] .nonNegative "0",
      filled "residual_capacity" [.region, .year] .nonNegative "0",
      free "max_discharge_rate" [.region] .nonNegative,
      free "max_charge_rate" [.region] .nonNegative,
      filled "balance_daily" [] .flag "false",
      filled "balance_annual" [] .flag "false"]

/-- The fields of a trade. -/
def tradeFields : List FieldSpec :=
  headings ++
    [needed "commodity" [] .text,
      needed "trade_routes" [.region, .linkedRegion, .year] .flag,
      filled "trade_loss" [.region, .linkedRegion, .year] .fraction "0.00001",
      filled "residual_capacity" [.region, .linkedRegion, .year] .nonNegative "0",
      filled "capex" [.region, .linkedRegion, .year] .nonNegative "0.00001",
      filled "operating_life" [.region, .linkedRegion, .year] .integer "1",
      free "capacity_additional_max" [.region, .linkedRegion, .year] .nonNegative,
      free "cost_of_capital" [.region, .linkedRegion] .fraction,
      filled "capacity_activity_unit_ratio" [.region, .linkedRegion] .nonNegative "1",
      filled "construct_region_pairs" [] .flag "false"]

/-- The fields of the model as a whole. -/
def modelFields : List FieldSpec :=
  [needed "id" [] .text,
    free "long_name" [] .text,
    filled "description" [] .text "No description provided.",
    filled "depreciation_method" [.region] .text "sinking-fund",
    filled "discount_rate" [.region] .fraction "0.05",
    free "cost_of_capital" [.region, .technology] .fraction,
    free "cost_of_capital_storage" [.region, .storage] .fraction,
    filled "reserve_margin" [.region, .year] .nonNegative "1",
    free "renewable_production_target" [.region, .year] .fraction]

/-- The fields of a kind of entity, in their order. -/
def fields : EntityKind → List FieldSpec
  | .region => headings
  | .regionGroup => regionGroupFields
  | .commodity => commodityFields
  | .impact => impactFields
  | .technology => technologyFields
  | .operatingMode => operatingModeFields
  | .storage => storageFields
  | .trade => tradeFields
  | .model => modelFields

/-- The fields with dimensions. -/
def indexedFields (kind : EntityKind) : List FieldSpec :=
  kind.fields.filter fun spec => !spec.dimensions.isEmpty

/-- The field of a name. -/
def field? (kind : EntityKind) (name : String) : Option FieldSpec :=
  kind.fields.find? fun spec => spec.name == name

/-- The field of a name, which the kind has to have. -/
def field (kind : EntityKind) (name : String) : Except IndexError FieldSpec :=
  match kind.field? name with
  | some spec => .ok spec
  | none => .error (.noField name kind.name)

/-- No kind has two fields of one name. -/
theorem field_nodup (kind : EntityKind) : (kind.fields.map FieldSpec.name).Nodup := by
  cases kind <;> decide +kernel

end EntityKind

end EnergyPlan
