/-
# The indexed fields of an entity, by name

Each entity lists its indexed fields under the names that a configuration uses for
them, in the order in which their keys are checked. A field's values are numbers,
whole numbers or truth values; of all of them the dimensions and keys can be asked.

Key definitions: `FieldValues`, `Technology.fieldValues`.
-/
import EnergyPlan.Model.Entity

namespace EnergyPlan

/-- The values of an indexed field. -/
inductive FieldValues (R : Type) where
  | reals (values : Tensor R)
  | wholes (values : Tensor Int)
  | flags (values : Tensor Bool)
  | methods (values : Tensor DepreciationMethod)

namespace FieldValues

variable {R : Type}

/-- The dimensions of the tensor of a field. -/
def dimensions : FieldValues R → List Dimension
  | reals values => values.dimensions
  | wholes values => values.dimensions
  | flags values => values.dimensions
  | methods values => values.dimensions

/-- The keys with a value, in their order. -/
def keys : FieldValues R → List Key
  | reals values => values.entries.map (·.1)
  | wholes values => values.entries.map (·.1)
  | flags values => values.entries.map (·.1)
  | methods values => values.entries.map (·.1)

end FieldValues

open FieldValues

variable {R : Type}

/-- The indexed fields of the model itself, by name. -/
def ModelFields.fieldValues (model : ModelFields R) : List (String × FieldValues R) :=
  [("depreciation_method", methods model.depreciation),
    ("discount_rate", reals model.discountRate),
    ("cost_of_capital", reals model.costOfCapital),
    ("cost_of_capital_storage", reals model.costOfCapitalStorage),
    ("reserve_margin", reals model.reserveMargin),
    ("renewable_production_target", reals model.renewableTarget)]

/-- The indexed fields of a region group, by name. -/
def RegionGroup.fieldValues (group : RegionGroup R) : List (String × FieldValues R) :=
  [("include_in_region_group", flags group.includes),
    ("reserve_margin", reals group.reserveMargin),
    ("renewable_production_target", reals group.renewableTarget)]

/-- The indexed fields of a commodity, by name. -/
def Commodity.fieldValues (commodity : Commodity R) : List (String × FieldValues R) :=
  [("demand_annual", reals commodity.demandAnnual),
    ("demand_profile", reals commodity.demandProfile),
    ("include_in_joint_renewable_target", flags commodity.inRenewableTarget),
    ("include_in_joint_reserve_margin", flags commodity.inReserveMargin)]

/-- The indexed fields of an impact, by name. -/
def Impact.fieldValues (impact : Impact R) : List (String × FieldValues R) :=
  [("constraint_annual", reals impact.limitAnnual),
    ("constraint_total", reals impact.limitTotal),
    ("exogenous_annual", reals impact.exogenousAnnual),
    ("exogenous_total", reals impact.exogenousTotal),
    ("penalty", reals impact.penalty)]

/-- The indexed fields of an operating mode, by name. -/
def OperatingMode.fieldValues (mode : OperatingMode R) : List (String × FieldValues R) :=
  [("input_activity_ratio", reals mode.inputRatio),
    ("output_activity_ratio", reals mode.outputRatio),
    ("emission_activity_ratio", reals mode.emissionRatio),
    ("to_storage", flags mode.toStorage),
    ("from_storage", flags mode.fromStorage),
    ("opex_variable", reals mode.opexVariable)]

/-- The fields of the technology itself, without those of its modes. -/
def Technology.fieldValues (technology : Technology R) : List (String × FieldValues R) :=
  [("production_target_min", reals technology.productionTargetMin),
    ("production_target_max", reals technology.productionTargetMax),
    ("operating_life", wholes technology.operatingLife),
    ("capex", reals technology.capex),
    ("opex_fixed", reals technology.opexFixed),
    ("residual_capacity", reals technology.residualCapacity),
    ("capacity_activity_unit_ratio", reals technology.capacityActivityRatio),
    ("availability_factor", reals technology.availabilityFactor),
    ("capacity_factor", reals technology.capacityFactor),
    ("capacity_one_tech_unit", reals technology.unitCapacity),
    ("capacity_gross_max", reals technology.grossMax),
    ("capacity_gross_min", reals technology.grossMin),
    ("capacity_additional_max", reals technology.additionalMax),
    ("capacity_additional_min", reals technology.additionalMin),
    ("capacity_additional_max_growth_rate", reals technology.maxGrowthRate),
    ("capacity_additional_max_floor", reals technology.maxGrowthFloor),
    ("capacity_additional_min_growth_rate", reals technology.minGrowthRate),
    ("capacity_factor_annual_min", reals technology.capacityFactorMin),
    ("activity_annual_max", reals technology.activityAnnualMax),
    ("activity_annual_min", reals technology.activityAnnualMin),
    ("activity_total_max", reals technology.activityTotalMax),
    ("activity_total_min", reals technology.activityTotalMin),
    ("include_in_joint_reserve_margin", flags technology.inReserveMargin),
    ("include_in_joint_renewable_target", flags technology.inRenewableTarget)]

/-- The indexed fields of a storage, by name. -/
def Storage.fieldValues (storage : Storage R) : List (String × FieldValues R) :=
  [("capex", reals storage.capex),
    ("operating_life", wholes storage.operatingLife),
    ("minimum_charge", reals storage.minimumCharge),
    ("initial_level", reals storage.initialLevel),
    ("residual_capacity", reals storage.residualCapacity),
    ("max_discharge_rate", reals storage.maxDischargeRate),
    ("max_charge_rate", reals storage.maxChargeRate)]

/-- The indexed fields of a trade, by name. -/
def Trade.fieldValues (trade : Trade R) : List (String × FieldValues R) :=
  [("trade_routes", flags trade.routes),
    ("trade_loss", reals trade.loss),
    ("residual_capacity", reals trade.residualCapacity),
    ("capex", reals trade.capex),
    ("operating_life", wholes trade.operatingLife),
    ("capacity_additional_max", reals trade.additionalMax),
    ("cost_of_capital", reals trade.costOfCapital),
    ("capacity_activity_unit_ratio", reals trade.capacityActivityRatio)]

end EnergyPlan
