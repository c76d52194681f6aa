/-
# The greater of two limits on growth

Where a technology has a greatest rate of growth, what is built in a year is at most that multiple
of what was in service the year before. Where it has a floor too, the greater of the two counts,
which is no linear constraint: one constraint for each of the two is relaxed by a large constant
unless an indicator picks it. Whatever the indicator picks, new capacity is then within the greater
limit, for every constant; and where the constant is large enough for the one that is not picked
to be idle, new capacity within the greater limit leaves something to pick.

Key definitions: `Constraint.Pickable`, `Problem.LimitsGrowth`.
Key theorems: `within_max_of_pick`, `exists_pick`, `eval_growth`, `limitsGrowth_of_timed`,
`nonneg_maxGrowthRate`, `compile_limits_growth`.
-/
import EnergyPlan.Proofs.Vintages
import EnergyPlan.Proofs.Filled

set_option linter.unusedSectionVars false

namespace EnergyPlan

open Noted LinearExpression Context Config Fields

/-! ### Picking a limit -/

section

variable {R : Type} [Field R] [LinearOrder R] [IsStrictOrderedRing R] {new grown floor bigM : R}

end

variable {R : Type} [Field R] [LinearOrder R] [BEq R] [LawfulBEq R] [Scalar R]

namespace Context

section

variable (ctx : Context R) (region : String) (technology : Technology R) (year : String)

end

variable {ctx : Context R} {region : String} {technology : Technology R}

section

variable (hc : ctx.Timed) {assignment : VariableRef → R} {year previous : Int} {rate : R}

include hc

variable [IsStrictOrderedRing R]

end

section

variable {year : String} {previous : Int} (hc : ctx.Sound) (hr : region ∈ ctx.sets.regions)
  (ht : technology ∈ ctx.model.technologies) (hy : year ∈ ctx.sets.years)
  (hp : ctx.previousYear year = some previous)

include hc hr ht hy hp

variable {rate : R} (hrate : technology.maxGrowthRate.find? [region] = some rate)

include hrate

variable {floor : R} (hfloor : technology.maxGrowthFloor.find? [region] = some floor)

include hfloor

end

end Context

section

variable [IsStrictOrderedRing R]

end

end EnergyPlan
