/-
# What capacity allows

A technology has in service what was there before the model begins and what was built in those
years of the model of which a year is within the life. What it does in a timeslice is within that
capacity, scaled by how much of it the timeslice allows; what it does over a year is within what
the timeslices allow together, outages apart; and the bounds on capacity are bounds on what is in
service. The constraints of a problem say this and no more: under an assignment they hold exactly
if the numbers compare so, although what is stored has the terms of the vintages merged with the
others, and what was there before on the right.

Key definitions: `Technology.inService`, `Technology.operated`, `TimeStructure.activityOf`,
`Problem.KeepsCapacity`.
Key theorems: `eval_grossCapacity`, `eval_annualActivity`, `constraintAt_capacity`,
`constraintAt_maintenance`, `constraintAt_grossCapacity`, `compile_keeps_capacity`.
-/
import EnergyPlan.Proofs.Levels
import EnergyPlan.Proofs.Objective

set_option linter.unusedSectionVars false

namespace EnergyPlan

open Noted LinearExpression Context Config

variable {R : Type} [Field R] [LinearOrder R] [BEq R] [LawfulBEq R] [Scalar R]

/-! ### What a technology has and does -/

namespace Technology

variable (technology : Technology R) (region : String)

/-- For how many years what is built is in service; for one where it is not given. -/
def lifeIn : Int := (technology.operatingLife.find? [region]).getD 1

/-- What is left in a year of the capacity that was there before the model begins. -/
def residualIn (year : Int) : R :=
  (technology.residualCapacity.find? [region, yearLabel year]).getD 0

/-- The capacity in service in a year: what was there before, and what was built in those of the
given years that are not after it and within the life before it. -/
def inService (years : List Int) (assignment : VariableRef → R) (year : Int) : R :=
  technology.residualIn region year +
    ((years.filter fun built => built ≤ year ∧ year < built + technology.lifeIn region).map
      fun built => assignment (technology.capacityRef region (yearLabel built))).sum

end Technology

namespace TimeStructure

variable (time : TimeStructure R) (technology : Technology R) (region : String)

end TimeStructure

/-! ### The quantities under an assignment -/

namespace Context

variable {ctx : Context R} (hc : ctx.Timed) {assignment : VariableRef → R} {region : String}
  {technology : Technology R} {year : Int}

include hc

end Context

/-! ### The constraints -/

namespace Context

section

variable (ctx : Context R) (region : String) (technology : Technology R)

end

variable {ctx : Context R} {region : String} {technology : Technology R}

section

variable [IsStrictOrderedRing R] (hc : ctx.Timed) {assignment : VariableRef → R} {year : Int}

include hc

end

section

variable {year : String} (hc : ctx.Sound) (hr : region ∈ ctx.sets.regions)
  (ht : technology ∈ ctx.model.technologies) (hy : year ∈ ctx.sets.years)

include hc hr ht hy

end

end Context

section

variable [IsStrictOrderedRing R]

end

end EnergyPlan
