/-
# Discounting

Costs of different years are made comparable by discounting them to the first year of
the model: an investment at the start of its year, a running cost at the middle of its
year, what is left at the end of the horizon after the last year. A capital cost may be
turned into equal payments over a life and back. Capacity that outlives the horizon
keeps a fraction of its cost as salvage value.

Key definitions: `Discount.factor`, `Discount.annuity`, `Discount.salvageFraction`.
-/
import EnergyPlan.Model.Entity
import EnergyPlan.Scalar

namespace EnergyPlan.Discount

variable {R : Type} [One R] [Add R] [Scalar R]

/-- The factor for an investment at the start of a year. -/
def factor (rate : R) (year first : Int) : R := Scalar.power (1 + rate) (year - first)

/-- The factor for a cost over a year. -/
def factorMid (rate : R) (year first : Int) : R := Scalar.powerMid (1 + rate) (year - first)

/-- The factor for what is left after the last year. -/
def factorSalvage (rate : R) (first last : Int) : R := Scalar.power (1 + rate) (1 + last - first)

variable [Zero R] [Sub R] [Mul R] [Div R] [BEq R]

/-- The present value of a payment of one at the start of each year of a life. -/
def annuity (rate : R) (life : Int) : R :=
  if rate == 0 then Scalar.ofInt life
  else (1 - Scalar.power (1 + rate) (-life)) * (1 + rate) / rate

/-- The payment at the start of each year of a life that is worth a capital cost of one. -/
def capitalRecovery (rate : R) (life : Int) : R :=
  if rate == 0 then 1 / Scalar.ofInt life
  else (1 - Scalar.power (1 + rate) (-1)) / (1 - Scalar.power (1 + rate) (-life))

/-- The share of the cost of capacity built in a year that is left after the last year: by sinking
fund at a positive rate, in a straight line otherwise. -/
def salvageFraction [LT R] [DecidableLT R] (method : DepreciationMethod) (rate : R)
    (year life last : Int) : R :=
  if year + life - 1 ≤ last then 0
  else
    let used := last - year + 1
    if method = .sinkingFund ∧ 0 < rate then
      1 - (Scalar.power (1 + rate) used - 1) / (Scalar.power (1 + rate) life - 1)
    else 1 - Scalar.ofInt used / Scalar.ofInt life

end EnergyPlan.Discount
