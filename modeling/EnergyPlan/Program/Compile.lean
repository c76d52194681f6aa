/-
# Compiling a model

A model and its sets are compiled to an optimization problem: all families of
variables, all families of constraints, each one present even where it is empty, and
the cost of the model as the objective. A key that does not fit or a variable that does
not exist would end the compilation with the first such error.

Key definitions: `constraintRules`, `buildProblem`, `compile`.
-/
import EnergyPlan.Program.Activity
import EnergyPlan.Program.Cost
import EnergyPlan.Program.Route
import EnergyPlan.Program.Store
import EnergyPlan.Program.Target

namespace EnergyPlan

variable {R : Type} [Zero R] [One R] [Add R] [Sub R] [Mul R] [Div R] [Neg R] [BEq R] [LT R]
  [DecidableLT R]

/-- The rules of all families of constraints. -/
def constraintRules : List (ConstraintRule R) :=
  [capacityRule, unitRule, maintenanceRule, balanceRule, annualBalanceRule, newCapacityMaxRule,
    newCapacityMinRule, grossCapacityMaxRule, grossCapacityMinRule, annualActivityMaxRule,
    annualActivityMinRule, leastUseRule, totalActivityMaxRule, totalActivityMinRule, emissionRule,
    totalEmissionRule, marginRule, groupMarginRule, renewableRule, groupRenewableRule, chargeRule,
    dischargeRule, levelRule, dailyBalanceRule, annualBalanceOfStorageRule, upperLimitRule,
    lowerLimitRule, chargeLimitRule, dischargeLimitRule, routeCapacityRule, newRouteRule,
    maxGrowthRule, growthBranchRule, floorBranchRule, minGrowthRule, productionTargetMinRule,
    productionTargetMaxRule]

/-- The families of variables of a model, by name. -/
def variableTable (model : EnergyModel R) (sets : IndexSets) :
    Lookup (Std.ExtTreeMap String (VariableFamily R)) := do
  let families ← Noted.each (VariableGroup.family model sets) VariableGroup.all
  return families.foldl (fun table family => table.insert family.name family) ∅

/-- The families of constraints of a model, by name. -/
def constraintTable (ctx : Context R) : Lookup (Std.ExtTreeMap String (ConstraintFamily R)) := do
  let families ← Noted.each (ConstraintRule.family · ctx) constraintRules
  return families.foldl (fun table family => table.insert family.name family) ∅

variable [Scalar R]

/-- The problem of a model, and the errors met on the way. -/
def buildProblem (model : EnergyModel R) (sets : IndexSets) (bigM : R) : Lookup (Problem R) := do
  let unknowns ← variableTable model sets
  let ctx : Context R := ⟨model, sets, unknowns, bigM⟩
  let constraints ← constraintTable ctx
  let objective ← objective ctx
  return { unknowns, constraints, objective }

/-- The problem of a model. -/
def compile (model : EnergyModel R) (sets : IndexSets) (bigM : R) :
    Except IndexError (Problem R) :=
  (buildProblem model sets bigM).settled

end EnergyPlan
