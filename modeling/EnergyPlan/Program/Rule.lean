/-
# Families of constraints

A rule yields the constraints of one family: at each index where it applies, a
comparison of a quantity with a number. Where two constraints of a family have one
index, the later one counts.

Key definitions: `ConstraintRule`, `ConstraintRule.family`.
-/
import EnergyPlan.Program.Quantity

namespace EnergyPlan

/-- A family of constraints: its name, its dimensions, and its constraints for a model. -/
structure ConstraintRule (R : Type) where
  name : String
  dimensions : List Dimension
  constraints : Context R → Lookup (List (Constraint R))

/-- The family that a rule yields for a model. -/
def ConstraintRule.family {R : Type} (rule : ConstraintRule R) (ctx : Context R) :
    Lookup (ConstraintFamily R) := do
  let constraints ← rule.constraints ctx
  constraints.foldlM ConstraintFamily.add ⟨rule.name, rule.dimensions, ∅⟩

namespace Context

variable {R : Type} (ctx : Context R)

/-- The constraints for each region and technology. -/
def perTechnology (rows : String → Technology R → Lookup (List (Constraint R))) :
    Lookup (List (Constraint R)) :=
  Noted.gather (fun region => Noted.gather (rows region) ctx.model.technologies) ctx.sets.regions

/-- The constraints for each region, technology and year. -/
def perTechnologyYear (rows : String → Technology R → String → Lookup (List (Constraint R))) :
    Lookup (List (Constraint R)) :=
  ctx.perTechnology fun region technology => Noted.gather (rows region technology) ctx.sets.years

end Context

section

variable {R : Type} [Zero R] [Add R] [Sub R] [BEq R]

/-- A constraint if there is a bound. -/
def boundBy (index : Key) (expression : LinearExpression R) (relation : Relation)
    (bound : Option R) : List (Constraint R) :=
  match bound with
  | some rhs => [.of index expression relation rhs]
  | none => []

end

end EnergyPlan
