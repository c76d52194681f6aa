/-
# Looking things up

Values, variables and constraints are looked up by keys and names. Looking up under a
key that does not fit, or that holds nothing where something has to be, is noted as an
`IndexError`, and a substitute is used.

Key definitions: `Lookup`, `recover`.
-/
import EnergyPlan.Index.Dimension
import EnergyPlan.Noted

namespace EnergyPlan

/-- A value that was looked up, and the errors met on the way. -/
abbrev Lookup := Noted IndexError

/-- The value of a lookup that may fail, or a substitute. -/
def recover {α : Type} (substitute : α) : Except IndexError α → Lookup α
  | .ok a => pure a
  | .error e => ⟨substitute, [e]⟩

end EnergyPlan
