/-
# Violations

A violation says what is wrong at one place of a configuration. Reading and
checking go on after a violation, so that everything wrong is reported at once:
a `Reading` is a value together with the violations met on the way to it.

Key definitions: `Violation`, `Reading`, `Violation.summary`.
-/
import EnergyPlan.Noted
import EnergyPlan.Text.Basic

namespace EnergyPlan

/-- Something wrong, and the path of where it is. -/
structure Violation where
  path : String
  message : String
deriving DecidableEq, Repr

/-- The message that lists several violations. -/
def Violation.summary (violations : List Violation) : String :=
  s!"Validation failed with {violations.length} violation(s):" ++
    String.join (violations.map fun v => "\n  - " ++ v.path ++ ": " ++ v.message)

/-- A value, and what was found wrong while reading it. -/
abbrev Reading := Noted Violation

namespace Reading

/-- Records a violation. -/
def report (path message : String) : Reading Unit := Noted.note ⟨path, message⟩

/-- Records a violation in the place of a value. -/
def reject {α : Type} (path message : String) : Reading (Option α) := ⟨none, [⟨path, message⟩]⟩

/-- Records a violation if something is wrong. -/
def reportIf (wrong : Bool) (path message : String) : Reading Unit :=
  if wrong then report path message else pure ()

end Reading

end EnergyPlan
