/-
# Solutions

A solver says how it ended and may report values of variables, by family and key. The
value of a variable that was reported twice is the later one.

Key definitions: `SolveStatus`, `Solution`, `Solution.value?`.
Key theorems: `value?_report_self`.
-/
import EnergyPlan.Linear.Expression

namespace EnergyPlan

/-- How a solver ended. -/
inductive SolveStatus where
  | optimal
  | infeasible
  | unbounded
  | solverError
deriving DecidableEq, Repr

namespace SolveStatus

/-- The statuses a solver may end with. -/
def all : List SolveStatus := [.optimal, .infeasible, .unbounded, .solverError]

/-- How a status is called in reports. -/
def name : SolveStatus → String
  | .optimal => "optimal"
  | .infeasible => "infeasible"
  | .unbounded => "unbounded"
  | .solverError => "solver error"

/-- The status of a name. -/
def ofName? (name : String) : Option SolveStatus := all.find? fun status => status.name == name

end SolveStatus

/-- What a solver reports. -/
structure Solution (R : Type) where
  status : SolveStatus := .solverError
  values : Std.ExtTreeMap VariableRef R := ∅

namespace Solution

variable {R : Type}

/-- Whether the solver found an optimum. -/
def optimal (solution : Solution R) : Bool := solution.status == .optimal

/-- The value of a variable, if it was reported. -/
def value? (solution : Solution R) (v : VariableRef) : Option R := solution.values[v]?

/-- Adds the value of a variable. -/
def report (solution : Solution R) (v : VariableRef) (value : R) : Solution R :=
  { solution with values := solution.values.insert v value }

/-- A value is found as it was reported. -/
theorem value?_report_self (solution : Solution R) (v : VariableRef) (value : R) :
    (solution.report v value).value? v = some value := by
  simp [report, value?]

end Solution

end EnergyPlan
