/-
# Optimization problems

A problem has families of variables and families of constraints, each over some
dimensions and with one member for a key, and a linear objective to minimize. A
variable has bounds; a constraint is a linear expression without a constant, a
relation and a number. A key that does not fit the dimensions of a family is an
error.

Key definitions: `VariableFamily`, `Constraint`, `ConstraintFamily`, `Problem`.
-/
import EnergyPlan.Index.Lookup
import EnergyPlan.Linear.Expression

namespace EnergyPlan

/-- Which values a variable takes. -/
inductive VariableKind where
  | continuous
  | integer
  | binary
deriving DecidableEq, Repr

namespace VariableKind

/-- The kinds of variables. -/
def all : List VariableKind := [.continuous, .integer, .binary]

/-- How a kind of variable is called in reports. -/
def name : VariableKind → String
  | .continuous => "continuous"
  | .integer => "integer"
  | .binary => "binary"

end VariableKind

/-- The bounds of a variable; without an upper one it grows without limit. -/
structure Bounds (R : Type) where
  lower : R
  upper : Option R

/-- How the two sides of a constraint compare. -/
inductive Relation where
  | atMost
  | atLeast
  | equal
deriving DecidableEq, Repr

namespace Relation

/-- The relations. -/
def all : List Relation := [.atMost, .atLeast, .equal]

/-- How a relation is written. -/
def symbol : Relation → String
  | .atMost => "<="
  | .atLeast => ">="
  | .equal => "=="

end Relation

/-- Variables of one name over some dimensions. -/
structure VariableFamily (R : Type) where
  name : String
  dimensions : List Dimension
  kind : VariableKind
  entries : Std.ExtTreeMap Key (Bounds R) := ∅

namespace VariableFamily

variable {R : Type}

/-- The count of variables of a family. -/
def size (family : VariableFamily R) : Nat := family.entries.size

/-- The error of a key that does not fit the dimensions, if it does not. -/
def misfit (family : VariableFamily R) (key : Key) : List IndexError :=
  if key.length = family.dimensions.length then []
  else [.variableMismatch family.name key family.dimensions]

/-- The bounds that a variable of the family gets: those of a binary one are 0 and 1. -/
def boundsFor [Zero R] [One R] (family : VariableFamily R) (bounds : Bounds R) : Bounds R :=
  if family.kind = .binary then ⟨0, some 1⟩ else bounds

/-- Puts a variable under a key. -/
def insert [Zero R] [One R] (family : VariableFamily R) (key : Key) (bounds : Bounds R) :
    VariableFamily R :=
  { family with entries := family.entries.insert key (family.boundsFor bounds) }

/-- Adds a variable. -/
def add [Zero R] [One R] (family : VariableFamily R) (key : Key) (bounds : Bounds R) :
    Lookup (VariableFamily R) :=
  ⟨family.insert key bounds, family.misfit key⟩

/-- Whether the family has a variable. -/
def has (family : VariableFamily R) (key : Key) : Lookup Bool :=
  ⟨family.entries.contains key, family.misfit key⟩

/-- The bounds of a variable, which the family has to have. -/
def bounds [Zero R] (family : VariableFamily R) (key : Key) : Lookup (Bounds R) :=
  ⟨(family.entries[key]?).getD ⟨0, none⟩,
    family.misfit key ++
      if family.entries.contains key then [] else [.noVariable family.name key]⟩

/-- The name of a variable, which the family has to have. -/
def ref (family : VariableFamily R) (key : Key) : Lookup VariableRef :=
  ⟨⟨family.name, key⟩,
    family.misfit key ++
      if family.entries.contains key then [] else [.noVariable family.name key]⟩

end VariableFamily

/-- A comparison of a linear expression with a number. -/
structure Constraint (R : Type) where
  index : Key
  lhs : LinearExpression R
  relation : Relation
  rhs : R

namespace Constraint

variable {R : Type} [Zero R] [Add R] [Sub R] [BEq R]

/-- The constraint on an expression, with its constant moved to the right. -/
def of (index : Key) (expression : LinearExpression R) (relation : Relation) (rhs : R) :
    Constraint R :=
  ⟨index, .ofTerms expression.termList, relation, rhs - expression.constant⟩

end Constraint

/-- Constraints of one name over some dimensions. -/
structure ConstraintFamily (R : Type) where
  name : String
  dimensions : List Dimension
  entries : Std.ExtTreeMap Key (Constraint R) := ∅

namespace ConstraintFamily

variable {R : Type}

/-- The count of constraints of a family. -/
def size (family : ConstraintFamily R) : Nat := family.entries.size

/-- The error of an index that does not fit the dimensions, if it does not. -/
def misfit (family : ConstraintFamily R) (index : Key) : List IndexError :=
  if index.length = family.dimensions.length then []
  else [.constraintMismatch family.name index family.dimensions]

/-- Puts a constraint at its index. -/
def insert (family : ConstraintFamily R) (constraint : Constraint R) : ConstraintFamily R :=
  { family with entries := family.entries.insert constraint.index constraint }

/-- Adds a constraint. -/
def add (family : ConstraintFamily R) (constraint : Constraint R) : Lookup (ConstraintFamily R) :=
  ⟨family.insert constraint, family.misfit constraint.index⟩

/-- Whether a family has a constraint at an index. -/
def contains (family : ConstraintFamily R) (index : Key) : Bool := family.entries.contains index

/-- The constraint at an index. -/
def get (family : ConstraintFamily R) (index : Key) : Except IndexError (Constraint R) :=
  match family.entries[index]? with
  | some constraint => .ok constraint
  | none => .error (.noConstraint family.name index)

end ConstraintFamily

/-- An optimization problem; the objective is minimized. -/
structure Problem (R : Type) where
  unknowns : Std.ExtTreeMap String (VariableFamily R) := ∅
  constraints : Std.ExtTreeMap String (ConstraintFamily R) := ∅
  objectiveName : String := "TotalDiscountedCost"
  objective : LinearExpression R

namespace Problem

variable {R : Type}

/-- The problem without variables. -/
def empty [Zero R] : Problem R := { objective := 0 }

/-- Adds a family of variables, unless there is one of its name. -/
def addVariables (problem : Problem R) (family : VariableFamily R) : Problem R :=
  { problem with unknowns := problem.unknowns.insertIfNew family.name family }

/-- Adds a family of constraints, unless there is one of its name. -/
def addConstraints (problem : Problem R) (family : ConstraintFamily R) : Problem R :=
  { problem with constraints := problem.constraints.insertIfNew family.name family }

/-- The family of variables of a name. -/
def variableFamily (problem : Problem R) (name : String) :
    Except IndexError (VariableFamily R) :=
  match problem.unknowns[name]? with
  | some family => .ok family
  | none => .error (.noVariables name)

/-- The family of constraints of a name. -/
def constraintFamily (problem : Problem R) (name : String) :
    Except IndexError (ConstraintFamily R) :=
  match problem.constraints[name]? with
  | some family => .ok family
  | none => .error (.noConstraints name)

/-- Puts a family of variables in the place of the one of its name. -/
def setVariables (problem : Problem R) (family : VariableFamily R) : Problem R :=
  { problem with unknowns := problem.unknowns.insert family.name family }

/-- Puts a family of constraints in the place of the one of its name. -/
def setConstraints (problem : Problem R) (family : ConstraintFamily R) : Problem R :=
  { problem with constraints := problem.constraints.insert family.name family }

/-- Whether a problem has a family of variables of the name. -/
def hasVariables (problem : Problem R) (name : String) : Bool := problem.unknowns.contains name

/-- Whether a problem has a family of constraints of the name. -/
def hasConstraints (problem : Problem R) (name : String) : Bool :=
  problem.constraints.contains name

/-- The families of variables by name. -/
def variableFamilies (problem : Problem R) : List (VariableFamily R) :=
  problem.unknowns.toList.map (·.2)

/-- The families of constraints by name. -/
def constraintFamilies (problem : Problem R) : List (ConstraintFamily R) :=
  problem.constraints.toList.map (·.2)

/-- The count of variables of all families. -/
def variableCount (problem : Problem R) : Nat :=
  problem.variableFamilies.foldl (fun count family => count + family.size) 0

/-- The count of constraints of all families. -/
def constraintCount (problem : Problem R) : Nat :=
  problem.constraintFamilies.foldl (fun count family => count + family.size) 0

end Problem

end EnergyPlan
