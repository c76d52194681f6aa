/-
# Index dimensions and keys

Fields, variables and constraints are indexed over dimensions. A key has one label
for each dimension; years are kept as their decimal labels. Asking for something
under a key that does not fit, or that is not there, is an `IndexError`.

Key definitions: `Dimension`, `Key`, `IndexError`.
Key theorems: `rank_inj`.
-/
import EnergyPlan.Text.Basic

namespace EnergyPlan

/-- The dimensions; a linked region is the destination of a trade route. -/
inductive Dimension where
  | region
  | linkedRegion
  | year
  | timeslice
  | season
  | dayType
  | timeBracket
  | technology
  | mode
  | commodity
  | impact
  | storage
  | regionGroup
deriving DecidableEq, Repr

namespace Dimension

/-- Every dimension, in the order in which they are listed. -/
def all : List Dimension :=
  [.region, .linkedRegion, .year, .timeslice, .season, .dayType, .timeBracket, .technology, .mode,
    .commodity, .impact, .storage, .regionGroup]

/-- How a dimension is called in reports. -/
def name : Dimension → String
  | .region => "region"
  | .linkedRegion => "linked region"
  | .year => "year"
  | .timeslice => "timeslice"
  | .season => "season"
  | .dayType => "day type"
  | .timeBracket => "time bracket"
  | .technology => "technology"
  | .mode => "mode"
  | .commodity => "commodity"
  | .impact => "impact"
  | .storage => "storage"
  | .regionGroup => "region group"

/-- The place of a dimension in the list of all. -/
def rank (dimension : Dimension) : Nat := all.idxOf dimension

instance : Ord Dimension := ⟨compareOn rank⟩

theorem rank_inj {a b : Dimension} (h : rank a = rank b) : a = b := by
  revert h
  cases a <;> cases b <;> decide

instance : Std.TransOrd Dimension := inferInstanceAs (Std.TransCmp (compareOn rank))

instance : Std.LawfulEqOrd Dimension where
  eq_of_compare h := rank_inj (Std.LawfulEqOrd.eq_of_compare h)

/-- The names of several dimensions as `[region, year]`. -/
def listText (dimensions : List Dimension) : String :=
  "[" ++ Text.join ", " (dimensions.map name) ++ "]"

end Dimension

/-- An index tuple. -/
abbrev Key := List String

/-- A key as `(R1, 2020)`. -/
def Key.text (key : Key) : String :=
  "(" ++ Text.join ", " key ++ ")"

/-- Why nothing is found under a key or a name. -/
inductive IndexError where
  | tensorMismatch (key : Key) (dimensions : List Dimension)
  | variableMismatch (family : String) (key : Key) (dimensions : List Dimension)
  | constraintMismatch (family : String) (key : Key) (dimensions : List Dimension)
  | noValue (key : Key)
  | noVariable (family : String) (key : Key)
  | noConstraint (family : String) (key : Key)
  | noVariables (family : String)
  | noConstraints (family : String)
  | noPosition (position : Nat)
  | noField (name entity : String)
  | noEntity (kind id : String)
deriving DecidableEq, Repr

namespace IndexError

/-- Whether a key does not fit the dimensions it is used with. -/
def isMismatch : IndexError → Bool
  | .tensorMismatch .. | .variableMismatch .. | .constraintMismatch .. => true
  | _ => false

/-- What is reported for a lookup that fails. -/
def message : IndexError → String
  | .tensorMismatch key dimensions =>
    "Dimension mismatch: key " ++ key.text ++ " used with tensor over " ++
      Dimension.listText dimensions
  | .variableMismatch family key dimensions =>
    "Dimension mismatch: variable " ++ family ++ key.text ++ " does not match " ++
      Dimension.listText dimensions
  | .constraintMismatch family key dimensions =>
    "Dimension mismatch: constraint " ++ family ++ key.text ++ " does not match " ++
      Dimension.listText dimensions
  | .noValue key => "No value at " ++ key.text
  | .noVariable family key => "No variable " ++ family ++ key.text
  | .noConstraint family key => "No constraint " ++ family ++ key.text
  | .noVariables family => "No variable collection '" ++ family ++ "'"
  | .noConstraints family => "No constraint collection '" ++ family ++ "'"
  | .noPosition position => s!"position {position} is beyond the key"
  | .noField name entity => "No field '" ++ name ++ "' on " ++ entity
  | .noEntity kind id => "No " ++ kind ++ " with id '" ++ id ++ "'"

end IndexError

end EnergyPlan
