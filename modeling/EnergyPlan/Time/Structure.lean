/-
# The time structure of a model

A model looks at some years, each cut into the same timeslices. The time structure
holds the years as they are given, the timeslices and the parts they lie in, which
share of a year a timeslice takes, and which year and timeslice follow which.

Key definitions: `TimeStructure`, `TimeStructure.yearLabels`,
`TimeStructure.previousYear`.
-/
import EnergyPlan.Index.Members
import EnergyPlan.Index.Tensor
import EnergyPlan.Time.Part

namespace EnergyPlan

/-- The years of a model and their parts. -/
structure TimeStructure (R : Type) where
  id : String
  years : List Int
  timeslices : List String
  seasons : Part
  dayTypes : Part
  brackets : Part
  /-- The share of a year that a timeslice takes. -/
  yearSplit : Tensor R
  /-- The share of a day that a bracket takes. -/
  daySplit : Tensor R
  /-- How often a day type occurs in a season. -/
  daysInDayType : Tensor R
  /-- The year that follows a year. -/
  nextYear : Std.ExtTreeMap Int Int
  /-- The timeslice that follows a timeslice. -/
  nextTimeslice : Std.ExtTreeMap String String

/-- The label of a year. -/
def yearLabel (year : Int) : String := toString year

/-- The year that a label names. -/
def yearOf (label : String) : Int := (Decimal.readInt label.toList).getD 0

/-- Which entry of a list follows which; of equal entries the last one counts. -/
def successors {α : Type} [Ord α] [Std.TransOrd α] (entries : List α) : Std.ExtTreeMap α α :=
  (entries.zip entries.tail).foldl (fun next (a, b) => next.insert a b) ∅

namespace TimeStructure

variable {R : Type}

/-- The labels of the model years, in the given order. -/
def yearLabels (time : TimeStructure R) : List String := time.years.map yearLabel

/-- The first model year as given. -/
def firstYear (time : TimeStructure R) : Int := time.years.headD 0

/-- The last model year as given. -/
def lastYear (time : TimeStructure R) : Int := time.years.getLastD 0

/-- The year before a year, if there is one. -/
def previousYear (time : TimeStructure R) (year : Int) : Option Int :=
  (time.nextYear.toList.find? fun link => link.2 == year).map (·.1)

/-- The members of the dimensions that a time structure has. -/
def memberSets (years timeslices seasons dayTypes brackets : List String) : MemberSets :=
  ((((MemberSets.empty.declareAll .year years).declareAll .timeslice timeslices).declareAll
    .season seasons).declareAll .dayType dayTypes).declareAll .timeBracket brackets

/-- The members of the time dimensions. -/
def sets (time : TimeStructure R) : MemberSets :=
  memberSets time.yearLabels time.timeslices time.seasons.members time.dayTypes.members
    time.brackets.members

end TimeStructure

end EnergyPlan
