/-
# The parts of a year

A year is cut into timeslices, and each timeslice lies in one season, one day type
and one time bracket. The members of a part are listed, or counted (labels are then
numbered), or named by a mapping from timeslices. Where timeslices are given, a part
with several members needs such a mapping, and a part without one has one member;
where they are not, they are the combinations of the members of all parts.

Key definitions: `TimePart`, `Part`, `GivenPart`, `derivePart`, `combine`.
-/
import EnergyPlan.Config.Node
import EnergyPlan.Index.Dimension
import EnergyPlan.Violation
import Std.Data.ExtTreeMap

namespace EnergyPlan

open Config Text

/-- What timeslices are grouped by. -/
inductive TimePart where
  | season
  | dayType
  | bracket
deriving DecidableEq, Repr

namespace TimePart

/-- The field with the members of the part. -/
def listField : TimePart → String
  | .season => "seasons"
  | .dayType => "day_types"
  | .bracket => "daily_time_brackets"

/-- The field that maps timeslices to members of the part. -/
def mappingField : TimePart → String
  | .season => "timeslice_in_season"
  | .dayType => "timeslice_in_daytype"
  | .bracket => "timeslice_in_timebracket"

/-- What numbered labels of the part start with. -/
def initial : TimePart → String
  | .season => "s"
  | .dayType => "d"
  | .bracket => "h"

/-- The dimension whose members are the labels of a part. -/
def dimension : TimePart → Dimension
  | .season => .season
  | .dayType => .dayType
  | .bracket => .timeBracket

end TimePart

/-- The members of a part, and the one that each timeslice lies in. -/
structure Part where
  members : List String := []
  memberOf : Std.ExtTreeMap String String := ∅

/-- What a configuration says about a part. -/
structure GivenPart where
  listed : Option (List String)
  mapping : Option (List (String × String))

/-- The path of a field of the time definition. -/
def timePath (field : String) : String := "time_definition." ++ field

/-- The member of a part that is not divided, and the timeslice of a year that is not. -/
def soleMember : String := "1"

/-- Adds the labels of a list to those before them. -/
def readLabels (path : String) (labels : List String) : List Node → Reading (Option (List String))
  | [] => pure (some labels)
  | node :: rest =>
    match node.text? with
    | none => Reading.reject path "labels must be scalars"
    | some label =>
      if label ∈ labels then do
        Reading.report path ("duplicate label '" ++ label ++ "'")
        readLabels path labels rest
      else readLabels path (labels ++ [label]) rest

/-- As many labels as a count says. -/
def numberedLabels (initial : String) (count : Nat) : List String :=
  (List.range count).map fun i => initial ++ toString (i + 1)

/-- The labels of a field that holds a list of them or their count. -/
def readPart (definition : Node) (field initial : String) : Reading (Option (List String)) :=
  match definition.given? field with
  | none => pure none
  | some (.scalar _ text) =>
    match Decimal.integer text with
    | some count =>
      if 1 ≤ count then pure (some (numberedLabels initial count.toInt.toNat))
      else Reading.reject (timePath field) "must be a positive count or a list of labels"
    | none => Reading.reject (timePath field) "must be a positive count or a list of labels"
  | some (.sequence (first :: rest)) => readLabels (timePath field) [] (first :: rest)
  | some _ => Reading.reject (timePath field) "must be a positive count or a non-empty list of labels"

/-- The pairs of a mapping from timeslices to labels. -/
def readPairs (field : String) : List (String × Node) → Reading (List (String × String))
  | [] => pure []
  | (slice, node) :: rest => do
    match node.text? with
    | some label => return (slice, label) :: (← readPairs field rest)
    | none =>
      Reading.report (timePath field ++ "." ++ slice) "must be a single label"
      readPairs field rest

/-- The mapping from timeslices to labels that a field holds. -/
def readMapping (definition : Node) (field : String) :
    Reading (Option (List (String × String))) :=
  match definition.given? field with
  | none => pure none
  | some (.mapping entries) => some <$> readPairs field entries
  | some _ => Reading.reject (timePath field) "must map each timeslice to a label"

/-- The members that timeslices are mapped to, as far as the timeslices are known. -/
def assignMembers (part : TimePart) (timeslices : List String) (listed : Option (List String))
    (mapping : List (String × String)) : Reading (Std.ExtTreeMap String String) :=
  let path := timePath part.mappingField
  mapping.foldlM
    (fun memberOf (slice, label) => do
      if slice ∉ timeslices then
        Reading.report path ("unknown timeslice '" ++ slice ++ "'")
        return memberOf
      Reading.reportIf (listed.any fun labels => !labels.contains label) path
        ("'" ++ label ++ "' is not listed in " ++ part.listField)
      return memberOf.insert slice label)
    ∅

/-- A part with one member, in which every timeslice lies. -/
def undividedPart (timeslices members : List String) : Part :=
  ⟨members,
    timeslices.foldl (fun memberOf slice => memberOf.insert slice (members.headD soleMember)) ∅⟩

/-- A part of a year whose timeslices are given. -/
def derivePart (timeslices : List String) (part : TimePart) (given : GivenPart) :
    Reading Part := do
  match given.mapping with
  | some mapping =>
    let memberOf ← assignMembers part timeslices given.listed mapping
    timeslices.forM fun slice =>
      Reading.reportIf (!memberOf.contains slice) (timePath part.mappingField)
        ("timeslice '" ++ slice ++ "' is not mapped")
    return ⟨given.listed.getD ((mapping.map (·.2)).foldl appendNew []), memberOf⟩
  | none =>
    let members := given.listed.getD [soleMember]
    if 1 < members.length then
      Reading.report (timePath part.listField)
        ("has several members but " ++ part.mappingField ++ " is not given")
      return ⟨[], ∅⟩
    return undividedPart timeslices members

/-- A timeslice with the members that it lies in. -/
structure Combination where
  slice : String
  season : String
  dayType : String
  bracket : String

/-- The combinations of the members of all parts; a timeslice is named by the members of the parts
that are listed. -/
def combinations (seasons dayTypes brackets : Option (List String)) : List Combination :=
  (seasons.getD [soleMember]).flatMap fun season =>
    (dayTypes.getD [soleMember]).flatMap fun dayType =>
      (brackets.getD [soleMember]).map fun bracket =>
        let labels := (if seasons.isSome then [season] else []) ++
          (if dayTypes.isSome then [dayType] else []) ++
          (if brackets.isSome then [bracket] else [])
        ⟨if labels.isEmpty then soleMember else join "-" labels, season, dayType, bracket⟩

/-- A part of a year whose timeslices are combinations. -/
def combinedPart (listed : Option (List String)) (member : Combination → String)
    (combinations : List Combination) : Part :=
  ⟨listed.getD [soleMember],
    combinations.foldl (fun memberOf c => memberOf.insert c.slice (member c)) ∅⟩

end EnergyPlan
