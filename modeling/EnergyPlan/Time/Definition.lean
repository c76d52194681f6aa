/-
# Reading a time definition

A time definition lists the years and says how they are cut into timeslices:
timeslices are given if a list of them or a mapping to a part is there, and combined
from the parts otherwise. The shares of the timeslices and brackets are equal unless
they are given, and a day type occurs once.

Only what keeps the structure from being derived is a violation here; the order of
the years and the sums of the shares are checked by `TimeStructure.check`.

Key definitions: `TimeStructure.ofNode`, `TimeStructure.check`.
-/
import EnergyPlan.Fields.Broadcast
import EnergyPlan.Scalar
import EnergyPlan.Time.Structure

namespace EnergyPlan

open Config Text Fields

/-- Why there is no time structure. -/
inductive TimeError where
  | invalid (violations : List Violation)
  | broadcast (error : BroadcastError)
deriving Repr

/-- The timeslices of a year and their parts. -/
structure Slicing where
  timeslices : List String
  seasons : Part
  dayTypes : Part
  brackets : Part

section

variable {R : Type} [Scalar R]

variable (R) in
/-- The year that an element of the list of years writes; years are 32-bit integers. -/
def readYear (node : Node) : Reading (Option Int) :=
  let path := timePath "years"
  match node.text? with
  | none => Reading.reject path "'?' is not an integer year"
  | some text =>
    match (Scalar.ofText text : Option R).bind Scalar.whole? with
    | none => Reading.reject path ("'" ++ text ++ "' is not an integer year")
    | some year =>
      if Decimal.minInt32 ≤ year ∧ year ≤ Decimal.maxInt32 then pure (some year)
      else Reading.reject path ("'" ++ text ++ "' is out of range for a year")

/-- The timeslices when they are given: listed, or named by the mappings to parts. -/
def givenTimeslices (definition : Node) (mappings : List (Option (List (String × String)))) :
    Reading (List String) :=
  if (definition.entry? "timeslices").isSome then
    (·.getD []) <$> readPart definition "timeslices" "l"
  else pure (((mappings.filterMap id).flatten.map (·.1)).foldl appendNew [])

/-- How a time definition cuts a year. -/
def readSlicing (definition : Node) : Reading Slicing := do
  let listed (part : TimePart) := readPart definition part.listField part.initial
  let seasons ← listed .season
  let dayTypes ← listed .dayType
  let brackets ← listed .bracket
  let inSeason ← readMapping definition TimePart.season.mappingField
  let inDayType ← readMapping definition TimePart.dayType.mappingField
  let inBracket ← readMapping definition TimePart.bracket.mappingField
  if (definition.entry? "timeslices").isSome || inSeason.isSome || inDayType.isSome ||
      inBracket.isSome then
    let timeslices ← givenTimeslices definition [inSeason, inDayType, inBracket]
    return {
      timeslices
      seasons := ← derivePart timeslices .season ⟨seasons, inSeason⟩
      dayTypes := ← derivePart timeslices .dayType ⟨dayTypes, inDayType⟩
      brackets := ← derivePart timeslices .bracket ⟨brackets, inBracket⟩ }
  else
    let all := combinations seasons dayTypes brackets
    return {
      timeslices := all.map (·.slice)
      seasons := combinedPart seasons (·.season) all
      dayTypes := combinedPart dayTypes (·.dayType) all
      brackets := combinedPart brackets (·.bracket) all }

variable (R) in
/-- The years and the timeslices of a time definition. -/
def readYearsAndSlicing (definition : Node) (years : List Node) :
    Reading (List Int × Slicing) := do
  let years ← Noted.each (readYear R) years
  let slicing ← readSlicing definition
  Reading.reportIf slicing.timeslices.isEmpty (timePath "timeslices")
    "no timeslices could be derived"
  return (years.filterMap id, slicing)

/-- The leaves of an expanded value, as numbers. -/
def readLeaves (path : String) (dimensions : List Dimension) (expanded : Node) :
    Reading (Tensor R) :=
  (expanded.leaves dimensions.length).foldlM
    (fun tensor (key, leaf) =>
      match decide (key.length = dimensions.length), leaf.text?.bind Scalar.ofText with
      | true, some value => return tensor.insert key value
      | _, _ => do
        Reading.report (childPaths path key) "must be a number"
        return tensor)
    (Tensor.empty dimensions)

/-- A field with numbers; `standard` has its values if it is not given. -/
def readShares (definition : Node) (sets : MemberSets) (field : String)
    (dimensions : List Dimension) (standard : Tensor R) :
    Except BroadcastError (Reading (Tensor R)) :=
  match definition.entry? field with
  | none => .ok (pure standard)
  | some value => do
    let expanded ← broadcast sets dimensions (timePath field) value
    return readLeaves (timePath field) dimensions expanded

/-- The tensor with one value under every combination of the labels. -/
def uniform (dimensions : List Dimension) (labels : List (List String)) (value : R) : Tensor R :=
  (labels.foldr (fun here keys => here.flatMap fun label => keys.map (label :: ·)) [[]]).foldl
    (fun tensor key => tensor.insert key value) (Tensor.empty dimensions)

end

namespace TimeStructure

variable {R : Type} [Scalar R]

/-- An equal share of one for each of several labels. -/
def equalShare [One R] [Div R] (labels : List String) : R := 1 / Scalar.ofInt labels.length

/-- The shares of a time structure, and what is wrong with them. -/
def readTensors [One R] [Div R] (definition : Node) (years : List String) (slicing : Slicing) :
    Except BroadcastError (Reading (Tensor R × Tensor R × Tensor R)) := do
  let seasons := slicing.seasons.members
  let dayTypes := slicing.dayTypes.members
  let brackets := slicing.brackets.members
  let sets := memberSets years slicing.timeslices seasons dayTypes brackets
  let yearSplit ← readShares definition sets "year_split" [.timeslice, .year]
    (uniform [.timeslice, .year] [slicing.timeslices, years] (equalShare slicing.timeslices))
  let daySplit ← readShares definition sets "day_split" [.timeBracket, .year]
    (uniform [.timeBracket, .year] [brackets, years] (equalShare brackets))
  let days ← readShares definition sets "days_in_day_type" [.season, .dayType, .year]
    (uniform [.season, .dayType, .year] [seasons, dayTypes, years] 1)
  return do
    let a ← yearSplit
    let b ← daySplit
    let c ← days
    return (a, b, c)

/-- The time structure that a time definition describes. -/
def ofNode [One R] [Div R] (definition : Node) : Except TimeError (TimeStructure R) := do
  if !definition.isMapping then
    throw (.invalid [⟨"time_definition", "is required and must be a mapping"⟩])
  let elements := ((definition.entry? "years").getD .null).items
  if elements.isEmpty then
    throw (.invalid [⟨timePath "years", "is required and must be a non-empty list of years"⟩])
  let (years, slicing) ←
    (readYearsAndSlicing R definition elements).checked.mapError TimeError.invalid
  let tensors ← (readTensors definition (years.map yearLabel) slicing).mapError TimeError.broadcast
  let (yearSplit, daySplit, daysInDayType) ← tensors.checked.mapError TimeError.invalid
  return {
    id := definition.id?.getD "time_definition"
    years
    timeslices := slicing.timeslices
    seasons := slicing.seasons
    dayTypes := slicing.dayTypes
    brackets := slicing.brackets
    yearSplit, daySplit, daysInDayType
    nextYear := successors (years.mergeSort (· ≤ ·))
    nextTimeslice := successors slicing.timeslices }

/-- Years that do not come after the year before them. -/
def checkYears : List Int → List Violation
  | a :: b :: rest =>
    (if b ≤ a then
      [⟨timePath "years", s!"years must be strictly increasing, {b} follows {a}"⟩]
    else []) ++ checkYears (b :: rest)
  | _ => []

/-- What is wrong with the numbers of a tensor, each taken by itself. -/
def checkEntries (field : String) (wrong : R → Bool) (rule : String) (tensor : Tensor R) :
    List Violation :=
  tensor.entries.filterMap fun (key, value) =>
    if wrong value then
      some ⟨childPaths (timePath field) key, rule ++ ", found " ++ Scalar.brief value⟩
    else none

/-- The sum of the shares of a year. -/
def yearTotal [Zero R] [Add R] (time : TimeStructure R) (year : String) : R :=
  (time.yearSplit.entries.filter fun (key, _) => key[1]? == some year).foldl
    (fun total (_, share) => total + share) 0

/-- The years whose shares do not add up to one. -/
def checkYearTotals [Zero R] [One R] [Add R] [Sub R] [Neg R] [LT R] [DecidableLT R] (tolerance : R)
    (time : TimeStructure R) : List Violation :=
  time.yearLabels.filterMap fun year =>
    let total := time.yearTotal year
    if tolerance < magnitude (total - 1) then
      some ⟨timePath "year_split" ++ "." ++ year,
        "year_split sums to " ++ Scalar.brief total ++ " for year " ++ year ++ ", expected 1"⟩
    else none

/-- Whether a number is no fraction. -/
def outsideUnit [Zero R] [One R] [LT R] [DecidableLT R] (x : R) : Bool :=
  decide (x < 0) || decide (1 < x)

/-- What is wrong with the years and the shares of a time structure. -/
def check [Zero R] [One R] [Add R] [Sub R] [Neg R] [LT R] [DecidableLT R] (tolerance : R)
    (time : TimeStructure R) : List Violation :=
  checkYears time.years ++
    checkEntries "year_split" outsideUnit "must be a fraction between 0 and 1" time.yearSplit ++
    checkYearTotals tolerance time ++
    checkEntries "day_split" outsideUnit "must be a fraction between 0 and 1" time.daySplit ++
    checkEntries "days_in_day_type" (fun x => decide (x < 0)) "must be non-negative"
      time.daysInDayType

end TimeStructure

end EnergyPlan
