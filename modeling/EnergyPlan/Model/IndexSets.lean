/-
# The index sets of a model

A model is compiled over sets of labels: sorted ids without repetition, the years in
order of time, and the timeslices and parts as the time structure lists them. Every
key of every indexed field has to be over these sets, and the commodity of a trade has
to be one of the model's; the first label that is missing is an error.

Key definitions: `IndexSets`, `IndexSets.ofModel`, `missingLabel?`, `deriveSets`.
-/
import EnergyPlan.Model.Fields

namespace EnergyPlan

open Text

/-- A label that an entity refers to and that nothing declares. -/
structure UnknownReference where
  identifier : String
  kind : Dimension
  owner : String
  field : String
deriving DecidableEq, Repr

/-- What is reported for a label that is in no index set. -/
def UnknownReference.message (e : UnknownReference) : String :=
  "Unknown " ++ e.kind.name ++ " '" ++ e.identifier ++ "' referenced by " ++ e.owner ++
    " in field '" ++ e.field ++ "'"

/-- The labels that a model is compiled over. -/
structure IndexSets where
  regions : List String
  regionGroups : List String
  years : List String
  timeslices : List String
  seasons : List String
  dayTypes : List String
  brackets : List String
  technologies : List String
  commodities : List String
  impacts : List String
  storages : List String
  trades : List String
  modes : List String
  modesByTechnology : Std.ExtTreeMap String (List String)

namespace IndexSets

/-- The labels of a dimension; destinations are regions. -/
def members (sets : IndexSets) : Dimension → List String
  | .region | .linkedRegion => sets.regions
  | .year => sets.years
  | .timeslice => sets.timeslices
  | .season => sets.seasons
  | .dayType => sets.dayTypes
  | .timeBracket => sets.brackets
  | .technology => sets.technologies
  | .mode => sets.modes
  | .commodity => sets.commodities
  | .impact => sets.impacts
  | .storage => sets.storages
  | .regionGroup => sets.regionGroups

variable {R : Type}

/-- The sets of a model. -/
def ofModel (model : EnergyModel R) : IndexSets where
  regions := sortedDistinct (model.regions.map (·.id))
  regionGroups := sortedDistinct (model.regionGroups.map (·.id))
  years := (model.time.years.mergeSort (· ≤ ·)).map yearLabel
  timeslices := model.time.timeslices
  seasons := model.time.seasons.members
  dayTypes := model.time.dayTypes.members
  brackets := model.time.brackets.members
  technologies := sortedDistinct (model.technologies.map (·.id))
  commodities := sortedDistinct (model.commodities.map (·.id))
  impacts := sortedDistinct (model.impacts.map (·.id))
  storages := sortedDistinct (model.storage.map (·.id))
  trades := sortedDistinct (model.trade.map (·.id))
  modes := sortedDistinct (model.technologies.flatMap fun t => t.modes.map (·.id))
  modesByTechnology := model.technologies.foldl
    (fun table t => table.insert t.id (sortedDistinct (t.modes.map (·.id)))) ∅

end IndexSets

/-- The dimension that a message names: a destination is a region. -/
def Dimension.shown : Dimension → Dimension
  | .linkedRegion => .region
  | dimension => dimension

/-- The first label of the keys that is not in the set of its dimension. -/
def missingLabel? (sets : IndexSets) (dimensions : List Dimension) (keys : List Key) :
    Option (Dimension × String) :=
  (keys.flatMap dimensions.zip).find? fun (dimension, label) =>
    !(sets.members dimension).contains label

variable {R : Type}

/-- Checks the keys of the fields of an entity. -/
def checkFields (sets : IndexSets) (owner lead : String) (fields : List (String × FieldValues R)) :
    Except UnknownReference Unit :=
  fields.forM fun (name, values) =>
    match missingLabel? sets values.dimensions values.keys with
    | some (dimension, label) => .error ⟨label, dimension.shown, owner, lead ++ name⟩
    | none => .ok ()

/-- An entity as messages name it. -/
def ownerText (kind : EntityKind) (id : String) : String := kind.name ++ " '" ++ id ++ "'"

/-- Checks a technology: the fields of its modes, then its own. -/
def checkTechnology (sets : IndexSets) (technology : Technology R) :
    Except UnknownReference Unit := do
  let owner := ownerText .technology technology.id
  technology.modes.forM fun mode =>
    checkFields sets owner ("operating_modes." ++ mode.id ++ ".") mode.fieldValues
  checkFields sets owner "" technology.fieldValues

/-- Checks a trade: its commodity, then its fields. -/
def checkTrade (sets : IndexSets) (trade : Trade R) : Except UnknownReference Unit := do
  let owner := ownerText .trade trade.id
  if !sets.commodities.contains trade.commodity then
    throw ⟨trade.commodity, .commodity, owner, "commodity"⟩
  checkFields sets owner "" trade.fieldValues

/-- Checks that every label of a model is in the sets. -/
def checkReferences (sets : IndexSets) (model : EnergyModel R) : Except UnknownReference Unit := do
  checkFields sets "model" "" model.toModelFields.fieldValues
  model.regionGroups.forM fun group =>
    checkFields sets (ownerText .regionGroup group.id) "" group.fieldValues
  model.commodities.forM fun commodity =>
    checkFields sets (ownerText .commodity commodity.id) "" commodity.fieldValues
  model.impacts.forM fun impact =>
    checkFields sets (ownerText .impact impact.id) "" impact.fieldValues
  model.technologies.forM (checkTechnology sets)
  model.storage.forM fun storage =>
    checkFields sets (ownerText .storage storage.id) "" storage.fieldValues
  model.trade.forM (checkTrade sets)

/-- The sets of a model that refers to nothing outside them. -/
def deriveSets (model : EnergyModel R) : Except UnknownReference IndexSets := do
  let sets := IndexSets.ofModel model
  checkReferences sets model
  return sets

end EnergyPlan
