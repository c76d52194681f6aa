/-
# Building a model

A model is built from an expanded configuration and its time structure. Every list of
entities is read element by element and each entity is checked by itself; then the
model as a whole is: there are entities of the four kinds that it needs, ids are unique
within a list, each commodity is supplied, no commodity is carried by two trades, and
each storage is charged and discharged. All violations are reported together.

Key definitions: `collect`, `composition`, `buildModel`, `unusedImpacts`.
-/
import EnergyPlan.Model.Parsing
import EnergyPlan.Model.Rules
import EnergyPlan.Time.Definition

namespace EnergyPlan

open Config Text

/-- The entities of a list without violations, and the violations of the others. -/
def collectItems {α : Type} (read : Node → String → Except (List Violation) α) (path : String) :
    List (Node × Nat) → Reading (List α)
  | [] => pure []
  | (node, i) :: rest => do
    match read node (path ++ "." ++ node.label i) with
    | .ok entity => return entity :: (← collectItems read path rest)
    | .error violations =>
      Noted.noteAll violations
      collectItems read path rest

/-- The entities of one kind in a configuration, each read and checked. -/
def collect {α : Type} (root : Node) (kind : EntityKind) (parse : Node → String → Reading α)
    (check : α → String → List Violation) : Reading (List α) :=
  match root.given? kind.collection with
  | none => pure []
  | some (.sequence items) =>
    collectItems (fun node path => validate check path (parse node path)) kind.collection
      items.zipIdx
  | some _ =>
    ⟨[], [⟨kind.collection, "must be a list of " ++ kind.name ++ " entries"⟩]⟩

/-- A list that has to have an element. -/
def needOne {α : Type} (kind : EntityKind) (entities : List α) : List Violation :=
  if entities.isEmpty then [⟨kind.collection, "at least one " ++ kind.name ++ " is required"⟩]
  else []

/-- The ids that occur again in a list of entities. -/
def uniqueIds (kind : EntityKind) (ids : List String) : List Violation :=
  (repeated [] ids).map fun id => ⟨kind.collection ++ "." ++ id, "duplicate id '" ++ id ++ "'"⟩

section

variable {R : Type}

namespace EnergyModel

/-- All operating modes of a model. -/
def modes (model : EnergyModel R) : List (OperatingMode R) :=
  model.technologies.flatMap (·.modes)

/-- Whether a commodity comes from a technology or a trade. -/
def supplies [Zero R] [LT R] [DecidableLT R] (model : EnergyModel R) (commodity : String) : Bool :=
  model.technologies.any (·.produces commodity) ||
    model.trade.any fun trade => trade.commodity == commodity

/-- Trades of a commodity that an earlier trade carries. -/
def tradedAgain : List String → List (Trade R) → List Violation
  | _, [] => []
  | seen, trade :: rest =>
    if trade.commodity.isEmpty then tradedAgain seen rest
    else if trade.commodity ∈ seen then
      ⟨EntityKind.trade.collection ++ "." ++ trade.id,
        "commodity '" ++ trade.commodity ++ "' is already carried by another trade entry"⟩ ::
          tradedAgain seen rest
    else tradedAgain (trade.commodity :: seen) rest

/-- Whether a flag is set for a storage in some region. -/
def flagged (flags : Tensor Bool) (storage : String) : Bool :=
  flags.entries.any fun (key, flag) => key[1]? == some storage && flag

/-- A storage is charged and discharged by some mode. -/
def checkStorageUse (model : EnergyModel R) (id : String) : List Violation :=
  let path := EntityKind.storage.collection ++ "." ++ id
  (if model.modes.any fun mode => flagged mode.toStorage id then []
    else [⟨path, "no operating mode charges this storage"⟩]) ++
  (if model.modes.any fun mode => flagged mode.fromStorage id then []
    else [⟨path, "no operating mode discharges this storage"⟩])

/-- What is wrong with a model whose entities are right by themselves. -/
def composition [Zero R] [LT R] [DecidableLT R] (model : EnergyModel R) : List Violation :=
  needOne .region model.regions ++ needOne .commodity model.commodities ++
    needOne .impact model.impacts ++ needOne .technology model.technologies ++
    uniqueIds .region (model.regions.map (·.id)) ++
    uniqueIds .regionGroup (model.regionGroups.map (·.id)) ++
    uniqueIds .commodity (model.commodities.map (·.id)) ++
    uniqueIds .impact (model.impacts.map (·.id)) ++
    uniqueIds .technology (model.technologies.map (·.id)) ++
    uniqueIds .storage (model.storage.map (·.id)) ++
    uniqueIds .trade (model.trade.map (·.id)) ++
    ((model.commodities.filter fun c => !model.supplies c.id).map fun c =>
      ⟨EntityKind.commodity.collection ++ "." ++ c.id,
        "is not produced by any technology or carried by any trade"⟩) ++
    tradedAgain [] model.trade ++
    model.storage.flatMap fun storage => model.checkStorageUse storage.id

/-- The impacts that no technology emits and that do not come from outside. -/
def unusedImpacts [Zero R] [BEq R] (model : EnergyModel R) : List (Impact R) :=
  model.impacts.filter fun impact =>
    !(model.modes.any fun mode =>
        mode.emissionRatio.entries.any fun (key, ratio) =>
          key[1]? == some impact.id && ratio != 0) &&
      impact.exogenousAnnual.isEmpty && impact.exogenousTotal.isEmpty

/-- The warnings about a model, a line for each impact that is not used. -/
def warnings [Zero R] [BEq R] (model : EnergyModel R) : List String :=
  model.unusedImpacts.map fun impact =>
    "Warning: impact '" ++ impact.id ++ "' is not emitted by any technology"

end EnergyModel

variable [Zero R] [One R] [Add R] [Sub R] [Neg R] [LT R] [DecidableLT R] [LE R] [DecidableLE R]
  [Scalar R]

/-- The model that an expanded configuration describes, as far as it is right, and what is wrong
with the rest. -/
def readModel (root : Node) (time : TimeStructure R) (sets : MemberSets) (tolerance : R) :
    Reading (EnergyModel R) := do
  Noted.noteAll (time.check tolerance)
  let fields ← (match validate noRules "" (parseModelFields sets root) with
    | .ok fields => ⟨fields, []⟩
    | .error violations => ⟨{}, violations⟩ : Reading (ModelFields R))
  let model : EnergyModel R := {
    toModelFields := fields
    time
    regions := ← collect root .region (parseRegion sets) noRules
    regionGroups := ← collect root .regionGroup (parseRegionGroup sets) RegionGroup.check
    commodities := ← collect root .commodity (parseCommodity sets) (Commodity.check tolerance)
    impacts := ← collect root .impact (parseImpact sets) Impact.check
    technologies := ← collect root .technology (parseTechnology sets) Technology.check
    storage := ← collect root .storage (parseStorage sets) Storage.check
    trade := ← collect root .trade (parseTrade sets) Trade.check }
  Noted.noteAll model.composition
  return model

/-- The model of a configuration in which nothing is wrong, or all violations. -/
def buildModel (root : Node) (time : TimeStructure R) (sets : MemberSets) (tolerance : R) :
    Except (List Violation) (EnergyModel R) :=
  (readModel root time sets tolerance).checked

end

end EnergyPlan
