/-
# Rules across the fields of an entity

Beyond the rules on single values, the values of an entity have to fit together: a
minimum is not above its maximum, a demand profile sums to one wherever it is given
and has an annual demand, modes have ids of their own, a production target is on an
output, a loss is below one. A rule yields a violation for each key at which it fails.

Key definitions: `ordered`, `Commodity.check`, `Technology.check`, `validate`.
-/
import EnergyPlan.Model.Entity
import EnergyPlan.Scalar
import EnergyPlan.Violation

namespace EnergyPlan

open Text

/-- A key as `region R1, year 2020`. -/
def describeKey (dimensions : List Dimension) (key : Key) : String :=
  join ", " ((dimensions.zip key).map fun (dimension, label) => dimension.name ++ " " ++ label)

/-- The path of an entry of a field. -/
def keyPath (path field : String) (key : Key) : String := childPaths (childPath path field) key

/-- The texts of a list that stand in it before, each as often as it is repeated. -/
def repeated : List String → List String → List String
  | _, [] => []
  | seen, s :: rest =>
    if s ∈ seen then s :: repeated seen rest else repeated (s :: seen) rest

section

variable {R : Type} [Scalar R]

/-- The keys at which one field exceeds another. -/
def ordered [LT R] [DecidableLT R] (path : String) (lower : String × Tensor R)
    (upper : String × Tensor R) : List Violation :=
  lower.2.entries.filterMap fun (key, value) =>
    match upper.2.find? key with
    | some bound =>
      if bound < value then
        some ⟨keyPath path lower.1 key,
          lower.1 ++ " (" ++ Scalar.brief value ++ ") exceeds " ++ upper.1 ++ " (" ++
            Scalar.brief bound ++ ") for " ++ describeKey lower.2.dimensions key⟩
      else none
    | none => none

/-- A group with a margin or a target has a region. -/
def RegionGroup.check (group : RegionGroup R) (path : String) : List Violation :=
  let empty := !group.includes.entries.any (·.2)
  if empty && (!group.reserveMargin.isEmpty || !group.renewableTarget.isEmpty) then
    [⟨childPath path "include_in_region_group",
      "a region group with targets must include at least one region"⟩]
  else []

/-- The regions and years that a demand profile has entries for. -/
def Commodity.profiled (commodity : Commodity R) : List Key :=
  (commodity.demandProfile.entries.map fun (key, _) => key.take 2).eraseReps

/-- The sum of the demand profile of a region and year. -/
def Commodity.profileTotal [Zero R] [Add R] (commodity : Commodity R) (key : Key) : R :=
  (commodity.demandProfile.entries.filter fun (k, _) => k.take 2 == key).foldl
    (fun total (_, share) => total + share) 0

/-- A demand profile has an annual demand, and sums to one. -/
def Commodity.check [Zero R] [One R] [Add R] [Sub R] [Neg R] [LT R] [DecidableLT R]
    (tolerance : R) (commodity : Commodity R) (path : String) : List Violation :=
  commodity.profiled.flatMap fun key =>
    let place := describeKey commodity.demandAnnual.dimensions key
    let total := commodity.profileTotal key
    let path := keyPath path "demand_profile" key
    (if (commodity.demandAnnual.find? key).isNone then
      [⟨path, "demand_profile is given for " ++ place ++ " but demand_annual is not"⟩]
    else []) ++
    (if tolerance < magnitude (total - 1) then
      [⟨path, "demand_profile sums to " ++ Scalar.brief total ++ " for " ++ place ++
        ", expected 1"⟩]
    else [])

/-- What happens outside the model stays within the limits. -/
def Impact.check [LT R] [DecidableLT R] (impact : Impact R) (path : String) : List Violation :=
  ordered path ("exogenous_annual", impact.exogenousAnnual)
      ("constraint_annual", impact.limitAnnual) ++
    ordered path ("exogenous_total", impact.exogenousTotal) ("constraint_total", impact.limitTotal)

/-- The commodities with a production target that are no output of the technology. -/
def Technology.idleTargets [Zero R] [LT R] [DecidableLT R] (technology : Technology R) :
    List String :=
  let targets := technology.productionTargetMin.entries ++ technology.productionTargetMax.entries
  ((targets.filterMap fun (key, _) => key[1]?).filter fun commodity =>
    !technology.produces commodity).foldl appendNew []

/-- Minima are below maxima, modes have ids of their own, and targets are on outputs. -/
def Technology.check [Zero R] [LT R] [DecidableLT R] (technology : Technology R)
    (path : String) : List Violation :=
  let grossMax := ("capacity_gross_max", technology.grossMax)
  ordered path ("capacity_gross_min", technology.grossMin) grossMax ++
    ordered path ("capacity_additional_min", technology.additionalMin)
      ("capacity_additional_max", technology.additionalMax) ++
    ordered path ("activity_annual_min", technology.activityAnnualMin)
      ("activity_annual_max", technology.activityAnnualMax) ++
    ordered path ("activity_total_min", technology.activityTotalMin)
      ("activity_total_max", technology.activityTotalMax) ++
    ordered path ("production_target_min", technology.productionTargetMin)
      ("production_target_max", technology.productionTargetMax) ++
    ordered path ("residual_capacity", technology.residualCapacity) grossMax ++
    ((repeated [] (technology.modes.map (·.id))).filter (!·.isEmpty)).map (fun id =>
      ⟨childPath path ("operating_modes." ++ id), "duplicate operating mode id '" ++ id ++ "'"⟩) ++
    technology.idleTargets.map fun commodity =>
      ⟨childPath path "production_target",
        "production target on '" ++ commodity ++ "', which is not an output of this technology"⟩

/-- A storage is balanced in one way at most. -/
def Storage.check (storage : Storage R) (path : String) : List Violation :=
  if storage.balanceDaily && storage.balanceAnnual then
    [⟨path, "balance_daily and balance_annual cannot both be set"⟩]
  else []

/-- Something arrives of what is traded. -/
def Trade.check [One R] [LE R] [DecidableLE R] (trade : Trade R) (path : String) :
    List Violation :=
  trade.loss.entries.filterMap fun (key, loss) =>
    if 1 ≤ loss then
      some ⟨keyPath path "trade_loss" key,
        "trade_loss must be below 1, found " ++ Scalar.brief loss⟩
    else none

end

/-- An entity that is read without violations and keeps the rules, or all violations. -/
def validate {α : Type} (check : α → String → List Violation) (path : String)
    (parsed : Reading α) : Except (List Violation) α :=
  let violations := parsed.notes ++ check parsed.value path
  if violations.isEmpty then .ok parsed.value else .error violations

/-- The rules of an entity that has none. -/
def noRules {α : Type} (_ : α) (_ : String) : List Violation := []

end EnergyPlan
