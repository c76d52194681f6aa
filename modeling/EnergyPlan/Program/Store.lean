/-
# Constraints on storage

A storage is charged and discharged by the modes that are tied to it. Its level changes
with the energy of each timeslice, timeslices following one another through all years;
it is within the capacity in service and above a least charge, and the rates may be
limited. A balanced storage ends each year, or each day type of each season, where it
began.

Key definitions: `chargeRule`, `levelRule`, `dailyBalanceRule`, `annualBalanceOfStorageRule`.
-/
import EnergyPlan.Program.Rule

namespace EnergyPlan

/-- The dimensions of a constraint on a storage in a timeslice. -/
def storageDimensions : List Dimension := [.region, .storage, .timeslice, .year]

/-- The elements of a list, each with the one before it. -/
def withPrevious {α : Type} (items : List α) : List (Option α × α) :=
  (none :: items.map some).zip items

variable {R : Type}

/-- The constraints for each region, storage and year. -/
def perStorageYear (ctx : Context R)
    (rows : String → Storage R → String → Lookup (List (Constraint R))) :
    Lookup (List (Constraint R)) :=
  Noted.gather (fun region => Noted.gather (fun storage => Noted.gather
    (rows region storage) ctx.sets.years) ctx.model.storage) ctx.sets.regions

variable [Zero R] [One R] [Add R] [Sub R] [Mul R] [Neg R] [BEq R]

/-- A rate of a storage is the activity of the modes that are tied to it. -/
def rateRule (name : String) (group : VariableGroup) (ties : OperatingMode R → Tensor Bool) :
    ConstraintRule R where
  name
  dimensions := storageDimensions
  constraints ctx := perStorageYear ctx fun region storage year => Noted.each
    (fun timeslice => do
      let key := [region, storage.id, timeslice, year]
      let rate ← ctx.term group key 1
      let activities ← Noted.gather
        (fun (technology : Technology R) => Noted.gather
          (fun (mode : OperatingMode R) => do
            if ← (ties mode).lookup [region, storage.id] false then
              ctx.term .activity [region, timeslice, technology.id, mode.id, year] (-1)
            else return [])
          technology.modes)
        ctx.model.technologies
      return .of key (.ofTerms (rate ++ activities)) .equal 0)
    ctx.sets.timeslices

/-- The rate of charge is what the tied modes take in. -/
def chargeRule : ConstraintRule R :=
  rateRule "S1_RateOfStorageCharge" .charge OperatingMode.toStorage

/-- The rate of discharge is what the tied modes give out. -/
def dischargeRule : ConstraintRule R :=
  rateRule "S2_RateOfStorageDischarge" .discharge OperatingMode.fromStorage

/-- What a storage takes up in a timeslice, less what it gives. -/
def netCharge (ctx : Context R) (region : String) (storage : Storage R)
    (timeslice year : String) : Lookup (List (VariableRef × R)) := do
  let key := [region, storage.id, timeslice, year]
  let split ← ctx.yearSplit timeslice year
  return (← ctx.term .charge key split) ++ (← ctx.term .discharge key (-split))

/-- The level before a timeslice: a multiple of the level of the timeslice before, or the initial
level as a constant. -/
def earlierLevel (ctx : Context R) (region : String) (storage : Storage R)
    (previousYear previousSlice : Option String) (year : String) :
    Lookup (List (VariableRef × R) × R) := do
  let slice := match previousSlice with
    | some slice => some (slice, year)
    | none => previousYear.bind fun earlier =>
        ctx.sets.timeslices.getLast?.map fun slice => (slice, earlier)
  match slice with
  | some (slice, year) =>
    return (← ctx.term .storageLevel [region, storage.id, slice, year] (-1), 0)
  | none => return ([], -(← storage.initialLevel.lookup [region] 0))

/-- The level is that of the timeslice before, with what is taken up and without what is given. -/
def levelRule : ConstraintRule R where
  name := "S3_StorageLevel"
  dimensions := storageDimensions
  constraints ctx :=
    Noted.gather (fun region => Noted.gather (fun (storage : Storage R) => Noted.gather
      (fun (previousYear, year) => Noted.each
        (fun (previousSlice, timeslice) => do
          let key := [region, storage.id, timeslice, year]
          let split ← ctx.yearSplit timeslice year
          let level ← ctx.term .storageLevel key 1
          let charge ← ctx.term .charge key (-split)
          let discharge ← ctx.term .discharge key split
          let (earlier, constant) ←
            earlierLevel ctx region storage previousYear previousSlice year
          let balance :=
            (LinearExpression.ofTerms (level ++ charge ++ discharge ++ earlier)).addConstant
              constant
          return .of key balance .equal 0)
        (withPrevious ctx.sets.timeslices))
      (withPrevious ctx.sets.years)) ctx.model.storage) ctx.sets.regions

/-- The net charge over a year is zero. -/
def annualBalanceOfStorageRule : ConstraintRule R where
  name := "S5_StorageAnnualBalance"
  dimensions := [.region, .storage, .year]
  constraints ctx := perStorageYear ctx fun region storage year => do
    if !storage.balanceAnnual then
      return []
    let net ← Noted.gather (netCharge ctx region storage · year) ctx.sets.timeslices
    return [.of [region, storage.id, year] (.ofTerms net) .equal 0]

/-- The timeslices of a season and day type. -/
def slicesOf (ctx : Context R) (season dayType : String) : List String :=
  ctx.sets.timeslices.filter fun timeslice =>
    ctx.model.time.seasons.memberOf[timeslice]? == some season &&
      ctx.model.time.dayTypes.memberOf[timeslice]? == some dayType

/-- The net charge over each day type of each season is zero. -/
def dailyBalanceRule : ConstraintRule R where
  name := "S4_StorageDailyBalance"
  dimensions := [.region, .storage, .season, .dayType, .year]
  constraints ctx := perStorageYear ctx fun region storage year => do
    if !storage.balanceDaily then
      return []
    Noted.gather
      (fun season => Noted.gather
        (fun dayType => do
          let slices := slicesOf ctx season dayType
          if slices.isEmpty then
            return []
          let net ← Noted.gather (netCharge ctx region storage · year) slices
          return [.of [region, storage.id, season, dayType, year] (.ofTerms net) .equal 0])
        ctx.sets.dayTypes)
      ctx.sets.seasons

/-- The level less a multiple of the capacity in service. -/
def headroom (ctx : Context R) (region : String) (storage : Storage R) (timeslice year : String)
    (multiple : R) : Lookup (LinearExpression R) := do
  let level ← ctx.term .storageLevel [region, storage.id, timeslice, year] 1
  let gross ← ctx.grossStorage region storage year
  return (LinearExpression.ofTerms level).addScaled gross (-multiple)

/-- The level is within the capacity in service. -/
def upperLimitRule : ConstraintRule R where
  name := "SC1_StorageUpperLimit"
  dimensions := storageDimensions
  constraints ctx := perStorageYear ctx fun region storage year => Noted.each
    (fun timeslice => do
      let room ← headroom ctx region storage timeslice year 1
      return .of [region, storage.id, timeslice, year] room .atMost 0)
    ctx.sets.timeslices

/-- The level is above the least charge. -/
def lowerLimitRule [LT R] [DecidableLT R] : ConstraintRule R where
  name := "SC2_StorageLowerLimit"
  dimensions := storageDimensions
  constraints ctx := perStorageYear ctx fun region storage year => do
    let minimum ← storage.minimumCharge.lookup [region, year] 0
    if 0 < minimum then
      Noted.each
        (fun timeslice => do
          let reserve ← headroom ctx region storage timeslice year minimum
          return .of [region, storage.id, timeslice, year] reserve .atLeast 0)
        ctx.sets.timeslices
    else return []

/-- A rate of a storage is within a limit. -/
def rateLimitRule (name : String) (group : VariableGroup) (limits : Storage R → Tensor R) :
    ConstraintRule R where
  name
  dimensions := storageDimensions
  constraints ctx := perStorageYear ctx fun region storage year => do
    match ← (limits storage).lookup? [region] with
    | none => return []
    | some limit =>
      Noted.each
        (fun timeslice => do
          let key := [region, storage.id, timeslice, year]
          return .of key (.ofTerms (← ctx.term group key 1)) .atMost limit)
        ctx.sets.timeslices

/-- The rate of charge is within its limit. -/
def chargeLimitRule : ConstraintRule R :=
  rateLimitRule "SC3_MaxChargeConstraint" .charge Storage.maxChargeRate

/-- The rate of discharge is within its limit. -/
def dischargeLimitRule : ConstraintRule R :=
  rateLimitRule "SC4_MaxDischargeConstraint" .discharge Storage.maxDischargeRate

end EnergyPlan
