/-
# Rules about storage and trade do not depend on the order of entities

The rules on storages and on routes make the same families for a model and for one whose
entities are listed in another order. The modes tied to a storage are summed up exactly; a
level is that of the timeslice before, and the timeslices and years come in the same order
in both models. A route is told apart from those of other trades by what is carried.

Key theorems: `unordered_rateRule`, `unordered_levelRule`, `unordered_dailyBalanceRule`,
`unordered_routeCapacityRule`.
-/
import EnergyPlan.Proofs.Order.Agree

set_option linter.unusedSectionVars false

namespace EnergyPlan.ConstraintRule

open Noted LinearExpression

variable {R : Type} {ctx : Context R} {other : EnergyModel R}
  (h : ctx.model.Reordered other)

/-! ### Storage -/

section

variable (hn : (ctx.model.storage.map (·.id)).Nodup)

include h hn

/-- A rate is tied to the same modes, whichever of them comes first. -/
theorem unordered_rateRule [AddCommMonoid R] [One R] [Sub R] [Neg R] [BEq R] [LawfulBEq R]
    {name : String} {group : VariableGroup} {ties : OperatingMode R → Tensor Bool} :
    (rateRule name group ties).Unordered ctx other := by
  refine agree_perStorageYear h hn fun region storage year => ?_
  refine .each (fun timeslice => ?_) fun _ => rfl
  let activities (technology : Technology R) : Lookup (List (VariableRef × R)) := gather
    (fun (mode : OperatingMode R) => do
      if ← (ties mode).lookup [region, storage.id] false then
        ctx.term .activity [region, timeslice, technology.id, mode.id, year] (-1)
      else return [])
    technology.modes
  have hactivities : (gather activities ctx.model.technologies).value.Perm
      (gather activities other.technologies).value := by
    refine perm_gather h.technologies fun technology technology' ht => ?_
    obtain ⟨modes, hperm, rfl⟩ := ht
    exact perm_gather_right hperm
  have hsum := fun rate => ofTerms_perm (hactivities.append_left rate)
  simp only [value_bind, value_pure]
  exact congrArg (Constraint.of _ · _ _) (hsum _)

variable [Zero R] [One R] [Add R] [Sub R] [Neg R] [BEq R]

theorem unordered_levelRule : (levelRule : ConstraintRule R).Unordered ctx other := by
  refine agree_gather_left fun region _ => agree_gather (.of_perm h.storage) 1 hn ?_
  rintro storage _ rfl
  refine .gather fun (previousYear, year) => .each (fun (previousSlice, timeslice) => ?_) ?_
  · simp only [h.yearSplit_eq]
    rfl
  · exact fun _ => rfl

omit hn in
theorem netCharge_eq (region : String) (storage : Storage R) (timeslice year : String) :
    netCharge (ctx.withModel other) region storage timeslice year =
      netCharge ctx region storage timeslice year := by
  simp only [netCharge, h.yearSplit_eq]
  rfl

theorem unordered_annualBalanceOfStorageRule :
    (annualBalanceOfStorageRule : ConstraintRule R).Unordered ctx other := by
  refine agree_perStorageYear h hn fun region storage year => ?_
  refine .ite .none (.bind ?_ fun net => .one rfl rfl)
  simp only [netCharge_eq h]
  rfl

omit [Zero R] [One R] [Add R] [Sub R] [Neg R] [BEq R] hn in
theorem slicesOf_eq (season dayType : String) :
    slicesOf (ctx.withModel other) season dayType = slicesOf ctx season dayType := by
  simp only [slicesOf, Context.withModel, h.time]

theorem unordered_dailyBalanceRule :
    (dailyBalanceRule : ConstraintRule R).Unordered ctx other := by
  refine agree_perStorageYear h hn fun region storage year => ?_
  refine .ite .none (.gather fun season => .gather fun dayType => ?_)
  simp only [slicesOf_eq h, netCharge_eq h]
  exact .ite .none (.bind rfl fun net => .one rfl rfl)

variable [Mul R]

theorem unordered_upperLimitRule : (upperLimitRule : ConstraintRule R).Unordered ctx other :=
  agree_perStorageYear h hn fun _ _ _ => .each (fun _ => rfl) fun _ => rfl

theorem unordered_lowerLimitRule [LT R] [DecidableLT R] :
    (lowerLimitRule : ConstraintRule R).Unordered ctx other := by
  refine agree_perStorageYear h hn fun region storage year => ?_
  exact .bind rfl fun minimum => .ite (.each (fun _ => rfl) fun _ => rfl) .none

theorem unordered_rateLimitRule {name : String} {group : VariableGroup}
    {limits : Storage R → Tensor R} :
    (rateLimitRule name group limits).Unordered ctx other := by
  refine agree_perStorageYear h hn fun region storage year => ?_
  exact .option rfl rfl rfl fun limit => .each (fun _ => rfl) fun _ => rfl

end

/-! ### Routes -/

section

variable (hn : (ctx.model.trade.map (·.commodity)).Nodup)
  [Zero R] [One R] [Add R] [Sub R] [Mul R] [Neg R] [BEq R]

include h hn

theorem unordered_routeCapacityRule :
    (routeCapacityRule : ConstraintRule R).Unordered ctx other := by
  refine agree_perRouteYear h hn 3 fun trade origin destination year => ?_
  refine .bind rfl fun gross => .bind rfl fun loss => .bind rfl fun ratio => ?_
  refine .each (fun timeslice => ?_) fun _ => rfl
  simp only [h.yearSplit_eq]
  rfl

theorem unordered_newRouteRule : (newRouteRule : ConstraintRule R).Unordered ctx other := by
  refine agree_perRouteYear h hn 2 fun trade origin destination year => ?_
  exact .option rfl rfl rfl fun bound => .bind rfl fun added => .one rfl rfl

end

end EnergyPlan.ConstraintRule
