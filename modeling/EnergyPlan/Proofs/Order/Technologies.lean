/-
# Rules about technologies do not depend on the order of entities

The rules on capacity, growth, activity and production targets make the same families for a
model and for one whose entities are listed in another order: a technology is bounded by the
same numbers, what is bounded is the same quantity, and the id of the technology is in the
index.

Key theorems: `unordered_capacityRule`, `unordered_maxGrowthRule`, `unordered_leastUseRule`,
`unordered_productionTargetRule`.
-/
import EnergyPlan.Proofs.Order.Agree

set_option linter.unusedSectionVars false

namespace EnergyPlan.ConstraintRule

open Noted LinearExpression

variable {R : Type} {ctx : Context R} {other : EnergyModel R}
  (h : ctx.model.Reordered other) (hn : (ctx.model.technologies.map (·.id)).Nodup)
  [AddCommMonoid R] [One R] [Sub R] [Mul R] [Neg R] [BEq R] [LawfulBEq R]

include h hn

/-! ### Capacity -/

theorem unordered_capacityRule : (capacityRule : ConstraintRule R).Unordered ctx other := by
  refine agree_perTechnologyYear h hn 2 fun region technology technology' year ht => ?_
  have hgross := ht.grossCapacity_eq ctx other region year
  have hrate := fun timeslice => ht.value_totalRate ctx other region timeslice year
  obtain ⟨modes, -, rfl⟩ := ht
  refine .bind rfl fun ratio => .bind (by rw [hgross]) fun gross => ?_
  refine .each (fun timeslice => ?_) fun _ => rfl
  simp only [value_bind, value_pure, hrate]

theorem unordered_unitRule : (unitRule : ConstraintRule R).Unordered ctx other := by
  refine agree_perTechnologyYear h hn 1 fun region technology technology' year ht => ?_
  obtain ⟨modes, -, rfl⟩ := ht
  refine .bind rfl fun there => .ite (.bind rfl fun capacity => ?_) .none
  exact .bind rfl fun size => .bind rfl fun units => .one rfl rfl

theorem unordered_maintenanceRule :
    (maintenanceRule : ConstraintRule R).Unordered ctx other := by
  refine agree_perTechnologyYear h hn 1 fun region technology technology' year ht => ?_
  have hgross := ht.grossCapacity_eq ctx other region year
  have hannual := h.value_annualActivity ht region year
  obtain ⟨modes, -, rfl⟩ := ht
  have hshare : availableShare (ctx.withModel other) region { technology with modes } year =
      availableShare ctx region technology year := by
    simp only [availableShare, h.yearSplit_eq]
    rfl
  refine .bind rfl fun ratio => .bind (by rw [hgross]) fun gross => ?_
  refine .bind (by rw [hshare]) fun available => .bind rfl fun availability => ?_
  exact .bind hannual.symm fun annual => .one rfl rfl

section

variable {name : String} {bounds : Technology R → Tensor R} {relation : Relation}
  (hb : ∀ technology modes, bounds { technology with modes } = bounds technology)

include hb

/-- A bound on new capacity is one on the same variable, if it does not go by the modes. -/
theorem unordered_newCapacityRule :
    (newCapacityRule name bounds relation).Unordered ctx other := by
  refine agree_perTechnologyYear h hn 1 fun region technology technology' year ht => ?_
  obtain ⟨modes, -, rfl⟩ := ht
  refine .bind rfl fun added => ?_
  exact .option (by rw [hb technology modes]) rfl rfl fun bound => .one rfl rfl

theorem unordered_grossCapacityRule :
    (grossCapacityRule name bounds relation).Unordered ctx other := by
  refine agree_perTechnologyYear h hn 1 fun region technology technology' year ht => ?_
  have hgross := ht.grossCapacity_eq ctx other region year
  obtain ⟨modes, -, rfl⟩ := ht
  refine .option (by rw [hb technology modes]) rfl rfl fun bound => ?_
  exact .bind (by rw [hgross]) fun gross => .one rfl rfl

/-! ### Activity -/

theorem unordered_annualActivityRule :
    (annualActivityRule name bounds relation).Unordered ctx other := by
  refine agree_perTechnologyYear h hn 1 fun region technology technology' year ht => ?_
  have hannual := h.value_annualActivity ht region year
  obtain ⟨modes, -, rfl⟩ := ht
  refine .option (by rw [hb technology modes]) rfl rfl fun bound => ?_
  exact .bind hannual.symm fun annual => .one rfl rfl

theorem unordered_totalActivityRule :
    (totalActivityRule name bounds relation).Unordered ctx other := by
  refine agree_perTechnology h hn 1 fun region technology technology' ht => ?_
  have hannual := h.value_annualActivity ht region
  obtain ⟨modes, -, rfl⟩ := ht
  have hyears := value_each_congr ctx.sets.years fun year => (hannual year).symm
  refine .option (by rw [hb technology modes]) rfl rfl fun bound => ?_
  exact .bind hyears fun annual => .one rfl rfl

end

theorem unordered_leastUseRule : (leastUseRule : ConstraintRule R).Unordered ctx other := by
  refine agree_perTechnologyYear h hn 1 fun region technology technology' year ht => ?_
  have hannual := h.value_annualActivity ht region year
  have hgross := ht.grossCapacity_eq ctx other region year
  obtain ⟨modes, -, rfl⟩ := ht
  refine .option rfl rfl rfl fun factor => .bind hannual.symm fun annual => ?_
  exact .bind (by rw [hgross]) fun gross => .bind rfl fun ratio => .one rfl rfl

/-! ### Growth -/

omit h hn [LawfulBEq R] in
variable (ctx other) in
theorem growth_eq {technology technology' : Technology R} (ht : technology.Reordered technology')
    (region year : String) (previous : Int) (rate : R) :
    growth (ctx.withModel other) region technology' year previous rate =
      growth ctx region technology year previous rate := by
  have hgross := ht.grossCapacity_eq ctx other region (yearLabel previous)
  obtain ⟨modes, -, rfl⟩ := ht
  simp only [growth, hgross]
  rfl

theorem unordered_maxGrowthRule : (maxGrowthRule : ConstraintRule R).Unordered ctx other := by
  refine agree_perLaterYear h hn 1 fun region technology technology' year previous ht => ?_
  have hgrowth := growth_eq ctx other ht region year previous
  obtain ⟨modes, -, rfl⟩ := ht
  refine .bind rfl fun rate => .bind rfl fun floor => ?_
  cases rate with
  | none => exact .none
  | some rate =>
    cases floor with
    | none => exact .bind (by rw [hgrowth]) fun grown => .one rfl rfl
    | some floor => exact .none

theorem unordered_growthBranchRule :
    (growthBranchRule : ConstraintRule R).Unordered ctx other := by
  refine agree_perLaterYear h hn 1 fun region technology technology' year previous ht => ?_
  have hgrowth := growth_eq ctx other ht region year previous
  obtain ⟨modes, -, rfl⟩ := ht
  refine .bind rfl fun rate => .bind rfl fun floor => ?_
  cases rate with
  | none => exact .none
  | some rate =>
    cases floor with
    | none => exact .none
    | some floor =>
      exact .bind (by rw [hgrowth]) fun grown => .bind rfl fun selector => .one rfl rfl

theorem unordered_floorBranchRule :
    (floorBranchRule : ConstraintRule R).Unordered ctx other := by
  refine agree_perLaterYear h hn 1 fun region technology technology' year previous ht => ?_
  obtain ⟨modes, -, rfl⟩ := ht
  refine .bind rfl fun rate => .bind rfl fun floor => ?_
  cases rate with
  | none => exact .none
  | some rate =>
    cases floor with
    | none => exact .none
    | some floor => exact .bind rfl fun added => .bind rfl fun selector => .one rfl rfl

theorem unordered_minGrowthRule : (minGrowthRule : ConstraintRule R).Unordered ctx other := by
  refine agree_perLaterYear h hn 1 fun region technology technology' year previous ht => ?_
  have hgrowth := growth_eq ctx other ht region year previous
  obtain ⟨modes, -, rfl⟩ := ht
  refine .option rfl rfl rfl fun rate => ?_
  exact .bind (by rw [hgrowth]) fun grown => .one rfl rfl

/-! ### Production targets -/

omit hn in
theorem value_productionSurplus {technology technology' : Technology R}
    (ht : technology.Reordered technology') (region commodity year : String) (share : R) :
    (productionSurplus (ctx.withModel other) technology' region commodity year share).value =
      (productionSurplus ctx technology region commodity year share).value := by
  have hrate := fun timeslice =>
    ht.value_commodityRate ctx other .output region timeslice commodity year
  refine congrArg LinearExpression.sum (value_gather_congr ctx.sets.timeslices fun timeslice => ?_)
  simp only [value_bind, value_pure, hrate, h.yearSplit_eq, h.value_production]

/-- A production target is one on the same share, if it does not go by the modes. -/
theorem unordered_productionTargetRule {name : String} {targets : Technology R → Tensor R}
    {relation : Relation}
    (ht : ∀ technology modes, targets { technology with modes } = targets technology) :
    (productionTargetRule name targets relation).Unordered ctx other := by
  refine agree_gather h.technologies 1 hn fun technology technology' hr => ?_
  have hsurplus := value_productionSurplus h hr
  obtain ⟨modes, -, rfl⟩ := hr
  rw [ht technology modes]
  refine .gather fun (key, share) => ?_
  dsimp only
  split
  · next region commodity year =>
    exact .bind (hsurplus region commodity year share).symm fun surplus => .one rfl rfl
  · exact .none

end EnergyPlan.ConstraintRule
