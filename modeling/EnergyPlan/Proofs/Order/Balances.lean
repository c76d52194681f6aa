/-
# Rules about emissions, balances and shares do not depend on the order of entities

The rules on what is emitted, the balance of energy, the reserve margin and the renewable
target make the same families for a model and for one whose entities are listed in another
order. What is summed up over all technologies, or over those that count, is the same
quantity; and the commodities that count are the same ones.

Key theorems: `unordered_emissionRule`, `unordered_balanceRule`, `value_marginSurplus`,
`unordered_groupMarginRule`, `value_renewableSurplus`, `unordered_groupRenewableRule`.
-/
import EnergyPlan.Proofs.Order.Agree

set_option linter.unusedSectionVars false

namespace EnergyPlan.ConstraintRule

open Noted LinearExpression

variable {R : Type} {ctx : Context R} {other : EnergyModel R}
  (h : ctx.model.Reordered other)
  [AddCommMonoid R] [One R] [Sub R] [Mul R] [Neg R] [BEq R] [LawfulBEq R]

include h

/-! ### Emissions -/

section

variable (hn : (ctx.model.impacts.map (·.id)).Nodup)

include hn

theorem unordered_emissionRule : (emissionRule : ConstraintRule R).Unordered ctx other := by
  refine agree_gather_left fun region _ => agree_gather (.of_perm h.impacts) 1 hn ?_
  rintro impact _ rfl
  have hemissions := h.value_annualEmissions region impact.id
  refine .gather fun year => .option rfl rfl rfl fun limit => ?_
  exact .bind (hemissions year).symm fun emissions => .bind rfl fun exogenous => .one rfl rfl

theorem unordered_totalEmissionRule :
    (totalEmissionRule : ConstraintRule R).Unordered ctx other := by
  refine agree_gather_left fun region _ => agree_gather (.of_perm h.impacts) 1 hn ?_
  rintro impact _ rfl
  have hyears := value_each_congr ctx.sets.years fun year =>
    (h.value_annualEmissions region impact.id year).symm
  refine .option rfl rfl rfl fun limit => ?_
  exact .bind hyears fun emissions => .bind rfl fun exogenous => .one rfl rfl

end

/-! ### Energy balance -/

section

variable [Div R] (ht : (ctx.model.trade.map (·.commodity)).Nodup)

include ht

theorem value_balanceParts (region timeslice commodity year : String) :
    (balanceParts (ctx.withModel other) region timeslice commodity year).value =
      (balanceParts ctx region timeslice commodity year).value := by
  simp only [balanceParts, value_bind, value_pure, h.value_production, h.value_use,
    h.netTrade_eq ht]

variable (hn : (ctx.model.commodities.map (·.id)).Nodup)

include hn

theorem unordered_balanceRule : (balanceRule : ConstraintRule R).Unordered ctx other := by
  refine agree_perCommodityYear h hn 2 fun region commodity year => ?_
  refine .bind rfl fun yearly => .ite .none (.bind rfl fun demand => ?_)
  refine .each (fun timeslice => ?_) fun _ => rfl
  simp only [value_bind, value_pure, value_balanceParts h ht]

theorem unordered_annualBalanceRule :
    (annualBalanceRule : ConstraintRule R).Unordered ctx other := by
  refine agree_perCommodityYear h hn 1 fun region commodity year => ?_
  have hbalance := value_gather_congr ctx.sets.timeslices fun timeslice =>
    (value_balanceParts h ht region timeslice commodity.id year).symm
  refine .option rfl rfl rfl fun demand => ?_
  exact .bind hbalance fun balance => .one rfl rfl

end

/-! ### Entities with a flag -/

omit h [AddCommMonoid R] [One R] [Sub R] [Mul R] [Neg R] [BEq R] [LawfulBEq R] in
/-- The entities with a flag are picked by it. -/
theorem value_flaggedAt {α : Type} (flags : α → Tensor Bool) (key : Key) (entities : List α) :
    (flaggedAt flags key entities).value =
      entities.filter fun entity => ((flags entity).lookup key false).value := by
  rw [flaggedAt, value_gather]
  induction entities with
  | nil => rfl
  | cons entity rest ih =>
    rw [List.flatMap_cons, List.filter_cons, ih, value_bind, value_pure]
    split <;> rfl

/-- The commodities with a flag are the same ones in another order. -/
theorem flaggedCommodities_perm (flags : Commodity R → Tensor Bool) (key : Key) :
    (flaggedAt flags key ctx.model.commodities).value.Perm
      (flaggedAt flags key other.commodities).value := by
  rw [value_flaggedAt, value_flaggedAt]
  exact h.commodities.filter _

/-- The technologies with a flag are the same ones in another order, if it does not go by the
modes. -/
theorem flaggedTechnologies_reordered {flags : Technology R → Tensor Bool} (key : Key)
    (hf : ∀ technology modes, flags { technology with modes } = flags technology) :
    ReorderedBy Technology.Reordered (flaggedAt flags key ctx.model.technologies).value
      (flaggedAt flags key other.technologies).value := by
  rw [value_flaggedAt, value_flaggedAt]
  refine h.technologies.filter fun technology technology' ht => ?_
  obtain ⟨modes, -, rfl⟩ := ht
  rw [hf technology modes]

/-! ### Reserve margin -/

theorem marginCommodities_isEmpty (region year : String) :
    (marginCommodities (ctx.withModel other) region year).value.isEmpty =
      (marginCommodities ctx region year).value.isEmpty :=
  (flaggedCommodities_perm h Commodity.inReserveMargin [region, year]).isEmpty_eq.symm

theorem value_marginSurplus (region timeslice year : String) (margin : R) :
    (marginSurplus (ctx.withModel other) region timeslice year margin).value =
      (marginSurplus ctx region timeslice year margin).value := by
  refine (sum_perm (List.Perm.append ?_ ?_)).symm
  · refine perm_each (flaggedTechnologies_reordered h _ fun _ _ => rfl) ?_
    intro technology technology' ht
    have hgross := ht.grossCapacity_eq ctx other region year
    obtain ⟨modes, -, rfl⟩ := ht
    simp only [value_bind, value_pure, hgross]
  · refine perm_each (.of_perm (flaggedCommodities_perm h _ _)) ?_
    rintro commodity _ rfl
    simp only [value_bind, value_pure, h.value_totalCommodityRate]

theorem unordered_marginRule : (marginRule : ConstraintRule R).Unordered ctx other := by
  have hmargin : (ctx.withModel other).model.reserveMargin = ctx.model.reserveMargin :=
    congrArg ModelFields.reserveMargin h.fields
  refine agree_of_eq (value_gather_congr _ fun region => value_gather_congr _ fun year => ?_)
  simp only [value_bind, marginCommodities_isEmpty h]
  split
  · rfl
  · refine value_each_congr _ fun timeslice => ?_
    simp only [value_bind, value_pure, value_marginSurplus h, hmargin]

section

variable (hg : (ctx.model.regionGroups.map (·.id)).Nodup)

include hg

theorem unordered_groupMarginRule :
    (groupMarginRule : ConstraintRule R).Unordered ctx other := by
  refine agree_gather (.of_perm h.regionGroups) 0 hg ?_
  rintro group _ rfl
  refine .gather fun year => .option rfl rfl rfl fun margin => ?_
  refine .bind rfl fun members => .bind ?counting fun regions => ?rows
  case counting =>
    refine value_gather_congr members fun region => ?_
    simp only [value_bind, value_pure, marginCommodities_isEmpty h]
  case rows =>
    refine .ite .none (.each (fun timeslice => ?_) fun _ => rfl)
    refine congrArg (fun parts => Constraint.of _ (.sum parts) _ _) ?_
    refine value_each_congr regions fun region => ?_
    simp only [value_bind, value_pure, value_marginSurplus h]

end

/-! ### Renewable target -/

theorem renewableCommodities_perm (region year : String) :
    (renewableCommodities ctx region year).value.Perm
      (renewableCommodities (ctx.withModel other) region year).value :=
  flaggedCommodities_perm h Commodity.inRenewableTarget [region, year]

theorem value_renewableSurplus (region year : String) (share : R) :
    (renewableSurplus (ctx.withModel other) region year share).value =
      (renewableSurplus ctx region year share).value := by
  refine (sum_perm ?_).symm
  refine perm_gather (.of_perm (renewableCommodities_perm h region year)) ?_
  rintro commodity _ rfl
  refine perm_gather_left fun timeslice _ => ?_
  simp only [value_bind, value_pure, h.value_production, h.yearSplit_eq]
  refine List.Perm.append_right _ ?_
  refine perm_each (flaggedTechnologies_reordered h _ fun _ _ => rfl) ?_
  intro technology technology' ht
  simp only [value_bind, value_pure, ht.value_commodityRate ctx other]

theorem unordered_renewableRule : (renewableRule : ConstraintRule R).Unordered ctx other := by
  have htarget : (ctx.withModel other).model.renewableTarget = ctx.model.renewableTarget :=
    congrArg ModelFields.renewableTarget h.fields
  simp only [Unordered, renewableRule, htarget]
  refine agree_of_eq (value_gather_congr _ fun (key, share) => ?_)
  dsimp only
  split
  · next region year =>
    simp only [value_bind, (renewableCommodities_perm h region year).isEmpty_eq]
    split
    · rfl
    · simp only [value_bind, value_pure, value_renewableSurplus h]
  · rfl

variable (hg : (ctx.model.regionGroups.map (·.id)).Nodup)

include hg in
theorem unordered_groupRenewableRule :
    (groupRenewableRule : ConstraintRule R).Unordered ctx other := by
  refine agree_gather (.of_perm h.regionGroups) 0 hg ?_
  rintro group _ rfl
  refine .gather fun (key, share) => ?_
  dsimp only
  split
  · next year =>
    refine .bind rfl fun regions => .step ?_
    have hcounting : (gather (renewableCommodities ctx · year) regions).value.Perm
        (gather (renewableCommodities (ctx.withModel other) · year) regions).value :=
      perm_gather_left fun region _ => renewableCommodities_perm h region year
    rw [hcounting.isEmpty_eq]
    refine .ite .none (.bind ?_ fun parts => .one rfl rfl)
    refine value_each_congr regions fun region => ?_
    simp only [value_bind, value_pure, value_renewableSurplus h]
  · exact .none

end EnergyPlan.ConstraintRule
