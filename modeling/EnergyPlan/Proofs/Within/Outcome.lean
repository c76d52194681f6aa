/-
# A model compiles to the problem of its part over the sets

The variables, the constraints and the cost of a model are those of its part over the sets it
is compiled over. So a model that differs from another one only in what fields with defaults,
and the costs of capital, hold under other keys is compiled to the same problem: wherever the
compilation asks for such a value, it asks under a key over the sets (`compile_within`).

Key theorems: `within_constraintRules`, `objective_within`, `family_within`,
`compile_within`.
-/
import EnergyPlan.Proofs.Closed
import EnergyPlan.Proofs.Within.Rules

set_option linter.unusedSectionVars false

namespace EnergyPlan

open Noted IndexSets Context

variable {R : Type} [Zero R] [One R] [Add R] [Sub R] [Mul R] [Div R] [Neg R] [BEq R] [LT R]
  [DecidableLT R]

/-! ### Constraints -/

section

variable {ctx : Context R} (hc : ctx.Inside)

include hc

open ConstraintRule

theorem within_constraintRules : ∀ rule ∈ constraintRules, rule.Within ctx := by
  simp only [constraintRules, List.forall_mem_cons]
  refine ⟨within_capacityRule hc, within_unitRule hc, within_maintenanceRule hc,
    within_balanceRule hc, within_annualBalanceRule hc, ?_⟩
  refine ⟨within_newCapacityRule hc fun _ => rfl, within_newCapacityRule hc fun _ => rfl,
    within_grossCapacityRule hc fun _ => rfl, within_grossCapacityRule hc fun _ => rfl, ?_⟩
  refine ⟨within_annualActivityRule hc fun _ => rfl, within_annualActivityRule hc fun _ => rfl,
    within_leastUseRule hc, within_totalActivityRule hc fun _ => rfl,
    within_totalActivityRule hc fun _ => rfl, ?_⟩
  refine ⟨within_emissionRule hc, within_totalEmissionRule hc, within_marginRule hc,
    within_groupMarginRule hc, within_renewableRule hc, within_groupRenewableRule hc, ?_⟩
  refine ⟨within_rateRule fun _ => rfl, within_rateRule fun _ => rfl, within_levelRule hc,
    within_dailyBalanceRule, within_annualBalanceOfStorageRule, within_upperLimitRule hc,
    within_lowerLimitRule hc, within_rateLimitRule fun _ => rfl,
    within_rateLimitRule fun _ => rfl, ?_⟩
  exact ⟨within_routeCapacityRule hc, within_newRouteRule, within_maxGrowthRule hc,
    within_growthBranchRule hc, within_floorBranchRule hc, within_minGrowthRule hc,
    within_productionTargetRule fun _ => rfl, within_productionTargetRule fun _ => rfl,
    List.forall_mem_nil _⟩

theorem constraintTable_within : constraintTable ctx.within = constraintTable ctx := by
  refine bind_congr (each_congr fun rule hr => ?_) fun _ => rfl
  exact bind_congr (within_constraintRules hc rule hr) fun _ => rfl

/-! ### Cost -/

variable [Scalar R]

namespace CostFrame

theorem of_within {region : String} (hr : region ∈ ctx.sets.regions) (year : String) :
    CostFrame.of ctx.within region year = CostFrame.of ctx region year := by
  have hs := hc.shaped.fields
  refine bind_congr (Tensor.lookup_within _ hs.discountRate (tuple_region hr) _) fun rate => ?_
  exact bind_congr (Tensor.lookup_within _ hs.depreciation (tuple_region hr) _) fun _ => rfl

variable {frame : CostFrame R} (hr : frame.region ∈ ctx.sets.regions)
  (hy : frame.year ∈ ctx.sets.years)

include hr hy

section

variable {technology : Technology R} (ht : technology ∈ ctx.model.technologies)

include ht

theorem capitalPart_within :
    frame.capitalPart ctx.within (technology.within ctx.sets) =
      frame.capitalPart ctx technology := by
  have hs := hc.shaped.technologies technology ht
  have hkey : ctx.sets.Tuple [.region, .technology] [frame.region, technology.id] :=
    tuple_cons.2 ⟨hr, tuple_cons.2 ⟨hc.technologies technology ht, tuple_nil⟩⟩
  refine bind_congr (Tensor.lookup_within _ hc.shaped.fields.costOfCapital hkey _)
    fun ownRate => ?_
  refine bind_congr (Tensor.lookup_within _ hs.operatingLife (tuple_region hr) 1) fun life => ?_
  exact bind_congr (Tensor.lookup_within _ hs.capex (tuple_annual hr hy) 0) fun _ => rfl

theorem fixedPart_within :
    frame.fixedPart ctx.within (technology.within ctx.sets) = frame.fixedPart ctx technology := by
  have hs := hc.shaped.technologies technology ht
  refine bind_congr (Tensor.lookup_within _ hs.opexFixed (tuple_annual hr hy) 0) fun cost => ?_
  split
  · rfl
  · exact bind_congr (hc.grossCapacity_eq hr hy ht) fun _ => rfl

theorem activityParts_within :
    frame.activityParts ctx.within (technology.within ctx.sets) =
      frame.activityParts ctx technology := by
  have hs := hc.shaped.technologies technology ht
  refine gather_map_congr technology.modes fun mode hm => ?_
  refine bind_congr ?_ fun _ => rfl
  exact bind_congr (Tensor.lookup_within _ (hs.modes mode hm).opexVariable (tuple_annual hr hy) 0)
    fun _ => rfl

end

theorem storagePart_within {storage : Storage R} (ho : storage ∈ ctx.model.storage) :
    frame.storagePart ctx.within (storage.within ctx.sets) = frame.storagePart ctx storage := by
  have hkey : ctx.sets.Tuple [.region, .storage] [frame.region, storage.id] :=
    tuple_cons.2 ⟨hr, tuple_cons.2 ⟨hc.storage storage ho, tuple_nil⟩⟩
  exact bind_congr (Tensor.lookup_within _ hc.shaped.fields.costOfCapitalStorage hkey _)
    fun _ => rfl

theorem tradeParts_within {trade : Trade R} (ht : trade ∈ ctx.model.trade) :
    frame.tradeParts ctx.within (trade.within ctx.sets) = frame.tradeParts ctx trade := by
  have hs := hc.shaped.trade trade ht
  refine gather_congr fun other ho => bind_congr rfl fun there => ?_
  split
  · refine bind_congr rfl fun ownRate => ?_
    refine bind_congr (Tensor.lookup_within _ hs.operatingLife (tuple_routeYear hr ho hy) 1)
      fun life => ?_
    exact bind_congr (Tensor.lookup_within _ hs.capex (tuple_routeYear hr ho hy) 0) fun _ => rfl
  · rfl

theorem parts_within : frame.parts ctx.within = frame.parts ctx := by
  refine bind_congr (gather_map_congr ctx.model.technologies fun technology ht => ?_)
    fun technologies => ?_
  · exact bind_congr (capitalPart_within hc hr hy ht) fun capital =>
      bind_congr (fixedPart_within hc hr hy ht) fun fixed =>
        bind_congr (activityParts_within hc hr hy ht) fun _ => rfl
  refine bind_congr rfl fun impacts => ?_
  refine bind_congr (gather_map_congr ctx.model.storage fun storage ho =>
    storagePart_within hc hr hy ho) fun storages => ?_
  exact bind_congr (gather_map_congr ctx.model.trade fun trade ht =>
    tradeParts_within hc hr hy ht) fun _ => rfl

end CostFrame

theorem objective_within : objective ctx.within = objective ctx := by
  have hparts : costParts ctx.within = costParts ctx :=
    gather_congr fun region hr => gather_congr fun year hy =>
      bind_congr_value (CostFrame.of_within hc hr year) (CostFrame.parts_within hc hr hy)
  exact congrArg (LinearExpression.sum <$> ·) hparts

end

/-! ### Variables -/

namespace VariableGroup

variable (model : EnergyModel R) (sets : IndexSets)

theorem technologyKeys_within {picked picked' : String → Technology R → String → Lookup Bool}
    (h : ∀ region technology year,
      picked region (technology.within sets) year = picked' region technology year) :
    technologyKeys (model.within sets) sets picked = technologyKeys model sets picked' := by
  refine gather_congr fun region _ => ?_
  refine gather_map_congr model.technologies fun technology _ => ?_
  exact gather_congr fun year _ => bind_congr (h region technology year) fun _ => rfl

theorem keys_within (group : VariableGroup) :
    group.keys (model.within sets) sets = group.keys model sets := by
  have hactivity : activityKeys (model.within sets) sets = activityKeys model sets := by
    simp only [activityKeys, EnergyModel.within, Technology.within, List.flatMap_map, List.map_map]
    rfl
  have hstorage : storageKeys (model.within sets) sets = storageKeys model sets := by
    simp only [storageKeys, EnergyModel.within, List.flatMap_map]
    rfl
  have hnew : newStorageKeys (model.within sets) sets = newStorageKeys model sets := by
    simp only [newStorageKeys, EnergyModel.within, List.flatMap_map]
    rfl
  cases group with
  | activity => exact congrArg pure hactivity
  | newCapacity => exact technologyKeys_within model sets fun _ _ _ => rfl
  | newUnits => exact technologyKeys_within model sets fun _ _ _ => rfl
  | growthFloor => exact technologyKeys_within model sets fun _ _ _ => rfl
  | newStorage => exact congrArg pure hnew
  | storageLevel => exact congrArg pure hstorage
  | charge => exact congrArg pure hstorage
  | discharge => exact congrArg pure hstorage
  | exports => exact gather_map_congr model.trade fun _ _ => rfl
  | newTrade => exact gather_map_congr model.trade fun _ _ => rfl

theorem family_within (group : VariableGroup) :
    group.family (model.within sets) sets = group.family model sets :=
  bind_congr (group.keys_within model sets) fun _ => rfl

end VariableGroup

theorem variableTable_within (model : EnergyModel R) (sets : IndexSets) :
    variableTable (model.within sets) sets = variableTable model sets :=
  bind_congr (each_congr fun group _ => group.family_within model sets) fun _ => rfl

/-! ### The problem -/

variable [Scalar R] {model : EnergyModel R} {sets : IndexSets}

/-- **A model compiles to the problem of its part over the sets.** -/
theorem compile_within {bigM : R} (hc : (Context.ofModel model sets bigM).Inside) :
    compile (model.within sets) sets bigM = compile model sets bigM := by
  let ctx := Context.ofModel model sets bigM
  have hstep : (do
      let constraints ← constraintTable ctx.within
      let objective ← objective ctx.within
      return { unknowns := ctx.unknowns, constraints, objective : Problem R }) =
    (do
      let constraints ← constraintTable ctx
      let objective ← objective ctx
      return { unknowns := ctx.unknowns, constraints, objective }) := by
    rw [constraintTable_within hc, objective_within hc]
  exact congrArg settled (bind_congr_value (variableTable_within model sets) hstep)

end EnergyPlan
