/-
# The order of entities does not matter

A model that was built, and a model with the same entities in another order, come to the
same: both have index sets or neither has, the sets are the same, and where sums are exact
both compile to the same problem, with the same variables, the same constraints at the same
indexes and the same objective.

Key definitions: `EnergyModel.reversed`.
Key theorems: `unordered_constraintRules`, `problem_withModel`, `compile_reordered`.
-/
import EnergyPlan.Proofs.Closed
import EnergyPlan.Proofs.Order.Balances
import EnergyPlan.Proofs.Order.Cost
import EnergyPlan.Proofs.Order.Stores
import EnergyPlan.Proofs.Order.Technologies

namespace EnergyPlan

open Noted LinearExpression Config

/-! ### The problem of a context -/

section

variable {R : Type} [AddCommMonoid R] [One R] [Sub R] [Mul R] [Div R] [Neg R] [BEq R]
  [LawfulBEq R] [LT R] [DecidableLT R] {ctx : Context R} {other : EnergyModel R}
  (h : ctx.model.Reordered other) (hd : ctx.model.DistinctIds)
  (ht : (ctx.model.trade.map (·.commodity)).Nodup)

include h hd ht

open ConstraintRule

theorem unordered_constraintRules :
    ∀ rule ∈ (constraintRules : List (ConstraintRule R)), rule.Unordered ctx other := by
  have htechnologies := hd.technologies
  have hstorage := hd.storage
  simp only [constraintRules, List.forall_mem_cons]
  refine ⟨unordered_capacityRule h htechnologies, unordered_unitRule h htechnologies,
    unordered_maintenanceRule h htechnologies, unordered_balanceRule h ht hd.commodities,
    unordered_annualBalanceRule h ht hd.commodities, ?_⟩
  refine ⟨unordered_newCapacityRule h htechnologies fun _ _ => rfl,
    unordered_newCapacityRule h htechnologies fun _ _ => rfl,
    unordered_grossCapacityRule h htechnologies fun _ _ => rfl,
    unordered_grossCapacityRule h htechnologies fun _ _ => rfl, ?_⟩
  refine ⟨unordered_annualActivityRule h htechnologies fun _ _ => rfl,
    unordered_annualActivityRule h htechnologies fun _ _ => rfl,
    unordered_leastUseRule h htechnologies,
    unordered_totalActivityRule h htechnologies fun _ _ => rfl,
    unordered_totalActivityRule h htechnologies fun _ _ => rfl, ?_⟩
  refine ⟨unordered_emissionRule h hd.impacts, unordered_totalEmissionRule h hd.impacts,
    unordered_marginRule h, unordered_groupMarginRule h hd.regionGroups,
    unordered_renewableRule h, unordered_groupRenewableRule h hd.regionGroups, ?_⟩
  refine ⟨unordered_rateRule h hstorage, unordered_rateRule h hstorage,
    unordered_levelRule h hstorage, unordered_dailyBalanceRule h hstorage,
    unordered_annualBalanceOfStorageRule h hstorage, unordered_upperLimitRule h hstorage,
    unordered_lowerLimitRule h hstorage, unordered_rateLimitRule h hstorage,
    unordered_rateLimitRule h hstorage, ?_⟩
  refine ⟨unordered_routeCapacityRule h ht, unordered_newRouteRule h ht,
    unordered_maxGrowthRule h htechnologies, unordered_growthBranchRule h htechnologies,
    unordered_floorBranchRule h htechnologies, unordered_minGrowthRule h htechnologies, ?_⟩
  exact ⟨unordered_productionTargetRule h htechnologies fun _ _ => rfl,
    unordered_productionTargetRule h htechnologies fun _ _ => rfl, List.forall_mem_nil _⟩

/-- Another order of the entities leaves every family of constraints. -/
theorem value_constraintTable_withModel :
    (constraintTable (ctx.withModel other)).value = (constraintTable ctx).value := by
  rw [value_constraintTable, value_constraintTable]
  congr 1
  refine List.map_congr_left fun rule hr => ?_
  rw [value_family, value_family]
  exact (unordered_constraintRules h hd ht rule hr _).symm

variable [Scalar R]

/-- Another order of the entities leaves the problem of a context. -/
theorem problem_withModel : (ctx.withModel other).problem = ctx.problem := by
  unfold Context.problem
  rw [value_constraintTable_withModel h hd ht, value_objective h]
  rfl

end

/-! ### Compiling a model that was built -/

/-- A model with all its lists turned round. -/
def EnergyModel.reversed {R : Type} (model : EnergyModel R) : EnergyModel R :=
  { model with
    regions := model.regions.reverse
    regionGroups := model.regionGroups.reverse
    commodities := model.commodities.reverse
    impacts := model.impacts.reverse
    technologies := model.technologies.reverse.map fun technology =>
      { technology with modes := technology.modes.reverse }
    storage := model.storage.reverse
    trade := model.trade.reverse }

theorem EnergyModel.reordered_reversed {R : Type} (model : EnergyModel R) :
    model.Reordered model.reversed where
  fields := rfl
  time := rfl
  regions := (List.reverse_perm _).symm
  regionGroups := (List.reverse_perm _).symm
  commodities := (List.reverse_perm _).symm
  impacts := (List.reverse_perm _).symm
  technologies := by
    refine ⟨model.technologies.reverse, (List.reverse_perm _).symm, ?_⟩
    refine List.forall₂_map_right_iff.2 (List.forall₂_same.2 fun technology _ => ?_)
    exact ⟨technology.modes.reverse, (List.reverse_perm _).symm, rfl⟩
  storage := (List.reverse_perm _).symm
  trade := (List.reverse_perm _).symm

/-- **The order of entities does not matter.** Let the entities of a model that was built be
listed in another order, and the modes of its technologies too. Then the index sets of both
models are derived or those of neither are, they are the same sets, and with them both models
compile, to the same problem. Sums are taken to be exact, and trades to carry distinct
commodities; whether the modes of a technology have distinct ids plays no part. -/
theorem compile_reordered {R : Type} [AddCommMonoid R] [One R] [Sub R] [Mul R] [Div R] [Neg R]
    [BEq R] [LawfulBEq R] [LT R] [DecidableLT R] [LE R] [DecidableLE R] [Scalar R]
    (irrefl : ¬ (0 : R) < 0) {root : Node} {time : TimeStructure R} {members : MemberSets}
    {tolerance bigM : R} {model other : EnergyModel R}
    (ht : time.yearSplit.dimensions = [.timeslice, .year])
    (hb : buildModel root time members tolerance = .ok model)
    (htrades : (model.trade.map (·.commodity)).Nodup) (h : model.Reordered other) :
    (∀ sets, deriveSets model = .ok sets ↔ deriveSets other = .ok sets) ∧
      ∀ sets, deriveSets model = .ok sets → ∃ problem,
        compile model sets bigM = .ok problem ∧ compile other sets bigM = .ok problem := by
  have hd := distinctIds_of_buildModel hb
  have hiff := h.deriveSets_iff hd
  refine ⟨hiff, fun sets hs => ?_⟩
  have hshaped := shaped_of_buildModel hb ht
  have hc : (Context.ofModel model sets bigM).Sound :=
    ⟨hshaped, hd, (deriveSets_eq_ok_iff.1 hs).2, rfl⟩
  have hc' : (Context.ofModel other sets bigM).Sound :=
    ⟨h.shaped hshaped, h.distinctIds hd, (deriveSets_eq_ok_iff.1 ((hiff sets).1 hs)).2, rfl⟩
  have hother : Context.ofModel other sets bigM =
      (Context.ofModel model sets bigM).withModel other :=
    congrArg (Context.mk other sets · bigM) h.variableTable_eq.symm
  have hproblem : ((Context.ofModel model sets bigM).withModel other).problem =
      (Context.ofModel model sets bigM).problem := problem_withModel h hd htrades
  refine ⟨_, compile_of_sound hc irrefl, ?_⟩
  rw [compile_of_sound hc' irrefl, hother, hproblem]

/-- A plan with two of everything: regions, commodities, impacts, technologies, modes of a
technology, storages and trades. -/
def Exact.pairs : Node :=
  .mapping [
    ("id", .plain "plan"),
    ("time_definition", .mapping [("years", .sequence [.plain "2020"])]),
    ("regions", .sequence [
      .mapping [("id", .plain "north")],
      .mapping [("id", .plain "south")]]),
    ("commodities", .sequence [
      .mapping [("id", .plain "heat"), ("demand_annual", .plain "8")],
      .mapping [("id", .plain "power"), ("demand_annual", .plain "4")]]),
    ("impacts", .sequence [
      .mapping [("id", .plain "smoke")],
      .mapping [("id", .plain "noise")]]),
    ("technologies", .sequence [
      .mapping [
        ("id", .plain "plant"),
        ("operating_modes", .sequence [
          .mapping [
            ("id", .plain "burn"),
            ("output_activity_ratio", .mapping [("heat", .plain "1")])],
          .mapping [
            ("id", .plain "spin"),
            ("output_activity_ratio", .mapping [("power", .plain "1")]),
            ("to_storage", .plain "true"),
            ("from_storage", .plain "true")]])],
      .mapping [
        ("id", .plain "boiler"),
        ("operating_modes", .sequence [
          .mapping [
            ("id", .plain "burn"),
            ("output_activity_ratio", .mapping [("heat", .plain "1")])]])]]),
    ("storage", .sequence [
      .mapping [("id", .plain "tank"), ("capex", .plain "5"), ("operating_life", .plain "10")],
      .mapping [("id", .plain "cell"), ("capex", .plain "9"), ("operating_life", .plain "4")]]),
    ("trade", .sequence [
      .mapping [
        ("id", .plain "pipe"),
        ("commodity", .plain "heat"),
        ("trade_routes", .plain "true")],
      .mapping [
        ("id", .plain "wire"),
        ("commodity", .plain "power"),
        ("trade_routes", .plain "true")]])]

/-- A plan with two of everything compiles to the same problem the other way round. -/
theorem compile_reordered_sample :
    ¬ (0 : Rat) < 0 ∧
      ∃ (root : Node) (time : TimeStructure Rat) (members : MemberSets) (tolerance : Rat)
        (model : EnergyModel Rat) (sets : IndexSets),
        time.yearSplit.dimensions = [.timeslice, .year] ∧
        buildModel root time members tolerance = .ok model ∧
        (model.trade.map (·.commodity)).Nodup ∧ model.Reordered model.reversed ∧
        model.technologies.map (·.id) = ["plant", "boiler"] ∧
        model.reversed.technologies.map (·.id) = ["boiler", "plant"] ∧
        (∀ sets, deriveSets model = .ok sets ↔ deriveSets model.reversed = .ok sets) ∧
        deriveSets model = .ok sets ∧ ∃ problem,
          compile model sets 1000 = .ok problem ∧
            compile model.reversed sets 1000 = .ok problem := by
  have haccepts : Exact.accepts Exact.noVariables .standard Exact.pairs (fun model _ =>
      decide ((model.trade.map (·.commodity)).Nodup ∧
        model.technologies.map (·.id) = ["plant", "boiler"] ∧
        model.reversed.technologies.map (·.id) = ["boiler", "plant"])) = true := by
    decide +kernel
  obtain ⟨options, root, resolved, expanded, model, sets, -, -, he, hb, hs, htest⟩ :=
    Exact.exists_of_accepts haccepts
  obtain ⟨htrades, hids, hreversed⟩ := of_decide_eq_true htest
  have ht := TimeStructure.dimensions_yearSplit (ofNode_of_expandModel he)
  obtain ⟨hiff, hcompile⟩ := compile_reordered Rat.lt_irrefl ht hb htrades model.reordered_reversed
  exact ⟨Rat.lt_irrefl, _, _, _, _, model, sets, ht, hb, htrades, model.reordered_reversed, hids,
    hreversed, hiff, hs, hcompile sets hs⟩

end EnergyPlan
