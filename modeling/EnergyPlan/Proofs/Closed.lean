/-
# Compiling cannot fail, and its problem is closed

Once the sets of a model that was built hold all that it refers to, the model compiles: no
tensor and no family is asked under a key that does not fit, and no variable is named that
there is not. The problem is closed: every variable of a constraint or of the objective is
in the family it names, and every key and index has one label for each dimension of its
family. So a run whose stages all succeed up to the index sets ends with a problem
(`compileTree_closed`).

Key definitions: `Problem.Has`, `Problem.Closed`, `Context.ofModel`, `Context.problem`.
Key theorems: `fitsIn_constraintRules`, `closed_of_sound`, `compile_of_sound`,
`compileTree_closed`.
-/
import EnergyPlan.Proofs.Exact
import EnergyPlan.Proofs.Families
import EnergyPlan.Proofs.Fit.Activity
import EnergyPlan.Proofs.Fit.Capacity
import EnergyPlan.Proofs.Fit.Cost
import EnergyPlan.Proofs.Fit.Store
import EnergyPlan.Proofs.Fit.Target
import EnergyPlan.Proofs.Stages

namespace EnergyPlan

open Noted LinearExpression Context Config Fields

/-! ### Closed problems -/

namespace Problem

variable {R : Type}

/-- A variable is in the family of the problem that it names. -/
def Has (problem : Problem R) (v : VariableRef) : Prop :=
  ∃ family, problem.unknowns[v.family]? = some family ∧ v.key ∈ family.entries

/-- A problem names only its own variables, and its keys and indexes fit. -/
structure Closed (problem : Problem R) : Prop where
  constraints : ∀ (name : String) (family : ConstraintFamily R),
    problem.constraints[name]? = some family → ∀ (index : Key) (c : Constraint R),
      family.entries[index]? = some c → c.index = index ∧ c.lhs.Over problem.Has
  objective : problem.objective.Over problem.Has
  keys : ∀ (name : String) (family : VariableFamily R),
    problem.unknowns[name]? = some family →
      ∀ key ∈ family.entries, key.length = family.dimensions.length
  indexes : ∀ (name : String) (family : ConstraintFamily R),
    problem.constraints[name]? = some family →
      ∀ index ∈ family.entries, index.length = family.dimensions.length

end Problem

variable {R : Type} [Zero R] [One R] [Add R] [Sub R] [Mul R] [Div R] [Neg R] [BEq R] [LT R]
  [DecidableLT R]

/-- The context in which a model is compiled. -/
def Context.ofModel (model : EnergyModel R) (sets : IndexSets) (bigM : R) : Context R :=
  ⟨model, sets, (variableTable model sets).value, bigM⟩

/-- The problem that is put together in a context, whatever is noted on the way. -/
def Context.problem [Scalar R] (ctx : Context R) : Problem R where
  unknowns := ctx.unknowns
  constraints := (constraintTable ctx).value
  objective := (objective ctx).value

/-! ### Every rule fits -/

section

variable {ctx : Context R} (hc : ctx.Sound)

include hc

open ConstraintRule

theorem fitsIn_constraintRules (irrefl : ¬ (0 : R) < 0) :
    ∀ rule ∈ constraintRules, rule.FitsIn ctx := by
  have ht := hc.shaped.technologies
  have hs := hc.shaped.storage
  have hcharge : ∀ key ∈ VariableGroup.storageKeys ctx.model ctx.sets, ctx.Has .charge key :=
    fun _ h => h
  have hdischarge : ∀ key ∈ VariableGroup.storageKeys ctx.model ctx.sets,
      ctx.Has .discharge key := fun _ h => h
  simp only [constraintRules, List.forall_mem_cons]
  refine ⟨fitsIn_capacityRule hc, fitsIn_unitRule hc irrefl, fitsIn_maintenanceRule hc,
    fitsIn_balanceRule hc, fitsIn_annualBalanceRule hc, ?_⟩
  refine ⟨fitsIn_newCapacityRule hc fun t h => (ht t h).additionalMax,
    fitsIn_newCapacityRule hc fun t h => (ht t h).additionalMin,
    fitsIn_grossCapacityRule hc fun t h => (ht t h).grossMax,
    fitsIn_grossCapacityRule hc fun t h => (ht t h).grossMin, ?_⟩
  refine ⟨fitsIn_annualActivityRule hc fun t h => (ht t h).activityAnnualMax,
    fitsIn_annualActivityRule hc fun t h => (ht t h).activityAnnualMin, fitsIn_leastUseRule hc,
    fitsIn_totalActivityRule hc fun t h => (ht t h).activityTotalMax,
    fitsIn_totalActivityRule hc fun t h => (ht t h).activityTotalMin, ?_⟩
  refine ⟨fitsIn_emissionRule hc, fitsIn_totalEmissionRule hc, fitsIn_marginRule hc,
    fitsIn_groupMarginRule hc, fitsIn_renewableRule hc, fitsIn_groupRenewableRule hc, ?_⟩
  refine ⟨fitsIn_rateRule hc hcharge fun _ h => h.toStorage,
    fitsIn_rateRule hc hdischarge fun _ h => h.fromStorage, fitsIn_levelRule hc,
    fitsIn_dailyBalanceRule hc, fitsIn_annualBalanceOfStorageRule hc, fitsIn_upperLimitRule hc,
    fitsIn_lowerLimitRule hc, fitsIn_rateLimitRule hc hcharge fun s h => (hs s h).maxChargeRate,
    fitsIn_rateLimitRule hc hdischarge fun s h => (hs s h).maxDischargeRate, ?_⟩
  refine ⟨fitsIn_routeCapacityRule hc, fitsIn_newRouteRule hc, fitsIn_maxGrowthRule hc,
    fitsIn_growthBranchRule hc, fitsIn_floorBranchRule hc, fitsIn_minGrowthRule hc, ?_⟩
  exact ⟨fitsIn_productionTargetRule hc (fun t h => (ht t h).productionTargetMin)
      fun _ _ => mem_fieldValues_productionTargetMin,
    fitsIn_productionTargetRule hc (fun t h => (ht t h).productionTargetMax)
      fun _ _ => mem_fieldValues_productionTargetMax,
    List.forall_mem_nil _⟩

/-! ### The problem of a sound context -/

/-- The problem has every variable of the model. -/
theorem has_of_known [Scalar R] {v : VariableRef} (h : ctx.Known v) : ctx.problem.Has v := by
  obtain ⟨group, hname, hkey⟩ := h
  refine ⟨(group.family ctx.model ctx.sets).value, ?_, VariableGroup.mem_entries_family.2 hkey⟩
  rw [problem, hc.unknowns, hname]
  exact VariableGroup.getElem?_variableTable group

theorem closed_of_sound [Scalar R] (irrefl : ¬ (0 : R) < 0) : ctx.problem.Closed := by
  have hfit := fitsIn_constraintRules hc irrefl
  constructor
  case constraints =>
    intro name family hf index c hi
    obtain ⟨rule, hr, -, rfl⟩ := exists_rule_of_constraintTable hf
    obtain ⟨hm, hindex⟩ := mem_of_getElem?_entries hi
    have hover := ((hfit rule hr).2 c hm).2
    exact ⟨hindex, fun v hv => has_of_known hc (hover v hv)⟩
  case objective => exact fun v hv => has_of_known hc ((yields_objective hc).2 v hv)
  case keys =>
    intro name family hf key hk
    rw [problem, hc.unknowns] at hf
    obtain ⟨group, -, rfl⟩ := VariableGroup.exists_group_of_variableTable hf
    rw [VariableGroup.dimensions_family]
    exact hc.length_key (VariableGroup.mem_entries_family.1 hk)
  case indexes =>
    intro name family hf index hi
    obtain ⟨rule, hr, -, rfl⟩ := exists_rule_of_constraintTable hf
    obtain ⟨c, hm, rfl⟩ := mem_entries_family.1 hi
    rw [dimensions_family]
    exact ((hfit rule hr).2 c hm).1

end

/-! ### Compiling a model that was built -/

section

variable [Scalar R]

variable {definition root : Node} {time : TimeStructure R} {members : MemberSets}
  {tolerance : R} {model : EnergyModel R} {sets : IndexSets}

omit [Mul R] [BEq R] in
/-- The context of a model that was built from a time structure that was read, and whose
sets hold all it refers to, is sound. -/
theorem sound_of_stages [LE R] [DecidableLE R] (ht : TimeStructure.ofNode definition = .ok time)
    (hb : buildModel root time members tolerance = .ok model)
    (hs : deriveSets model = .ok sets) (bigM : R) :
    (Context.ofModel model sets bigM).Sound where
  shaped := shaped_of_buildModel hb (TimeStructure.dimensions_yearSplit ht)
  distinct := distinctIds_of_buildModel hb
  hold := (deriveSets_eq_ok_iff.1 hs).2
  unknowns := rfl

/-- A model with a sound context compiles to the problem of the context. -/
theorem compile_of_sound {bigM : R} (hc : (Context.ofModel model sets bigM).Sound)
    (irrefl : ¬ (0 : R) < 0) :
    compile model sets bigM = .ok (Context.ofModel model sets bigM).problem := by
  refine settled_eq_ok_iff.2 ⟨?_, rfl⟩
  have hvariables := VariableGroup.yields_variableTable hc.shaped sets
  have hconstraints := yields_constraintTable (fitsIn_constraintRules hc irrefl)
  rw [buildProblem, notes_bind, notes_bind, notes_bind]
  refine List.append_eq_nil_iff.2 ⟨hvariables.1, ?_⟩
  refine List.append_eq_nil_iff.2 ⟨hconstraints.1, ?_⟩
  exact List.append_eq_nil_iff.2 ⟨(yields_objective hc).1, rfl⟩

end

/-- **Compiling cannot fail.** Once the options are read, the references are resolved, the
fields are expanded, the model is built and its sets are derived, the model compiles to a
problem; the problem is closed, and the run ends with it. The order of the numbers plays a
part in one place only: what is not there counts as zero, which is not above zero. -/
theorem compileTree_closed [LE R] [DecidableLE R] [Scalar R] (irrefl : ¬ (0 : R) < 0)
    {env : Environment} {defaults options : Options R} {tree root resolved : Node}
    {expanded : Expanded R} {model : EnergyModel R} {sets : IndexSets}
    (ho : readOptions defaults tree = .ok (options, root))
    (hr : (resolve env options.maxPasses root).outcome = .ok resolved)
    (he : expandModel resolved = .ok expanded)
    (hb : buildModel expanded.root expanded.time expanded.sets options.sumTolerance =
      .ok model)
    (hs : deriveSets model = .ok sets) :
    ∃ problem, compile model sets options.bigM = .ok problem ∧ problem.Closed ∧
      Pipeline.Returns (compileTree env defaults tree) ⟨options, model, sets, problem⟩ := by
  have hc := sound_of_stages (ofNode_of_expandModel he) hb hs options.bigM
  have hp := compile_of_sound hc irrefl
  exact ⟨_, hp, closed_of_sound hc irrefl, returns_compileTree ho hr he hb hs hp⟩

/-- Two regions with trade and a storage go through all stages. -/
theorem compileTree_closed_sample :
    ¬ (0 : Rat) < 0 ∧
      ∃ (options : Options Rat) (root resolved : Node) (expanded : Expanded Rat)
        (model : EnergyModel Rat) (sets : IndexSets),
        readOptions .standard Exact.sample = .ok (options, root) ∧
        (resolve Exact.noVariables options.maxPasses root).outcome = .ok resolved ∧
        expandModel resolved = .ok expanded ∧
        buildModel expanded.root expanded.time expanded.sets options.sumTolerance = .ok model ∧
        deriveSets model = .ok sets ∧
        ∃ problem, compile model sets options.bigM = .ok problem ∧ problem.Closed ∧
          Pipeline.Returns (compileTree Exact.noVariables .standard Exact.sample)
            ⟨options, model, sets, problem⟩ := by
  have haccepts : Exact.accepts Exact.noVariables .standard Exact.sample
      (fun _ _ => true) = true := by decide +kernel
  obtain ⟨options, root, resolved, expanded, model, sets, ho, hr, he, hb, hs, -⟩ :=
    Exact.exists_of_accepts haccepts
  refine ⟨Rat.lt_irrefl, options, root, resolved, expanded, model, sets, ho, hr, he, hb, hs, ?_⟩
  exact compileTree_closed Rat.lt_irrefl ho hr he hb hs

end EnergyPlan
