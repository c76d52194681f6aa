/-
# What variables are called after

A variable is named by the ids of what it belongs to: a rate of activity by those of a
technology and a mode, a variable of a route by the commodity that is traded. In a model that
was built no two modes of a technology have one id, and no two trades carry one commodity,
unless the id or the commodity is the empty text. So the variables of two operations, or of two
trades, are different ones, except that modes whose ids are empty have all their variables in
common, and that trades of the empty commodity may have some.

Key definitions: `EnergyModel.operations`, `EnergyModel.ratesOf`, `EnergyModel.keysOf`.
Key theorems: `pairwise_of_repeated`, `mem_keys_activity`, `mem_keys_trade`,
`buildModel_identifies`.
-/
import EnergyPlan.Proofs.Composition
import EnergyPlan.Proofs.Exact
import EnergyPlan.Proofs.Unknowns

namespace EnergyPlan

open Config

/-! ### Repeated texts -/

/-- A text that is repeated is reported, so if only the empty text is reported, then texts differ
from those before them, unless they are empty. -/
theorem pairwise_of_repeated {seen texts : List String} (h : ∀ s ∈ repeated seen texts, s = "") :
    texts.Pairwise (fun s t => s = t → s = "") ∧ ∀ s ∈ texts, s ∈ seen → s = "" := by
  induction texts generalizing seen with
  | nil => exact ⟨.nil, fun s hs => absurd hs List.not_mem_nil⟩
  | cons s rest ih =>
    unfold repeated at h
    by_cases hs : s ∈ seen
    · rw [if_pos hs, List.forall_mem_cons] at h
      obtain ⟨hpairs, hseen⟩ := ih h.2
      exact ⟨.cons (fun _ _ _ => h.1) hpairs, List.forall_mem_cons.2 ⟨fun _ => h.1, hseen⟩⟩
    · rw [if_neg hs] at h
      obtain ⟨hpairs, hseen⟩ := ih h
      refine ⟨.cons ?_ hpairs, List.forall_mem_cons.2 ⟨fun hm => absurd hm hs, ?_⟩⟩
      · rintro t ht rfl
        exact hseen s ht List.mem_cons_self
      · exact fun t ht hm => hseen t ht (List.mem_cons_of_mem s hm)

/-- Texts that differ as far as they are not empty. -/
theorem pairwise_of_nodup_filter {texts : List String}
    (h : (texts.filter fun s => !s.isEmpty).Nodup) :
    texts.Pairwise fun s t => s = t → s = "" := by
  refine (List.pairwise_filter.1 h).imp ?_
  intro s t hne he
  by_contra hfull
  have hs : (!s.isEmpty) = true := by simpa using hfull
  exact hne hs (he ▸ hs) he

variable {R : Type}

/-! ### The variables of an operation and of a trade -/

namespace EnergyModel

variable (model : EnergyModel R) (sets : IndexSets)

/-- The operations of a model: its technologies, each in each of its modes. -/
def operations : List (Technology R × OperatingMode R) :=
  model.technologies.flatMap fun technology => technology.modes.map (technology, ·)

/-- The keys of the rates of activity if there is only one operation. -/
def ratesOf (operation : Technology R × OperatingMode R) : List Key :=
  VariableGroup.activityKeys
    { model with technologies := [{ operation.1 with modes := [operation.2] }] } sets

/-- The keys of a group of variables if there is only one trade. -/
def keysOf [Zero R] [LT R] [DecidableLT R] (group : VariableGroup) (trade : Trade R) : List Key :=
  (group.keys { model with trade := [trade] } sets).value

variable {model sets}

theorem mem_ratesOf {operation : Technology R × OperatingMode R} {key : Key} :
    key ∈ model.ratesOf sets operation ↔ ∃ region ∈ sets.regions, ∃ year ∈ sets.years,
      ∃ timeslice ∈ sets.timeslices,
        [region, timeslice, operation.1.id, operation.2.id, year] = key := by
  simp only [ratesOf, VariableGroup.mem_activityKeys, List.mem_singleton, exists_eq_left]

/-- The rates of activity are those of the operations. -/
theorem mem_activityKeys_iff {key : Key} : key ∈ VariableGroup.activityKeys model sets ↔
    ∃ operation ∈ model.operations, key ∈ model.ratesOf sets operation := by
  simp only [VariableGroup.mem_activityKeys, mem_ratesOf, operations, List.mem_flatMap,
    List.mem_map]
  constructor
  · rintro ⟨region, hr, technology, ht, year, hy, timeslice, hl, mode, hm, rfl⟩
    exact ⟨(technology, mode), ⟨technology, ht, mode, hm, rfl⟩, region, hr, year, hy, timeslice,
      hl, rfl⟩
  · rintro ⟨_, ⟨technology, ht, mode, hm, rfl⟩, region, hr, year, hy, timeslice, hl, rfl⟩
    exact ⟨region, hr, technology, ht, year, hy, timeslice, hl, mode, hm, rfl⟩

/-- Operations that agree in the ids of their technology and mode have the same variables. -/
theorem ratesOf_congr {operation operation' : Technology R × OperatingMode R}
    (ht : operation.1.id = operation'.1.id) (hm : operation.2.id = operation'.2.id) :
    model.ratesOf sets operation = model.ratesOf sets operation' := by
  simp only [ratesOf, VariableGroup.activityKeys, List.flatMap_singleton, List.map_singleton, ht,
    hm]

/-- Operations that have a variable in common agree in the ids of their technology and mode. -/
theorem ids_of_mem_ratesOf {operation operation' : Technology R × OperatingMode R} {key : Key}
    (h : key ∈ model.ratesOf sets operation) (h' : key ∈ model.ratesOf sets operation') :
    operation.1.id = operation'.1.id ∧ operation.2.id = operation'.2.id := by
  obtain ⟨region, -, year, -, timeslice, -, rfl⟩ := mem_ratesOf.1 h
  obtain ⟨region', -, year', -, timeslice', -, he⟩ := mem_ratesOf.1 h'
  simp only [List.cons.injEq, and_true] at he
  exact ⟨he.2.2.1.symm, he.2.2.2.1.symm⟩

section

variable [Zero R] [LT R] [DecidableLT R] {group : VariableGroup} {key : Key}

/-- The exports, and what is added to routes, are those of the trades. -/
theorem mem_keys_iff_of_trade (hg : group = .exports ∨ group = .newTrade) :
    key ∈ (group.keys model sets).value ↔
      ∃ trade ∈ model.trade, key ∈ model.keysOf sets group trade := by
  rcases hg with rfl | rfl
  · simp only [keysOf, VariableGroup.mem_exportKeys, List.mem_singleton, exists_eq_left]
  · simp only [keysOf, VariableGroup.mem_newTradeKeys, List.mem_singleton, exists_eq_left]

/-- Trades that have a variable in common carry one commodity. -/
theorem commodity_of_mem_keysOf (hg : group = .exports ∨ group = .newTrade)
    {trade trade' : Trade R} (h : key ∈ model.keysOf sets group trade)
    (h' : key ∈ model.keysOf sets group trade') : trade.commodity = trade'.commodity := by
  rcases hg with rfl | rfl
  · simp only [keysOf, VariableGroup.mem_exportKeys, List.mem_singleton, exists_eq_left] at h h'
    obtain ⟨origin, -, destination, -, year, -, -, timeslice, -, rfl⟩ := h
    obtain ⟨origin', -, destination', -, year', -, -, timeslice', -, he⟩ := h'
    simp only [List.cons.injEq, and_true] at he
    exact he.2.2.2.1.symm
  · simp only [keysOf, VariableGroup.mem_newTradeKeys, List.mem_singleton, exists_eq_left] at h h'
    obtain ⟨origin, -, destination, -, year, -, -, rfl⟩ := h
    obtain ⟨origin', -, destination', -, year', -, -, he⟩ := h'
    simp only [List.cons.injEq, and_true] at he
    exact he.2.2.1

end

end EnergyModel

/-! ### Models that were built -/

section

variable [Zero R] [One R] [Add R] [Sub R] [Neg R] [LT R] [DecidableLT R] [LE R] [DecidableLE R]
  [Scalar R] {root : Node} {time : TimeStructure R} {members : MemberSets} {tolerance : R}
  {model : EnergyModel R} (hb : buildModel root time members tolerance = .ok model)

include hb

/-- The modes of a technology that was read have different ids as far as they are not empty. -/
theorem pairwise_modes_of_buildModel {technology : Technology R}
    (ht : technology ∈ model.technologies) :
    technology.modes.Pairwise fun mode mode' => mode.id = mode'.id → mode.id = "" := by
  obtain ⟨-, rfl⟩ := Noted.checked_eq_ok_iff.1 hb
  obtain ⟨node, -, path, -, -, hcheck⟩ := mem_collect ht
  simp only [Technology.check, List.append_eq_nil_iff, List.map_eq_nil_iff,
    List.filter_eq_nil_iff] at hcheck
  have hempty : ∀ id ∈ repeated [] (technology.modes.map (·.id)), id = "" := by
    intro id hid
    simpa using hcheck.1.2 id hid
  exact List.pairwise_map.1 (pairwise_of_repeated hempty).1

/-- Trades carry different commodities as far as these are not empty. -/
theorem pairwise_trade_of_buildModel :
    model.trade.Pairwise fun trade trade' =>
      trade.commodity = trade'.commodity → trade.commodity = "" := by
  have hcomposed := EnergyModel.composition_eq_nil_iff.1 (checked_of_buildModel hb).2.2
  exact List.pairwise_map.1 (pairwise_of_nodup_filter hcomposed.carriedOnce)

/-- Operations that agree in the ids of their technology and mode belong to one technology and
have modes whose ids are empty. -/
theorem pairwise_operations_of_buildModel :
    model.operations.Pairwise fun operation operation' =>
      operation.1.id = operation'.1.id → operation.2.id = operation'.2.id →
        operation.1 = operation'.1 ∧ operation.2.id = "" := by
  have hdistinct := List.pairwise_map.1 (distinctIds_of_buildModel hb).technologies
  refine List.pairwise_flatMap.2 ⟨fun technology ht => ?_, hdistinct.imp ?_⟩
  · refine List.pairwise_map.2 ((pairwise_modes_of_buildModel hb ht).imp ?_)
    exact fun hempty _ hid => ⟨rfl, hempty hid⟩
  · rintro technology technology' hne operation ho operation' ho' hid
    obtain ⟨mode, -, rfl⟩ := List.mem_map.1 ho
    obtain ⟨mode', -, rfl⟩ := List.mem_map.1 ho'
    exact absurd hid hne

/-- **Ids identify as far as they are not empty.** In a model that was built the modes of a
technology have different ids, and the trades carry different commodities, except for the empty
text. Over any sets the rates of activity are those of the operations, and the variables of
routes those of the trades: two operations have no variable in common, unless they are modes of
one technology with empty ids, and then they have all in common; and two trades have no variable
in common, unless both carry the empty commodity. -/
theorem buildModel_identifies :
    (∀ technology ∈ model.technologies,
      technology.modes.Pairwise fun mode mode' => mode.id = mode'.id → mode.id = "") ∧
    (model.trade.Pairwise fun trade trade' =>
      trade.commodity = trade'.commodity → trade.commodity = "") ∧
    ∀ sets : IndexSets,
      (∀ key, key ∈ (VariableGroup.activity.keys model sets).value ↔
        ∃ operation ∈ model.operations, key ∈ model.ratesOf sets operation) ∧
      (model.operations.Pairwise fun operation operation' =>
        (model.ratesOf sets operation).Disjoint (model.ratesOf sets operation') ∨
          operation.1 = operation'.1 ∧ operation.2.id = "" ∧ operation'.2.id = "" ∧
            model.ratesOf sets operation = model.ratesOf sets operation') ∧
      ∀ group : VariableGroup, group = .exports ∨ group = .newTrade →
        (∀ key, key ∈ (group.keys model sets).value ↔
          ∃ trade ∈ model.trade, key ∈ model.keysOf sets group trade) ∧
        model.trade.Pairwise fun trade trade' =>
          (model.keysOf sets group trade).Disjoint (model.keysOf sets group trade') ∨
            trade.commodity = "" ∧ trade'.commodity = "" := by
  refine ⟨fun technology ht => pairwise_modes_of_buildModel hb ht,
    pairwise_trade_of_buildModel hb, fun sets => ⟨fun key => EnergyModel.mem_activityKeys_iff,
      (pairwise_operations_of_buildModel hb).imp ?_, fun group hg =>
        ⟨fun key => EnergyModel.mem_keys_iff_of_trade hg,
          (pairwise_trade_of_buildModel hb).imp ?_⟩⟩⟩
  · intro operation operation' hpair
    by_cases hid : operation.1.id = operation'.1.id ∧ operation.2.id = operation'.2.id
    · obtain ⟨htechnology, hempty⟩ := hpair hid.1 hid.2
      exact .inr ⟨htechnology, hempty, hid.2 ▸ hempty, EnergyModel.ratesOf_congr hid.1 hid.2⟩
    · exact .inl fun key h h' => hid (EnergyModel.ids_of_mem_ratesOf h h')
  · intro trade trade' hpair
    by_cases hid : trade.commodity = trade'.commodity
    · exact .inr ⟨hpair hid, hid ▸ hpair hid⟩
    · exact .inl fun key h h' => hid (EnergyModel.commodity_of_mem_keysOf hg h h')

end

/-- A plan in which two modes have an empty id, and two trades carry a commodity with an empty
id. -/
def Exact.nameless : Node :=
  .mapping [
    ("id", .plain "plan"),
    ("time_definition", .mapping [("years", .sequence [.plain "2020"])]),
    ("regions", .sequence [
      .mapping [("id", .plain "north")],
      .mapping [("id", .plain "south")]]),
    ("commodities", .sequence [
      .mapping [("id", .plain "heat")],
      .mapping [("id", .plain "")]]),
    ("impacts", .sequence [.mapping [("id", .plain "smoke")]]),
    ("technologies", .sequence [.mapping [
      ("id", .plain "boiler"),
      ("operating_modes", .sequence [
        .mapping [
          ("id", .plain ""),
          ("output_activity_ratio", .mapping [("heat", .plain "1")])],
        .mapping [("id", .plain "burn")],
        .mapping [
          ("id", .plain ""),
          ("output_activity_ratio", .mapping [("heat", .plain "2")])]])]]),
    ("trade", .sequence (["pipe", "road"].map fun id => .mapping [
      ("id", .plain id),
      ("commodity", .plain ""),
      ("trade_routes", .mapping [("north", .mapping [("south", .mapping [
        ("*", .plain "true")])])])]))]

/-- The mode that has an id shares no variable with those that have none. -/
theorem buildModel_identifies_nameless :
    ∃ (root : Node) (time : TimeStructure Rat) (members : MemberSets) (tolerance : Rat)
      (model : EnergyModel Rat), buildModel root time members tolerance = .ok model ∧
      model.operations.map (·.2.id) = ["", "burn", ""] ∧
      model.trade.map (·.commodity) = ["", ""] ∧
      (∀ technology ∈ model.technologies, technology.modes.Pairwise fun mode mode' =>
        mode.id = mode'.id → mode.id = "") ∧
      ∀ sets : IndexSets, model.operations.Pairwise fun operation operation' =>
        (model.ratesOf sets operation).Disjoint (model.ratesOf sets operation') ∨
          operation.1 = operation'.1 ∧ operation.2.id = "" ∧ operation'.2.id = "" ∧
            model.ratesOf sets operation = model.ratesOf sets operation' := by
  have haccepts : Exact.accepts Exact.noVariables .standard Exact.nameless (fun model _ =>
      decide (model.operations.map (·.2.id) = ["", "burn", ""] ∧
        model.trade.map (·.commodity) = ["", ""])) = true := by decide +kernel
  obtain ⟨options, root, resolved, expanded, model, sets, -, -, he, hb, hs, htest⟩ :=
    Exact.exists_of_accepts haccepts
  obtain ⟨hoperations, htrade⟩ := of_decide_eq_true htest
  obtain ⟨hmodes, -, hrest⟩ := buildModel_identifies hb
  exact ⟨_, _, _, _, model, hb, hoperations, htrade, hmodes, fun sets => (hrest sets).2.1⟩

/-- Empty ids do not identify: the two modes without an id have a rate of activity in common, and
the two trades of the empty commodity have an export and an addition to a route in common. -/
theorem not_identified_nameless :
    ∃ (root : Node) (time : TimeStructure Rat) (members : MemberSets) (tolerance : Rat)
      (model : EnergyModel Rat) (sets : IndexSets),
      buildModel root time members tolerance = .ok model ∧ deriveSets model = .ok sets ∧
      (∃ technology ∈ model.technologies, ¬ (technology.modes.map (·.id)).Nodup) ∧
      ¬ (model.trade.map (·.commodity)).Nodup ∧
      ¬ (model.operations.Pairwise fun operation operation' =>
        ∀ key ∈ model.ratesOf sets operation, key ∉ model.ratesOf sets operation') ∧
      ∀ group : VariableGroup, group = .exports ∨ group = .newTrade →
        ¬ model.trade.Pairwise fun trade trade' =>
          ∀ key ∈ model.keysOf sets group trade, key ∉ model.keysOf sets group trade' := by
  have haccepts : Exact.accepts Exact.noVariables .standard Exact.nameless (fun model sets =>
      decide ((∃ technology ∈ model.technologies, ¬ (technology.modes.map (·.id)).Nodup) ∧
        ¬ (model.trade.map (·.commodity)).Nodup ∧
        ¬ (model.operations.Pairwise fun operation operation' =>
          ∀ key ∈ model.ratesOf sets operation, key ∉ model.ratesOf sets operation') ∧
        ∀ group ∈ [VariableGroup.exports, .newTrade], ¬ model.trade.Pairwise fun trade trade' =>
          ∀ key ∈ model.keysOf sets group trade, key ∉ model.keysOf sets group trade')) =
        true := by decide +kernel
  obtain ⟨options, root, resolved, expanded, model, sets, -, -, he, hb, hs, htest⟩ :=
    Exact.exists_of_accepts haccepts
  obtain ⟨hmodes, htrade, hrates, hkeys⟩ := of_decide_eq_true htest
  exact ⟨_, _, _, _, model, sets, hb, hs, hmodes, htrade, hrates,
    fun group hg => hkeys group (by simpa using hg)⟩

end EnergyPlan
