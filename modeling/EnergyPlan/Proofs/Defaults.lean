/-
# Defaults are total over the sets a model is compiled over

Defaults are filled over the members that a configuration declares, and a model is compiled
over the sets of its entities. The members of the sets are declared, so in a built model every
field with a default has a value under every key over the sets, and so have the costs of
capital: one that is not given is the discount rate of its region. The compilation asks for
such values only under these keys. What it would take where it found none plays no part: a
model that agrees with a built one under these keys, and differs from it elsewhere in
whatever way, is compiled to the same problem (`defaults_total_over_sets`).

Key definitions: `IndexSets.FieldsTotal`, `EnergyModel.DefaultsTotal`, `EnergyModel.Rated`.
Key theorems: `defaultsTotal_of_stages`, `rated_of_stages`, `inside_of_stages`,
`defaults_total_over_sets`.
-/
import EnergyPlan.Proofs.Domain
import EnergyPlan.Proofs.Filled
import EnergyPlan.Proofs.Within.Outcome

namespace EnergyPlan

open Config Fields

variable {R : Type}

/-- Every field of a kind of entity that has a default has a value under every key over the
sets. -/
def IndexSets.FieldsTotal (sets : IndexSets) (kind : EntityKind)
    (fields : List (String × FieldValues R)) : Prop :=
  ∀ spec ∈ kind.indexedFields, spec.standard.isSome →
    ∃ values, (spec.name, values) ∈ fields ∧
      ∀ key, sets.Tuple spec.dimensions key → key ∈ values.keys

/-- In a model and all its entities every field that has a default has a value under every key over
the sets. -/
structure EnergyModel.DefaultsTotal (model : EnergyModel R) (sets : IndexSets) : Prop where
  fields : sets.FieldsTotal .model model.toModelFields.fieldValues
  regionGroups : ∀ group ∈ model.regionGroups, sets.FieldsTotal .regionGroup group.fieldValues
  commodities : ∀ commodity ∈ model.commodities,
    sets.FieldsTotal .commodity commodity.fieldValues
  impacts : ∀ impact ∈ model.impacts, sets.FieldsTotal .impact impact.fieldValues
  technologies : ∀ technology ∈ model.technologies,
    sets.FieldsTotal .technology technology.fieldValues
  modes : ∀ technology ∈ model.technologies, ∀ mode ∈ technology.modes,
    sets.FieldsTotal .operatingMode mode.fieldValues
  storage : ∀ storage ∈ model.storage, sets.FieldsTotal .storage storage.fieldValues
  trade : ∀ trade ∈ model.trade, sets.FieldsTotal .trade trade.fieldValues

/-- Every technology and every storage has a cost of capital in every region: the discount rate of
the region unless the configuration gives one. -/
structure EnergyModel.Rated (model : EnergyModel R) (sets : IndexSets) (root : Node) : Prop where
  technologies : ∀ region ∈ sets.regions, ∀ technology ∈ sets.technologies,
    ∃ rate, model.costOfCapital.find? [region, technology] = some rate ∧
      (¬ root.Gives "cost_of_capital" [region, technology] →
        model.discountRate.find? [region] = some rate)
  storage : ∀ region ∈ sets.regions, ∀ storage ∈ sets.storages,
    ∃ rate, model.costOfCapitalStorage.find? [region, storage] = some rate ∧
      (¬ root.Gives "cost_of_capital_storage" [region, storage] →
        model.discountRate.find? [region] = some rate)

/-! ### Fields of entities -/

/-- Fields with defaults are over dimensions whose members are declared. -/
theorem filledDimensions_of_standard : ∀ kind ∈ EntityKind.all, ∀ spec ∈ kind.indexedFields,
    spec.standard.isSome → ∀ d ∈ spec.dimensions, d ∈ filledDimensions := by
  decide +kernel

/-- A field is found by its name. -/
theorem field?_name {kind : EntityKind} {spec : FieldSpec} (h : spec ∈ kind.indexedFields) :
    kind.field? spec.name = some spec := by
  have hm := List.mem_of_mem_filter h
  cases hf : kind.field? spec.name with
  | none => exact absurd (beq_self_eq_true _) (List.find?_eq_none.1 hf spec hm)
  | some found =>
    have hname := List.find?_some hf
    rw [List.inj_on_of_nodup_map kind.field_nodup (List.mem_of_find?_eq_some hf) hm
      (beq_iff_eq.1 hname)]

section

variable [Zero R] [One R] [Add R] [Sub R] [Neg R] [LT R] [DecidableLT R] [LE R] [DecidableLE R]
  [Scalar R]

theorem ne_nil_of_validate {α : Type} {check : α → String → List Violation} {path : String}
    {parsed : Reading α} {violations : List Violation}
    (h : validate check path parsed = .error violations) : violations ≠ [] := by
  unfold validate at h
  dsimp only at h
  split at h
  · cases h
  · next hv =>
    cases h
    exact fun he => hv (List.isEmpty_iff.2 he)

/-- The fields of a built model were read without a violation. -/
theorem fields_of_buildModel {root : Node} {time : TimeStructure R} {members : MemberSets}
    {tolerance : R} {model : EnergyModel R}
    (h : buildModel root time members tolerance = .ok model) :
    (parseModelFields (R := R) members root).notes = [] ∧
      (parseModelFields members root).value = model.toModelFields := by
  obtain ⟨hn, rfl⟩ := Noted.checked_eq_ok_iff.1 h
  unfold readModel at hn ⊢
  cases hv : validate noRules "" (parseModelFields (R := R) members root) with
  | ok fields =>
    obtain ⟨hvalue, hnotes, -⟩ := validate_eq_ok hv
    exact ⟨hnotes, hvalue⟩
  | error violations =>
    simp only [hv, Noted.notes_bind, List.append_eq_nil_iff] at hn
    exact absurd hn.2.1 (ne_nil_of_validate hv)

end

section

variable [Zero R] [One R] [Add R] [Sub R] [Div R] [Neg R] [LT R] [DecidableLT R] [LE R]
  [DecidableLE R] [Scalar R] {root : Node} {expanded : Expanded R} {tolerance : R}
  {model : EnergyModel R} {sets : IndexSets} (h : ReadsDefaults R)
  (he : expandModel root = .ok expanded)
  (hb : buildModel expanded.root expanded.time expanded.sets tolerance = .ok model)
  (hs : deriveSets model = .ok sets)

include he hb hs

/-- Fields that are filled over the declared members are total over the sets. Their names do not go
by their values, so they are looked up in a sample of them. -/
theorem fieldsTotal_of_filled {kind : EntityKind} {fields : List (String × FieldValues R)}
    (sample : List (String × FieldValues Unit))
    (hnames : ∀ spec ∈ kind.indexedFields, spec.name ∈ sample.map Prod.fst)
    (hsame : fields.map Prod.fst = sample.map Prod.fst)
    (hfilled : ∀ field ∈ fields, FieldFilled expanded.sets kind field) :
    sets.FieldsTotal kind fields := by
  intro spec hspec hstandard
  have hname := hnames spec hspec
  rw [← hsame] at hname
  obtain ⟨⟨name, values⟩, hm, rfl⟩ := List.mem_map.1 hname
  refine ⟨values, hm, fun key hk => ?_⟩
  have hdimensions := filledDimensions_of_standard kind kind.mem_all spec hspec hstandard
  exact hfilled _ hm spec (field?_name hspec) hstandard key
    (mem_product_of_tuple he hb hs hdimensions hk)

/-- The fields of the entities of a list are total over the sets if reading an entity fills them. -/
theorem fieldsTotal_of_collect {α : Type} {kind : EntityKind} {parse : Node → String → Reading α}
    {check : α → String → List Violation} {fields : α → List (String × FieldValues R)}
    (sample : List (String × FieldValues Unit))
    (hnames : ∀ spec ∈ kind.indexedFields, spec.name ∈ sample.map Prod.fst)
    (hsame : ∀ entity, (fields entity).map Prod.fst = sample.map Prod.fst)
    (hfilled : ∀ node path, (parse node path).notes = [] →
      ∀ field ∈ fields (parse node path).value, FieldFilled expanded.sets kind field)
    {entity : α} (hm : entity ∈ (collect expanded.root kind parse check).value) :
    sets.FieldsTotal kind (fields entity) := by
  obtain ⟨node, -, path, rfl, hnotes, -⟩ := mem_collect hm
  exact fieldsTotal_of_filled he hb hs sample hnames (hsame _) (hfilled node path hnotes)

include h

/-- In a built model every field with a default is total over the sets of the model. -/
theorem defaultsTotal_of_stages : model.DefaultsTotal sets := by
  have hmodel : model = (readModel expanded.root expanded.time expanded.sets tolerance).value :=
    (Noted.checked_eq_ok_iff.1 hb).2.symm
  constructor
  case fields =>
    obtain ⟨hnotes, hfields⟩ := fields_of_buildModel hb
    rw [← hfields]
    exact fieldsTotal_of_filled he hb hs (ModelFields.fieldValues {}) (by decide +kernel) rfl
      (filled_parseModelFields h hnotes)
  case modes =>
    intro technology ht mode hm
    rw [hmodel] at ht
    obtain ⟨node, -, path, rfl, hnotes, -⟩ := mem_collect ht
    exact fieldsTotal_of_filled he hb hs (OperatingMode.fieldValues {}) (by decide +kernel) rfl
      (filled_modes h hnotes mode hm)
  all_goals
    intro entity hm
    rw [hmodel] at hm
  case regionGroups =>
    exact fieldsTotal_of_collect he hb hs (RegionGroup.fieldValues {}) (by decide +kernel)
      (fun _ => rfl) (fun _ _ => filled_parseRegionGroup h) hm
  case commodities =>
    exact fieldsTotal_of_collect he hb hs (Commodity.fieldValues {}) (by decide +kernel)
      (fun _ => rfl) (fun _ _ => filled_parseCommodity h) hm
  case impacts =>
    exact fieldsTotal_of_collect he hb hs (Impact.fieldValues {}) (by decide +kernel)
      (fun _ => rfl) (fun _ _ => filled_parseImpact h) hm
  case technologies =>
    exact fieldsTotal_of_collect he hb hs (Technology.fieldValues {}) (by decide +kernel)
      (fun _ => rfl) (fun _ _ => filled_parseTechnology h) hm
  case storage =>
    exact fieldsTotal_of_collect he hb hs (Storage.fieldValues {}) (by decide +kernel)
      (fun _ => rfl) (fun _ _ => filled_parseStorage h) hm
  case trade =>
    exact fieldsTotal_of_collect he hb hs (Trade.fieldValues {}) (by decide +kernel)
      (fun _ => rfl) (fun _ _ => filled_parseTrade h) hm

/-- In a built model every cost of capital that is not given is the discount rate of its region. -/
theorem rated_of_stages : model.Rated sets expanded.root := by
  obtain ⟨hnotes, hfields⟩ := fields_of_buildModel hb
  rw [parseModelFields, if_pos (isMapping_of_parseModelFields hnotes)] at hfields
  have hrate := congrArg ModelFields.discountRate hfields
  have hcost := congrArg ModelFields.costOfCapital hfields
  have hstorage := congrArg ModelFields.costOfCapitalStorage hfields
  constructor
  · intro region hr technology ht
    have hkey : [region, technology] ∈ expanded.sets.product [.region, .technology] :=
      mem_product_of_tuple he hb hs (by decide)
        (IndexSets.tuple_cons.2 ⟨hr, IndexSets.tuple_cons.2 ⟨ht, IndexSets.tuple_nil⟩⟩)
    rw [← hcost, ← hrate]
    exact find?_costs h rfl rfl rfl hkey
  · intro region hr storage ho
    have hkey : [region, storage] ∈ expanded.sets.product [.region, .storage] :=
      mem_product_of_tuple he hb hs (by decide)
        (IndexSets.tuple_cons.2 ⟨hr, IndexSets.tuple_cons.2 ⟨ho, IndexSets.tuple_nil⟩⟩)
    rw [← hstorage, ← hrate]
    exact find?_costs h rfl rfl rfl hkey

end

/-! ### What a model is compiled from -/

section

variable [Zero R] [One R] [Add R] [Sub R] [Mul R] [Div R] [Neg R] [BEq R] [LT R] [DecidableLT R]
  [LE R] [DecidableLE R] [Scalar R] {root : Node} {expanded : Expanded R} {tolerance : R}
  {model : EnergyModel R} {sets : IndexSets} (he : expandModel root = .ok expanded)
  (hb : buildModel expanded.root expanded.time expanded.sets tolerance = .ok model)
  (hs : deriveSets model = .ok sets)

include he hb hs

/-- A built model is inside the sets that are derived from it. -/
theorem inside_of_stages : model.Inside sets := by
  have ht := ofNode_of_expandModel he
  have hsound := sound_of_stages ht hb hs 0
  have htime := (checked_of_buildModel hb).1
  obtain ⟨hsets, hhold⟩ := deriveSets_eq_ok_iff.1 hs
  constructor
  case shaped => exact hsound.shaped
  case technologies =>
    intro technology hm
    rw [← hsets]
    exact Text.mem_sortedDistinct.2 (List.mem_map_of_mem hm)
  case storage =>
    intro storage hm
    rw [← hsets]
    exact Text.mem_sortedDistinct.2 (List.mem_map_of_mem hm)
  case targets => exact fun region year share hm => ConstraintRule.within_renewableTarget hsound hm
  case groupTargets =>
    exact fun group hg year share hm => ConstraintRule.within_groupTarget hsound hg hm
  case earlier =>
    intro year previous hp
    have hnext : model.time.nextYear = successors (model.time.years.mergeSort (· ≤ ·)) := by
      rw [htime]
      exact TimeStructure.nextYear_eq ht
    have hyears : model.time.years.Nodup :=
      (pairwise_lt_years hb).imp fun hab => Int.ne_of_lt hab
    have hm := TimeStructure.mem_of_previousYear hnext hyears hp
    rw [← hsets]
    exact List.mem_map_of_mem (List.mem_mergeSort.2 hm)

/-- **Defaults are total over the sets a model is compiled over.** In a model that is built from an
expanded configuration, every field with a default has a value under every key over the sets of
the model. So have the costs of capital, and one that the configuration does not give is the
discount rate of its region. What such fields hold elsewhere, and what would be taken where they
hold nothing, plays no part: every model with the same part over the sets is compiled to the
same problem. -/
theorem defaults_total_over_sets (h : ReadsDefaults R) :
    model.DefaultsTotal sets ∧ model.Rated sets expanded.root ∧
      ∀ (other : EnergyModel R) (bigM : R), other.within sets = model.within sets →
        compile other sets bigM = compile model sets bigM := by
  refine ⟨defaultsTotal_of_stages h he hb hs, rated_of_stages h he hb hs, ?_⟩
  intro other bigM hpart
  have hinside := inside_of_stages he hb hs
  have hother : other.Inside sets := by
    rw [← EnergyModel.inside_within, hpart, EnergyModel.inside_within]
    exact hinside
  have hcompile : compile (model.within sets) sets bigM = compile model sets bigM :=
    compile_within hinside
  rw [← hcompile, ← hpart]
  exact (compile_within hother).symm

end

/-- Exact numbers are read as they are written. -/
theorem Exact.readsDefaults : ReadsDefaults Rat where
  fraction := by
    simp only [List.forall_mem_cons, List.not_mem_nil, false_implies, implies_true, and_true]
    refine ⟨⟨0, ?_⟩, ⟨1 / 100000, ?_⟩, ⟨1 / 20, ?_⟩, ⟨1, ?_⟩⟩ <;> decide +kernel
  whole := ⟨1, by decide +kernel, by decide +kernel⟩

/-- Two regions that trade heat give no cost of capital, so the boiler has the discount rate there
is by default. -/
theorem defaults_total_over_sets_sample :
    ∃ (root : Node) (expanded : Expanded Rat) (tolerance : Rat) (model : EnergyModel Rat)
      (sets : IndexSets),
      ReadsDefaults Rat ∧ expandModel root = .ok expanded ∧
      buildModel expanded.root expanded.time expanded.sets tolerance = .ok model ∧
      deriveSets model = .ok sets ∧ sets.regions = ["north", "south"] ∧
      model.DefaultsTotal sets ∧ model.Rated sets expanded.root ∧
      model.costOfCapital.find? ["north", "boiler"] = some (1 / 20) ∧
      ∀ (other : EnergyModel Rat) (bigM : Rat), other.within sets = model.within sets →
        compile other sets bigM = compile model sets bigM := by
  have haccepts : Exact.accepts Exact.noVariables .standard Exact.sample (fun model sets =>
      decide (sets.regions = ["north", "south"] ∧
        model.costOfCapital.find? ["north", "boiler"] = some (1 / 20))) = true := by
    decide +kernel
  obtain ⟨options, root, resolved, expanded, model, sets, -, -, he, hb, hs, htest⟩ :=
    Exact.exists_of_accepts haccepts
  obtain ⟨hregions, hcost⟩ := of_decide_eq_true htest
  obtain ⟨htotal, hrated, hcompile⟩ := defaults_total_over_sets he hb hs Exact.readsDefaults
  exact ⟨resolved, expanded, _, model, sets, Exact.readsDefaults, he, hb, hs, hregions, htotal,
    hrated, hcost, hcompile⟩

end EnergyPlan
