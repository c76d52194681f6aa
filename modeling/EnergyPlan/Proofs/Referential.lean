/-
# Referential closure

The sets of a model are derived exactly if every label of every key of every tensor of the
model, its entities and their operating modes is in the set of its dimension, and every trade
carries a commodity of the model. Otherwise the error names a label that is missing, or a
traded commodity, and the entity that holds it; what an operating mode holds is its
technology's. The sets themselves are sorted and hold exactly the ids of the entities, and the
years are in the order of time.

Key definitions: `Tensor.Known`, `EnergyModel.Known`, `EnergyModel.Holds`,
`UnknownReference.Dangles`, `IndexSets.Canonical`.
Key theorems: `hold_iff_known`, `dangles_of_checkReferences`, `canonical_ofModel`,
`deriveSets_closed`.
-/
import EnergyPlan.Model.Build
import EnergyPlan.Proofs.References
import Mathlib.Data.List.Sort
import Mathlib.Tactic.MkIffOfInductiveProp

namespace EnergyPlan

open Text

variable {R : Type}

/-! ### Known labels -/

/-- Every label of a key that has a value is in the set of its dimension. -/
def Tensor.Known {α : Type} (t : Tensor α) (sets : IndexSets) : Prop :=
  ∀ key, (t.find? key).isSome → ∀ e ∈ t.dimensions.zip key, e.2 ∈ sets.members e.1

@[mk_iff] structure ModelFields.Known (model : ModelFields R) (sets : IndexSets) : Prop where
  depreciation : model.depreciation.Known sets
  discountRate : model.discountRate.Known sets
  costOfCapital : model.costOfCapital.Known sets
  costOfCapitalStorage : model.costOfCapitalStorage.Known sets
  reserveMargin : model.reserveMargin.Known sets
  renewableTarget : model.renewableTarget.Known sets

@[mk_iff] structure RegionGroup.Known (group : RegionGroup R) (sets : IndexSets) : Prop where
  includes : group.includes.Known sets
  reserveMargin : group.reserveMargin.Known sets
  renewableTarget : group.renewableTarget.Known sets

@[mk_iff] structure Commodity.Known (commodity : Commodity R) (sets : IndexSets) : Prop where
  demandAnnual : commodity.demandAnnual.Known sets
  demandProfile : commodity.demandProfile.Known sets
  inRenewableTarget : commodity.inRenewableTarget.Known sets
  inReserveMargin : commodity.inReserveMargin.Known sets

@[mk_iff] structure Impact.Known (impact : Impact R) (sets : IndexSets) : Prop where
  limitAnnual : impact.limitAnnual.Known sets
  limitTotal : impact.limitTotal.Known sets
  exogenousAnnual : impact.exogenousAnnual.Known sets
  exogenousTotal : impact.exogenousTotal.Known sets
  penalty : impact.penalty.Known sets

@[mk_iff] structure OperatingMode.Known (mode : OperatingMode R) (sets : IndexSets) : Prop where
  inputRatio : mode.inputRatio.Known sets
  outputRatio : mode.outputRatio.Known sets
  emissionRatio : mode.emissionRatio.Known sets
  toStorage : mode.toStorage.Known sets
  fromStorage : mode.fromStorage.Known sets
  opexVariable : mode.opexVariable.Known sets

/-- The labels of the technology's own tensors are known; its modes are apart. -/
@[mk_iff] structure Technology.Known (technology : Technology R) (sets : IndexSets) : Prop where
  productionTargetMin : technology.productionTargetMin.Known sets
  productionTargetMax : technology.productionTargetMax.Known sets
  operatingLife : technology.operatingLife.Known sets
  capex : technology.capex.Known sets
  opexFixed : technology.opexFixed.Known sets
  residualCapacity : technology.residualCapacity.Known sets
  capacityActivityRatio : technology.capacityActivityRatio.Known sets
  availabilityFactor : technology.availabilityFactor.Known sets
  capacityFactor : technology.capacityFactor.Known sets
  unitCapacity : technology.unitCapacity.Known sets
  grossMax : technology.grossMax.Known sets
  grossMin : technology.grossMin.Known sets
  additionalMax : technology.additionalMax.Known sets
  additionalMin : technology.additionalMin.Known sets
  maxGrowthRate : technology.maxGrowthRate.Known sets
  maxGrowthFloor : technology.maxGrowthFloor.Known sets
  minGrowthRate : technology.minGrowthRate.Known sets
  capacityFactorMin : technology.capacityFactorMin.Known sets
  activityAnnualMax : technology.activityAnnualMax.Known sets
  activityAnnualMin : technology.activityAnnualMin.Known sets
  activityTotalMax : technology.activityTotalMax.Known sets
  activityTotalMin : technology.activityTotalMin.Known sets
  inReserveMargin : technology.inReserveMargin.Known sets
  inRenewableTarget : technology.inRenewableTarget.Known sets

@[mk_iff] structure Storage.Known (storage : Storage R) (sets : IndexSets) : Prop where
  capex : storage.capex.Known sets
  operatingLife : storage.operatingLife.Known sets
  minimumCharge : storage.minimumCharge.Known sets
  initialLevel : storage.initialLevel.Known sets
  residualCapacity : storage.residualCapacity.Known sets
  maxDischargeRate : storage.maxDischargeRate.Known sets
  maxChargeRate : storage.maxChargeRate.Known sets

@[mk_iff] structure Trade.Known (trade : Trade R) (sets : IndexSets) : Prop where
  routes : trade.routes.Known sets
  loss : trade.loss.Known sets
  residualCapacity : trade.residualCapacity.Known sets
  capex : trade.capex.Known sets
  operatingLife : trade.operatingLife.Known sets
  additionalMax : trade.additionalMax.Known sets
  costOfCapital : trade.costOfCapital.Known sets
  capacityActivityRatio : trade.capacityActivityRatio.Known sets

/-- All labels of a model are known, and what is traded is a commodity of the model. -/
structure EnergyModel.Known (model : EnergyModel R) (sets : IndexSets) : Prop where
  fields : model.toModelFields.Known sets
  regionGroups : ∀ group ∈ model.regionGroups, group.Known sets
  commodities : ∀ commodity ∈ model.commodities, commodity.Known sets
  impacts : ∀ impact ∈ model.impacts, impact.Known sets
  modes : ∀ technology ∈ model.technologies, ∀ mode ∈ technology.modes, mode.Known sets
  technologies : ∀ technology ∈ model.technologies, technology.Known sets
  storage : ∀ storage ∈ model.storage, storage.Known sets
  traded : ∀ trade ∈ model.trade, trade.commodity ∈ sets.members .commodity
  trade : ∀ trade ∈ model.trade, trade.Known sets

/-! ### The fields that are checked are all tensors -/

section

variable {sets : IndexSets}

theorem known_iff_keys {α : Type} {t : Tensor α} :
    t.Known sets ↔ ∀ key ∈ t.entries.map (·.1), ∀ e ∈ t.dimensions.zip key,
      e.2 ∈ sets.members e.1 := by
  simp only [Tensor.Known, Tensor.mem_keys_iff]

@[simp] theorem within_reals {t : Tensor R} :
    (FieldValues.reals t).Within sets ↔ t.Known sets := known_iff_keys.symm

@[simp] theorem within_wholes {t : Tensor Int} :
    (FieldValues.wholes t : FieldValues R).Within sets ↔ t.Known sets := known_iff_keys.symm

@[simp] theorem within_flags {t : Tensor Bool} :
    (FieldValues.flags t : FieldValues R).Within sets ↔ t.Known sets := known_iff_keys.symm

@[simp] theorem within_methods {t : Tensor DepreciationMethod} :
    (FieldValues.methods t : FieldValues R).Within sets ↔ t.Known sets := known_iff_keys.symm

theorem ModelFields.fieldsWithin_iff {model : ModelFields R} :
    FieldsWithin sets model.fieldValues ↔ model.Known sets := by
  simp [FieldsWithin, fieldValues, known_iff]

theorem RegionGroup.fieldsWithin_iff {group : RegionGroup R} :
    FieldsWithin sets group.fieldValues ↔ group.Known sets := by
  simp [FieldsWithin, fieldValues, known_iff]

theorem Commodity.fieldsWithin_iff {commodity : Commodity R} :
    FieldsWithin sets commodity.fieldValues ↔ commodity.Known sets := by
  simp [FieldsWithin, fieldValues, known_iff]

theorem Impact.fieldsWithin_iff {impact : Impact R} :
    FieldsWithin sets impact.fieldValues ↔ impact.Known sets := by
  simp [FieldsWithin, fieldValues, known_iff]

theorem OperatingMode.fieldsWithin_iff {mode : OperatingMode R} :
    FieldsWithin sets mode.fieldValues ↔ mode.Known sets := by
  simp [FieldsWithin, fieldValues, known_iff]

theorem Technology.fieldsWithin_iff {technology : Technology R} :
    FieldsWithin sets technology.fieldValues ↔ technology.Known sets := by
  simp [FieldsWithin, fieldValues, known_iff]

theorem Storage.fieldsWithin_iff {storage : Storage R} :
    FieldsWithin sets storage.fieldValues ↔ storage.Known sets := by
  simp [FieldsWithin, fieldValues, known_iff]

theorem Trade.fieldsWithin_iff {trade : Trade R} :
    FieldsWithin sets trade.fieldValues ↔ trade.Known sets := by
  simp [FieldsWithin, fieldValues, known_iff]

/-- The sets hold all that a model refers to exactly if all its labels are known. -/
theorem hold_iff_known {model : EnergyModel R} : sets.Hold model ↔ model.Known sets := by
  constructor
  · intro h
    exact {
      fields := ModelFields.fieldsWithin_iff.1 h.fields
      regionGroups := fun g hg => RegionGroup.fieldsWithin_iff.1 (h.regionGroups g hg)
      commodities := fun c hc => Commodity.fieldsWithin_iff.1 (h.commodities c hc)
      impacts := fun i hi => Impact.fieldsWithin_iff.1 (h.impacts i hi)
      modes := fun t ht m hm => OperatingMode.fieldsWithin_iff.1 (h.modes t ht m hm)
      technologies := fun t ht => Technology.fieldsWithin_iff.1 (h.technologies t ht)
      storage := fun s hs => Storage.fieldsWithin_iff.1 (h.storage s hs)
      traded := h.traded
      trade := fun t ht => Trade.fieldsWithin_iff.1 (h.trade t ht) }
  · intro h
    exact {
      fields := ModelFields.fieldsWithin_iff.2 h.fields
      regionGroups := fun g hg => RegionGroup.fieldsWithin_iff.2 (h.regionGroups g hg)
      commodities := fun c hc => Commodity.fieldsWithin_iff.2 (h.commodities c hc)
      impacts := fun i hi => Impact.fieldsWithin_iff.2 (h.impacts i hi)
      modes := fun t ht m hm => OperatingMode.fieldsWithin_iff.2 (h.modes t ht m hm)
      technologies := fun t ht => Technology.fieldsWithin_iff.2 (h.technologies t ht)
      storage := fun s hs => Storage.fieldsWithin_iff.2 (h.storage s hs)
      traded := h.traded
      trade := fun t ht => Trade.fieldsWithin_iff.2 (h.trade t ht) }

end

/-! ### The reference that is reported -/

/-- An entity, as messages name it, holds the values of an indexed field: the model itself, an
entity of one of its lists, or a technology for one of its operating modes. -/
inductive EnergyModel.Holds (model : EnergyModel R) : String → String → FieldValues R → Prop where
  | fields {name values} (hf : (name, values) ∈ model.toModelFields.fieldValues) :
      model.Holds "model" name values
  | regionGroup {group name values} (h : group ∈ model.regionGroups)
      (hf : (name, values) ∈ group.fieldValues) :
      model.Holds (ownerText .regionGroup group.id) name values
  | commodity {commodity name values} (h : commodity ∈ model.commodities)
      (hf : (name, values) ∈ commodity.fieldValues) :
      model.Holds (ownerText .commodity commodity.id) name values
  | impact {impact name values} (h : impact ∈ model.impacts)
      (hf : (name, values) ∈ impact.fieldValues) :
      model.Holds (ownerText .impact impact.id) name values
  | mode {technology mode name values} (h : technology ∈ model.technologies)
      (hm : mode ∈ technology.modes) (hf : (name, values) ∈ mode.fieldValues) :
      model.Holds (ownerText .technology technology.id)
        ("operating_modes." ++ mode.id ++ "." ++ name) values
  | technology {technology name values} (h : technology ∈ model.technologies)
      (hf : (name, values) ∈ technology.fieldValues) :
      model.Holds (ownerText .technology technology.id) name values
  | storage {storage name values} (h : storage ∈ model.storage)
      (hf : (name, values) ∈ storage.fieldValues) :
      model.Holds (ownerText .storage storage.id) name values
  | trade {trade name values} (h : trade ∈ model.trade)
      (hf : (name, values) ∈ trade.fieldValues) :
      model.Holds (ownerText .trade trade.id) name values

/-- A reference leads nowhere: a label of a key that its owner holds is not in the set of its
dimension, or what its owner trades is no commodity. -/
inductive UnknownReference.Dangles (sets : IndexSets) (model : EnergyModel R) :
    UnknownReference → Prop where
  | label {owner field values key dimension label} (hv : model.Holds owner field values)
      (hk : key ∈ values.keys) (he : (dimension, label) ∈ values.dimensions.zip key)
      (hm : label ∉ sets.members dimension) :
      Dangles sets model ⟨label, dimension.shown, owner, field⟩
  | commodity {trade} (ht : trade ∈ model.trade) (hm : trade.commodity ∉ sets.members .commodity) :
      Dangles sets model ⟨trade.commodity, .commodity, ownerText .trade trade.id, "commodity"⟩

section

variable {sets : IndexSets} {model : EnergyModel R} {e : UnknownReference}

/-- A failed check of fields reports a label of a key of one of them. -/
theorem dangles_of_checkFields {owner lead : String} {fields : List (String × FieldValues R)}
    (hholds : ∀ name values, (name, values) ∈ fields → model.Holds owner (lead ++ name) values)
    (h : checkFields sets owner lead fields = .error e) : e.Dangles sets model := by
  obtain ⟨⟨name, values⟩, hf, h⟩ := forM_eq_error h
  dsimp only at h
  cases hmissing : missingLabel? sets values.dimensions values.keys with
  | none =>
    rw [hmissing] at h
    cases h
  | some found =>
    obtain ⟨dimension, label⟩ := found
    rw [hmissing] at h
    cases h
    have hlabel := List.find?_some hmissing
    obtain ⟨key, hk, he⟩ := List.mem_flatMap.1 (List.mem_of_find?_eq_some hmissing)
    refine .label (hholds name values hf) hk he ?_
    simpa using hlabel

theorem dangles_of_checkTechnology {technology : Technology R}
    (ht : technology ∈ model.technologies) (h : checkTechnology sets technology = .error e) :
    e.Dangles sets model := by
  rcases bind_eq_error h with h | h
  · obtain ⟨mode, hm, h⟩ := forM_eq_error h
    exact dangles_of_checkFields (fun _ _ hf => .mode ht hm hf) h
  · exact dangles_of_checkFields
      (fun name _ hf => (String.empty_append : "" ++ name = name) ▸ .technology ht hf) h

theorem dangles_of_checkTrade {trade : Trade R} (ht : trade ∈ model.trade)
    (h : checkTrade sets trade = .error e) : e.Dangles sets model := by
  unfold checkTrade at h
  by_cases hc : trade.commodity ∈ sets.commodities
  · have hc' : (!sets.commodities.contains trade.commodity) = false := by simpa using hc
    rw [hc'] at h
    exact dangles_of_checkFields
      (fun name _ hf => (String.empty_append : "" ++ name = name) ▸ .trade ht hf) h
  · have hc' : (!sets.commodities.contains trade.commodity) = true := by simpa using hc
    rw [hc'] at h
    cases h
    exact .commodity ht hc

/-- What a check of references reports leads nowhere. -/
theorem dangles_of_checkReferences (h : checkReferences sets model = .error e) :
    e.Dangles sets model := by
  have hname : ∀ name : String, "" ++ name = name := fun _ => String.empty_append
  rcases bind_eq_error h with h | h
  · exact dangles_of_checkFields (fun name _ hf => (hname name).symm ▸ .fields hf) h
  rcases bind_eq_error h with h | h
  · obtain ⟨group, hg, h⟩ := forM_eq_error h
    exact dangles_of_checkFields (fun name _ hf => (hname name).symm ▸ .regionGroup hg hf) h
  rcases bind_eq_error h with h | h
  · obtain ⟨commodity, hc, h⟩ := forM_eq_error h
    exact dangles_of_checkFields (fun name _ hf => (hname name).symm ▸ .commodity hc hf) h
  rcases bind_eq_error h with h | h
  · obtain ⟨impact, hi, h⟩ := forM_eq_error h
    exact dangles_of_checkFields (fun name _ hf => (hname name).symm ▸ .impact hi hf) h
  rcases bind_eq_error h with h | h
  · obtain ⟨technology, ht, h⟩ := forM_eq_error h
    exact dangles_of_checkTechnology ht h
  rcases bind_eq_error h with h | h
  · obtain ⟨storage, hs, h⟩ := forM_eq_error h
    exact dangles_of_checkFields (fun name _ hf => (hname name).symm ▸ .storage hs hf) h
  · obtain ⟨trade, ht, h⟩ := forM_eq_error h
    exact dangles_of_checkTrade ht h

end

/-! ### The sets -/

/-- A list holds exactly some ids, sorted and each once. -/
def SortedSet (ids labels : List String) : Prop :=
  labels.Pairwise (· < ·) ∧ ∀ id, id ∈ labels ↔ id ∈ ids

theorem sortedSet_sortedDistinct (ids : List String) : SortedSet ids (sortedDistinct ids) :=
  ⟨pairwise_sortedDistinct ids, fun _ => mem_sortedDistinct⟩

/-- The sets are those of a model: the sets of ids are sorted and hold exactly the ids of the
entities, destinations are regions, years are in the order of time, and the other parts of the time
structure are as it has them. -/
structure IndexSets.Canonical (sets : IndexSets) (model : EnergyModel R) : Prop where
  regions : SortedSet (model.regions.map (·.id)) (sets.members .region)
  destinations : sets.members .linkedRegion = sets.members .region
  regionGroups : SortedSet (model.regionGroups.map (·.id)) (sets.members .regionGroup)
  commodities : SortedSet (model.commodities.map (·.id)) (sets.members .commodity)
  impacts : SortedSet (model.impacts.map (·.id)) (sets.members .impact)
  technologies : SortedSet (model.technologies.map (·.id)) (sets.members .technology)
  modes : SortedSet (model.modes.map (·.id)) (sets.members .mode)
  storage : SortedSet (model.storage.map (·.id)) (sets.members .storage)
  trades : SortedSet (model.trade.map (·.id)) sets.trades
  /-- The modes listed for a technology are those of a technology with that id. -/
  modesOf : ∀ id labels, sets.modesByTechnology[id]? = some labels →
    ∃ technology ∈ model.technologies, technology.id = id ∧
      SortedSet (technology.modes.map (·.id)) labels
  /-- Modes are listed for every technology. -/
  hasModes : ∀ technology ∈ model.technologies,
    (sets.modesByTechnology[technology.id]?).isSome
  years : ∃ years : List Int, years.Perm model.time.years ∧ years.Pairwise (· ≤ ·) ∧
    sets.members .year = years.map yearLabel
  timeslices : sets.members .timeslice = model.time.timeslices
  seasons : sets.members .season = model.time.seasons.members
  dayTypes : sets.members .dayType = model.time.dayTypes.members
  brackets : sets.members .timeBracket = model.time.brackets.members

section

variable {α β : Type} {name : α → String} {value : α → β} {as : List α}

/-- What a table holds under a key was put there for something of that name. -/
theorem getElem?_foldl_insert_by {table : Std.ExtTreeMap String β} {key : String} {b : β}
    (h : (as.foldl (fun table a => table.insert (name a) (value a)) table)[key]? = some b) :
    (∃ a ∈ as, name a = key ∧ value a = b) ∨ table[key]? = some b := by
  induction as generalizing table with
  | nil => exact .inr h
  | cons a rest ih =>
    rw [List.foldl_cons] at h
    rcases ih h with ⟨a', ha, hk⟩ | h
    · exact .inl ⟨a', List.mem_cons_of_mem a ha, hk⟩
    · rw [Std.ExtTreeMap.getElem?_insert] at h
      split at h
      · next hk =>
        exact .inl ⟨a, List.mem_cons_self, Std.compare_eq_iff_eq.1 hk, Option.some.inj h⟩
      · exact .inr h

theorem isSome_foldl_insert_by {table : Std.ExtTreeMap String β} {key : String}
    (h : key ∈ as.map name ∨ (table[key]?).isSome) :
    ((as.foldl (fun table a => table.insert (name a) (value a)) table)[key]?).isSome := by
  induction as generalizing table with
  | nil => simpa using h
  | cons a rest ih =>
    rw [List.foldl_cons]
    refine ih ?_
    rw [Std.ExtTreeMap.getElem?_insert]
    by_cases hk : compare (name a) key = .eq
    · exact .inr (by rw [if_pos hk]; rfl)
    · rw [if_neg hk]
      rw [List.map_cons, List.mem_cons] at h
      rcases h with (rfl | h) | h
      · exact absurd (Std.compare_eq_iff_eq.2 rfl) hk
      · exact .inl h
      · exact .inr h

end

theorem canonical_ofModel (model : EnergyModel R) : (IndexSets.ofModel model).Canonical model where
  regions := sortedSet_sortedDistinct _
  destinations := rfl
  regionGroups := sortedSet_sortedDistinct _
  commodities := sortedSet_sortedDistinct _
  impacts := sortedSet_sortedDistinct _
  technologies := sortedSet_sortedDistinct _
  modes := by
    rw [EnergyModel.modes, List.map_flatMap]
    exact sortedSet_sortedDistinct _
  storage := sortedSet_sortedDistinct _
  trades := sortedSet_sortedDistinct _
  modesOf := by
    intro id labels h
    rcases getElem?_foldl_insert_by h with ⟨technology, ht, hid, rfl⟩ | h
    · exact ⟨technology, ht, hid, sortedSet_sortedDistinct _⟩
    · rw [Std.ExtTreeMap.getElem?_empty] at h
      cases h
  hasModes := fun technology ht => isSome_foldl_insert_by (.inl (List.mem_map_of_mem ht))
  years := by
    refine ⟨model.time.years.mergeSort (· ≤ ·), List.mergeSort_perm _ _, ?_, rfl⟩
    exact List.pairwise_mergeSort' (· ≤ ·) model.time.years
  timeslices := rfl
  seasons := rfl
  dayTypes := rfl
  brackets := rfl

/-- **Referential closure.** A model has canonical sets; they are derived exactly if all labels of
the model are known in them, and otherwise the error is about a reference that leads nowhere. -/
theorem deriveSets_closed (model : EnergyModel R) :
    ∃ sets : IndexSets, sets.Canonical model ∧
      ((∃ derived, deriveSets model = .ok derived) ↔ model.Known sets) ∧
      (∀ derived, deriveSets model = .ok derived → derived = sets) ∧
      ∀ e, deriveSets model = .error e → e.Dangles sets model := by
  refine ⟨IndexSets.ofModel model, canonical_ofModel model, ⟨?_, ?_⟩, ?_, ?_⟩
  · rintro ⟨derived, h⟩
    obtain ⟨rfl, hh⟩ := deriveSets_eq_ok_iff.1 h
    exact hold_iff_known.1 hh
  · exact fun h => ⟨_, deriveSets_eq_ok_iff.2 ⟨rfl, hold_iff_known.2 h⟩⟩
  · exact fun derived h => (deriveSets_eq_ok_iff.1 h).1.symm
  · intro e h
    unfold deriveSets at h
    cases hc : checkReferences (IndexSets.ofModel model) model with
    | error e' =>
      simp only [hc] at h
      cases h
      exact dangles_of_checkReferences hc
    | ok u =>
      simp only [hc] at h
      cases h

end EnergyPlan
