/-
# What the index sets of a model hold

Index sets are derived exactly from the models that refer to nothing outside them: every
label of every key of an indexed field is in the set of its dimension, and every trade
carries a commodity of the model.

Key definitions: `FieldValues.Within`, `IndexSets.Hold`.
Key theorems: `deriveSets_eq_ok_iff`, `FieldsWithin.reals`, `pairwise_sortedDistinct`,
`nodup_sortedDistinct`.
-/
import EnergyPlan.Model.IndexSets
import EnergyPlan.Proofs.Outcomes

namespace EnergyPlan

variable {R : Type}

/-- Every label of the keys of a field is in the set of its dimension. -/
def FieldValues.Within (values : FieldValues R) (sets : IndexSets) : Prop :=
  ∀ key ∈ values.keys, ∀ e ∈ values.dimensions.zip key, e.2 ∈ sets.members e.1

/-- Every field of a list is within the sets. -/
def FieldsWithin (sets : IndexSets) (fields : List (String × FieldValues R)) : Prop :=
  ∀ f ∈ fields, f.2.Within sets

/-- A model refers to nothing outside the sets. -/
structure IndexSets.Hold (sets : IndexSets) (model : EnergyModel R) : Prop where
  fields : FieldsWithin sets model.toModelFields.fieldValues
  regionGroups : ∀ group ∈ model.regionGroups, FieldsWithin sets group.fieldValues
  commodities : ∀ commodity ∈ model.commodities, FieldsWithin sets commodity.fieldValues
  impacts : ∀ impact ∈ model.impacts, FieldsWithin sets impact.fieldValues
  modes : ∀ technology ∈ model.technologies, ∀ mode ∈ technology.modes,
    FieldsWithin sets mode.fieldValues
  technologies : ∀ technology ∈ model.technologies, FieldsWithin sets technology.fieldValues
  storage : ∀ storage ∈ model.storage, FieldsWithin sets storage.fieldValues
  traded : ∀ trade ∈ model.trade, trade.commodity ∈ sets.commodities
  trade : ∀ trade ∈ model.trade, FieldsWithin sets trade.fieldValues

/-! ### Checks in which nothing is wrong -/

theorem missingLabel?_eq_none_iff {sets : IndexSets} {values : FieldValues R} :
    missingLabel? sets values.dimensions values.keys = none ↔ values.Within sets := by
  simp only [missingLabel?, List.find?_eq_none, List.mem_flatMap, FieldValues.Within,
    Bool.not_eq_true', Bool.not_eq_false, List.contains_iff_mem]
  constructor
  · exact fun h key hk e he => h e ⟨key, hk, he⟩
  · rintro h e ⟨key, hk, he⟩
    exact h key hk e he

theorem checkFields_eq_ok_iff {sets : IndexSets} {owner lead : String}
    {fields : List (String × FieldValues R)} :
    checkFields sets owner lead fields = .ok () ↔ FieldsWithin sets fields := by
  rw [checkFields, forM_eq_ok_iff]
  refine forall₂_congr fun f _ => ?_
  rw [← missingLabel?_eq_none_iff]
  cases h : missingLabel? sets f.2.dimensions f.2.keys <;> simp [h]

theorem checkTechnology_eq_ok_iff {sets : IndexSets} {technology : Technology R} :
    checkTechnology sets technology = .ok () ↔
      (∀ mode ∈ technology.modes, FieldsWithin sets mode.fieldValues) ∧
        FieldsWithin sets technology.fieldValues := by
  simp only [checkTechnology, bind_eq_ok_iff, forM_eq_ok_iff, checkFields_eq_ok_iff]

theorem checkTrade_eq_ok_iff {sets : IndexSets} {trade : Trade R} :
    checkTrade sets trade = .ok () ↔
      trade.commodity ∈ sets.commodities ∧ FieldsWithin sets trade.fieldValues := by
  unfold checkTrade
  by_cases h : trade.commodity ∈ sets.commodities
  · have hc : (!sets.commodities.contains trade.commodity) = false := by simpa using h
    rw [hc]
    exact checkFields_eq_ok_iff.trans (and_iff_right h).symm
  · have hc : (!sets.commodities.contains trade.commodity) = true := by simpa using h
    rw [hc]
    exact ⟨nofun, fun h' => absurd h'.1 h⟩

theorem checkReferences_eq_ok_iff {sets : IndexSets} {model : EnergyModel R} :
    checkReferences sets model = .ok () ↔ sets.Hold model := by
  simp only [checkReferences, bind_eq_ok_iff, forM_eq_ok_iff, checkFields_eq_ok_iff,
    checkTechnology_eq_ok_iff, checkTrade_eq_ok_iff]
  constructor
  · rintro ⟨hf, hg, hc, hi, ht, hs, htr⟩
    exact ⟨hf, hg, hc, hi, fun t h => (ht t h).1, fun t h => (ht t h).2, hs,
      fun t h => (htr t h).1, fun t h => (htr t h).2⟩
  · rintro ⟨hf, hg, hc, hi, hm, ht, hs, htc, htr⟩
    exact ⟨hf, hg, hc, hi, fun t h => ⟨hm t h, ht t h⟩, hs, fun t h => ⟨htc t h, htr t h⟩⟩

/-- The sets of a model are derived exactly if they hold all that it refers to. -/
theorem deriveSets_eq_ok_iff {model : EnergyModel R} {sets : IndexSets} :
    deriveSets model = .ok sets ↔ IndexSets.ofModel model = sets ∧ sets.Hold model := by
  unfold deriveSets
  dsimp only
  cases h : checkReferences (IndexSets.ofModel model) model with
  | error e =>
    constructor
    · nofun
    · rintro ⟨rfl, hh⟩
      rw [checkReferences_eq_ok_iff.2 hh] at h
      cases h
  | ok u =>
    constructor
    · intro h'
      cases h'
      exact ⟨rfl, checkReferences_eq_ok_iff.1 h⟩
    · rintro ⟨rfl, -⟩
      rfl

/-! ### Labels of single fields -/

/-- The labels of a key of a tensor of numbers are in the sets of its dimensions. -/
theorem FieldsWithin.reals {sets : IndexSets} {fields : List (String × FieldValues R)}
    (h : FieldsWithin sets fields) {name : String} {t : Tensor R}
    (hm : (name, FieldValues.reals t) ∈ fields) {key : Key} {value : R}
    (hk : (key, value) ∈ t.entries) : ∀ e ∈ t.dimensions.zip key, e.2 ∈ sets.members e.1 :=
  h _ hm key (List.mem_map_of_mem (f := Prod.fst) hk)

theorem mem_fieldValues_productionTargetMin {technology : Technology R} :
    ("production_target_min", FieldValues.reals technology.productionTargetMin) ∈
      technology.fieldValues :=
  List.mem_cons_self

theorem mem_fieldValues_productionTargetMax {technology : Technology R} :
    ("production_target_max", FieldValues.reals technology.productionTargetMax) ∈
      technology.fieldValues :=
  List.mem_cons_of_mem _ List.mem_cons_self

/-! ### Sorted sets -/

open Text in
theorem pairwise_insertSorted {s : String} {sorted : List String} (h : sorted.Pairwise (· < ·)) :
    (insertSorted s sorted).Pairwise (· < ·) := by
  induction sorted with
  | nil => exact List.pairwise_singleton _ s
  | cons t rest ih =>
    have hp := List.pairwise_cons.1 h
    unfold insertSorted
    by_cases hst : s < t
    · rw [if_pos hst]
      refine List.pairwise_cons.2 ⟨fun u hu => ?_, h⟩
      rcases List.mem_cons.1 hu with rfl | hu
      · exact hst
      · exact String.lt_trans hst (hp.1 u hu)
    · rw [if_neg hst]
      by_cases he : s = t
      · rw [if_pos he]
        exact h
      · rw [if_neg he]
        refine List.pairwise_cons.2 ⟨fun u hu => ?_, ih hp.2⟩
        rcases mem_insertSorted.1 hu with rfl | hu
        · refine Decidable.byContradiction fun hts => he ?_
          exact String.le_antisymm (String.not_lt.1 hts) (String.not_lt.1 hst)
        · exact hp.1 u hu

/-- The list of the distinct texts is sorted, with no text twice. -/
theorem pairwise_sortedDistinct (texts : List String) :
    (Text.sortedDistinct texts).Pairwise (· < ·) := by
  suffices h : ∀ sorted : List String, sorted.Pairwise (· < ·) →
      (texts.foldl (fun sorted s => Text.insertSorted s sorted) sorted).Pairwise (· < ·) from
    h [] .nil
  induction texts with
  | nil => exact fun sorted h => h
  | cons s rest ih => exact fun sorted h => ih _ (pairwise_insertSorted h)

theorem nodup_sortedDistinct (texts : List String) : (Text.sortedDistinct texts).Nodup :=
  (pairwise_sortedDistinct texts).imp fun hab => String.ne_of_lt hab

end EnergyPlan
