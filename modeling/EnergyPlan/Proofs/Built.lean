/-
# What a built model is like

A model is built only if nothing is wrong with it. Each of its entities was then read
from the configuration without a violation and keeps the rules of its kind; the time
structure is the given one and keeps its own rules; and no list has an id twice.

Key definitions: `EnergyModel.DistinctIds`.
Key theorems: `mem_collect`, `checked_of_buildModel`, `shaped_of_buildModel`,
`distinctIds_of_buildModel`.
-/
import EnergyPlan.Model.Build
import EnergyPlan.Proofs.Shape

namespace EnergyPlan

open Config Fields

/-- No entity shares its id with another one of its list. -/
structure EnergyModel.DistinctIds {R : Type} (model : EnergyModel R) : Prop where
  regions : (model.regions.map (·.id)).Nodup
  regionGroups : (model.regionGroups.map (·.id)).Nodup
  commodities : (model.commodities.map (·.id)).Nodup
  impacts : (model.impacts.map (·.id)).Nodup
  technologies : (model.technologies.map (·.id)).Nodup
  storage : (model.storage.map (·.id)).Nodup
  trade : (model.trade.map (·.id)).Nodup

/-- Nothing is repeated exactly in a list of distinct texts that were not seen before. -/
theorem repeated_eq_nil_iff {seen texts : List String} :
    repeated seen texts = [] ↔ texts.Nodup ∧ ∀ s ∈ texts, s ∉ seen := by
  induction texts generalizing seen with
  | nil => simp [repeated]
  | cons s rest ih =>
    unfold repeated
    by_cases hs : s ∈ seen
    · simp [hs]
    · rw [if_neg hs, ih, List.nodup_cons]
      constructor
      · rintro ⟨hn, hd⟩
        refine ⟨⟨fun hm => hd s hm List.mem_cons_self, hn⟩, ?_⟩
        intro t ht
        rcases List.mem_cons.1 ht with rfl | ht
        · exact hs
        · exact fun hm => hd t ht (List.mem_cons_of_mem s hm)
      · rintro ⟨⟨hm, hn⟩, hd⟩
        refine ⟨hn, fun t ht htm => ?_⟩
        rcases List.mem_cons.1 htm with rfl | htm
        · exact hm ht
        · exact hd t (List.mem_cons_of_mem s ht) htm

theorem uniqueIds_eq_nil_iff {kind : EntityKind} {ids : List String} :
    uniqueIds kind ids = [] ↔ ids.Nodup := by
  rw [uniqueIds, List.map_eq_nil_iff, repeated_eq_nil_iff]
  exact and_iff_left fun _ _ => List.not_mem_nil

theorem validate_eq_ok {α : Type} {check : α → String → List Violation} {path : String}
    {parsed : Reading α} {entity : α} (h : validate check path parsed = .ok entity) :
    parsed.value = entity ∧ parsed.notes = [] ∧ check entity path = [] := by
  unfold validate at h
  dsimp only at h
  split at h
  · next hv =>
    cases h
    rw [List.isEmpty_iff, List.append_eq_nil_iff] at hv
    exact ⟨rfl, hv⟩
  · cases h

section

variable {α : Type} {parse : Node → String → Reading α} {check : α → String → List Violation}

/-- Each entity of a list was read without violations and keeps its rules. -/
theorem mem_collectItems {path : String} {items : List (Node × Nat)} {entity : α}
    (h : entity ∈ (collectItems (fun node path => validate check path (parse node path)) path
      items).value) :
    ∃ node ∈ items.map Prod.fst, ∃ path, (parse node path).value = entity ∧
      (parse node path).notes = [] ∧ check entity path = [] := by
  induction items with
  | nil => simp [collectItems] at h
  | cons item rest ih =>
    have later : entity ∈ (collectItems (fun node path => validate check path (parse node path))
        path rest).value → ∃ node ∈ (item :: rest).map Prod.fst, ∃ path,
          (parse node path).value = entity ∧ (parse node path).notes = [] ∧
            check entity path = [] := by
      intro h
      obtain ⟨node, hm, hread⟩ := ih h
      exact ⟨node, List.mem_cons_of_mem _ hm, hread⟩
    obtain ⟨node, i⟩ := item
    rw [collectItems] at h
    split at h
    · next e he =>
      rw [Noted.value_bind, Noted.value_pure] at h
      rcases List.mem_cons.1 h with rfl | h
      · exact ⟨node, List.mem_cons_self, _, validate_eq_ok he⟩
      · exact later h
    · exact later h

/-- Each entity of a kind comes from an element of the list of that kind. -/
theorem mem_collect {root : Node} {kind : EntityKind} {entity : α}
    (h : entity ∈ (collect root kind parse check).value) :
    ∃ node ∈ ((root.entry? kind.collection).getD .null).items, ∃ path,
      (parse node path).value = entity ∧ (parse node path).notes = [] ∧
        check entity path = [] := by
  unfold collect at h
  split at h
  · cases h
  · next items hgiven =>
    obtain ⟨node, hm, hread⟩ := mem_collectItems h
    rw [List.zipIdx_map_fst] at hm
    rw [(Option.filter_eq_some_iff.1 hgiven).1]
    exact ⟨node, hm, hread⟩
  · cases h

end

variable {R : Type} [Zero R] [One R] [Add R] [Sub R] [Neg R] [LT R] [DecidableLT R] [LE R]
  [DecidableLE R] [Scalar R] {root : Node} {time : TimeStructure R} {sets : MemberSets}
  {tolerance : R} {model : EnergyModel R}

/-- The time structure and the composition of a built model are right. -/
theorem checked_of_buildModel (h : buildModel root time sets tolerance = .ok model) :
    model.time = time ∧ time.check tolerance = [] ∧ model.composition = [] := by
  obtain ⟨hn, rfl⟩ := Noted.checked_eq_ok_iff.1 h
  simp only [readModel, Noted.notes_bind, List.append_eq_nil_iff] at hn
  obtain ⟨ht, -, -, -, -, -, -, -, -, hc, -⟩ := hn
  exact ⟨rfl, ht, hc⟩

theorem shaped_of_buildModel (h : buildModel root time sets tolerance = .ok model)
    (ht : time.yearSplit.dimensions = [.timeslice, .year]) : model.Shaped := by
  obtain ⟨-, rfl⟩ := Noted.checked_eq_ok_iff.1 h
  constructor
  case fields =>
    unfold readModel
    cases hv : validate noRules "" (parseModelFields (R := R) sets root) with
    | ok fields =>
      show fields.Shaped
      exact (validate_eq_ok hv).1 ▸ shaped_parseModelFields ..
    | error violations => constructor <;> rfl
  case yearSplit => exact ht
  case regionGroups =>
    intro group hg
    obtain ⟨node, -, path, rfl, -⟩ := mem_collect hg
    exact shaped_parseRegionGroup ..
  case commodities =>
    intro commodity hc
    obtain ⟨node, -, path, rfl, -⟩ := mem_collect hc
    exact shaped_parseCommodity ..
  case impacts =>
    intro impact hi
    obtain ⟨node, -, path, rfl, -⟩ := mem_collect hi
    exact shaped_parseImpact ..
  case technologies =>
    intro technology ht
    obtain ⟨node, -, path, rfl, -⟩ := mem_collect ht
    exact shaped_parseTechnology ..
  case storage =>
    intro storage hs
    obtain ⟨node, -, path, rfl, -⟩ := mem_collect hs
    exact shaped_parseStorage ..
  case trade =>
    intro trade ht
    obtain ⟨node, -, path, rfl, -⟩ := mem_collect ht
    exact shaped_parseTrade ..

theorem distinctIds_of_buildModel (h : buildModel root time sets tolerance = .ok model) :
    model.DistinctIds := by
  have hc := (checked_of_buildModel h).2.2
  simp only [EnergyModel.composition, List.append_eq_nil_iff] at hc
  obtain ⟨⟨⟨⟨⟨⟨⟨⟨⟨⟨-, hr⟩, hg⟩, hc⟩, hi⟩, ht⟩, hs⟩, htr⟩, -⟩, -⟩, -⟩ := hc
  exact ⟨uniqueIds_eq_nil_iff.1 hr, uniqueIds_eq_nil_iff.1 hg, uniqueIds_eq_nil_iff.1 hc,
    uniqueIds_eq_nil_iff.1 hi, uniqueIds_eq_nil_iff.1 ht, uniqueIds_eq_nil_iff.1 hs,
    uniqueIds_eq_nil_iff.1 htr⟩

end EnergyPlan
