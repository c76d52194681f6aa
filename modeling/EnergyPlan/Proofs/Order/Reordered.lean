/-
# Models whose entities are listed in another order

Two models are the same up to order if they have the same fields of their own, the same time
structure, and the same entities in some order, the modes of a technology in some order
too. Such models have the same index sets, refer to the same labels, and have the same
variables: sets are sorted, tables go by distinct ids, and what is asked of all entities does
not depend on which comes first.

Key definitions: `ReorderedBy`, `Technology.Reordered`, `EnergyModel.Reordered`.
Key theorems: `ReorderedBy.flatMap_perm`, `perm_gather`, `sortedDistinct_perm`,
`EnergyModel.Reordered.deriveSets_iff`, `EnergyModel.Reordered.variableTable_eq`.
-/
import EnergyPlan.Proofs.Unknowns
import Mathlib.Data.List.Nodup
import Mathlib.Data.List.Perm.Basic

namespace EnergyPlan

open Noted

/-! ### Lists in another order -/

section

variable {α β γ : Type}

/-- A list is a reordering of another one up to a relation between their elements. -/
def ReorderedBy (r : α → β → Prop) (as : List α) (bs : List β) : Prop :=
  ∃ cs, as.Perm cs ∧ List.Forall₂ r cs bs

namespace ReorderedBy

theorem of_perm {as bs : List α} (h : as.Perm bs) : ReorderedBy Eq as bs :=
  ⟨bs, h, List.forall₂_same.2 fun _ _ => rfl⟩

variable {r : α → β → Prop} {as : List α} {bs : List β}

theorem symm (h : ReorderedBy r as bs) : ReorderedBy (flip r) bs as := by
  obtain ⟨cs, hperm, hr⟩ := h
  obtain ⟨ds, hr', hperm'⟩ := List.perm_comp_forall₂ hperm hr
  exact ⟨ds, hperm'.symm, hr'.flip⟩

/-- Each element of the one list has a counterpart in the other. -/
theorem exists_mem (h : ReorderedBy r as bs) {b : β} (hb : b ∈ bs) : ∃ a ∈ as, r a b := by
  obtain ⟨cs, hperm, hr⟩ := h
  obtain ⟨i, rfl⟩ := List.mem_iff_get.1 hb
  have hc : i < cs.length := by
    rw [hr.length_eq]
    exact i.isLt
  exact ⟨cs.get ⟨i, hc⟩, hperm.mem_iff.2 (List.get_mem ..), hr.get hc i.isLt⟩

/-- What the elements are mapped to is reordered if it depends on what they have in common. -/
theorem map_perm (h : ReorderedBy r as bs) {f : α → γ} {g : β → γ}
    (hf : ∀ a b, r a b → f a = g b) : (as.map f).Perm (bs.map g) := by
  obtain ⟨cs, hperm, hr⟩ := h
  have hmap : cs.map f = bs.map g := by
    clear hperm
    induction hr with
    | nil => rfl
    | cons hab _ ih => rw [List.map_cons, List.map_cons, hf _ _ hab, ih]
  exact (hperm.map f).trans (.of_eq hmap)

theorem flatMap_perm (h : ReorderedBy r as bs) {f : α → List γ} {g : β → List γ}
    (hf : ∀ a b, r a b → (f a).Perm (g b)) : (as.flatMap f).Perm (bs.flatMap g) := by
  obtain ⟨cs, hperm, hr⟩ := h
  refine (hperm.flatMap_right f).trans ?_
  clear hperm
  induction hr with
  | nil => exact .nil
  | cons hab _ ih =>
    rw [List.flatMap_cons, List.flatMap_cons]
    exact (hf _ _ hab).append ih

/-- The elements that a test picks are reordered with all of them, if it picks counterparts. -/
theorem filter (h : ReorderedBy r as bs) {p : α → Bool} {q : β → Bool}
    (hpq : ∀ a b, r a b → p a = q b) : ReorderedBy r (as.filter p) (bs.filter q) := by
  obtain ⟨cs, hperm, hr⟩ := h
  refine ⟨cs.filter p, hperm.filter p, ?_⟩
  clear hperm
  induction hr with
  | nil => exact .nil
  | @cons a b _ _ hab _ ih =>
    rw [List.filter_cons, List.filter_cons, hpq a b hab]
    split
    · exact .cons hab ih
    · exact ih

end ReorderedBy

variable {ε : Type}

theorem value_gather_congr {f g : α → Noted ε (List γ)} (as : List α)
    (h : ∀ a, (f a).value = (g a).value) : (gather f as).value = (gather g as).value := by
  rw [value_gather, value_gather]
  exact List.flatMap_congr fun a _ => h a

theorem value_each_congr {f g : α → Noted ε γ} (as : List α)
    (h : ∀ a, (f a).value = (g a).value) : (each f as).value = (each g as).value := by
  rw [value_each, value_each]
  exact List.map_congr_left fun a _ => h a

/-- What is gathered over the elements is reordered with them. -/
theorem perm_gather {r : α → β → Prop} {as : List α} {bs : List β} (h : ReorderedBy r as bs)
    {f : α → Noted ε (List γ)} {g : β → Noted ε (List γ)}
    (hf : ∀ a b, r a b → (f a).value.Perm (g b).value) :
    (gather f as).value.Perm (gather g bs).value := by
  rw [value_gather, value_gather]
  exact h.flatMap_perm hf

theorem perm_gather_left {as : List α} {f g : α → Noted ε (List γ)}
    (hf : ∀ a ∈ as, (f a).value.Perm (g a).value) :
    (gather f as).value.Perm (gather g as).value := by
  rw [value_gather, value_gather]
  exact .flatMap_left as hf

theorem perm_gather_right {as bs : List α} (h : as.Perm bs) {f : α → Noted ε (List γ)} :
    (gather f as).value.Perm (gather f bs).value := by
  rw [value_gather, value_gather]
  exact h.flatMap_right _

theorem perm_each {r : α → β → Prop} {as : List α} {bs : List β} (h : ReorderedBy r as bs)
    {f : α → Noted ε γ} {g : β → Noted ε γ} (hf : ∀ a b, r a b → (f a).value = (g b).value) :
    (each f as).value.Perm (each g bs).value := by
  rw [value_each, value_each]
  exact h.map_perm hf

end

/-! ### Sets and tables -/

/-- The sorted list of the distinct texts does not depend on the order they come in. -/
theorem sortedDistinct_perm {texts texts' : List String} (h : texts.Perm texts') :
    Text.sortedDistinct texts = Text.sortedDistinct texts' := by
  have hmem : ∀ s, s ∈ Text.sortedDistinct texts ↔ s ∈ Text.sortedDistinct texts' := by
    intro s
    rw [Text.mem_sortedDistinct, Text.mem_sortedDistinct, h.mem_iff]
  have hperm := (List.perm_ext_iff_of_nodup (nodup_sortedDistinct texts)
    (nodup_sortedDistinct texts')).2 hmem
  exact hperm.eq_of_pairwise (fun a b _ _ hab hba => absurd hba (String.lt_asymm hab))
    (pairwise_sortedDistinct texts) (pairwise_sortedDistinct texts')

/-- What is put into a table under two keys can be put there in either order, unless the keys
are the same and the values are not. -/
theorem insert_comm {κ β : Type} [Ord κ] [Std.TransOrd κ] [Std.LawfulEqOrd κ]
    (table : Std.ExtTreeMap κ β) {k l : κ} {a b : β} (h : k = l → a = b) :
    (table.insert k a).insert l b = (table.insert l b).insert k a := by
  refine Std.ExtTreeMap.ext_getElem? fun u => ?_
  simp only [Std.ExtTreeMap.getElem?_insert]
  by_cases hl : compare l u = .eq
  · by_cases hk : compare k u = .eq
    · have hkl : k = l := (Std.compare_eq_iff_eq.1 hk).trans (Std.compare_eq_iff_eq.1 hl).symm
      rw [if_pos hl, if_pos hk, h hkl]
    · rw [if_pos hl, if_neg hk, if_pos hl]
  · rw [if_neg hl, if_neg hl]

/-- Values with distinct names can be put into a table in any order. -/
theorem foldl_insert_perm {β : Type} {ps qs : List (String × β)} (h : ps.Perm qs)
    (hn : (ps.map Prod.fst).Nodup) (table : Std.ExtTreeMap String β) :
    ps.foldl (fun table p => table.insert p.1 p.2) table =
      qs.foldl (fun table p => table.insert p.1 p.2) table := by
  refine h.foldl_eq' (fun p hp q hq table => insert_comm table fun he => ?_) table
  rw [List.inj_on_of_nodup_map hn hp hq he]

/-! ### Models in another order -/

variable {R : Type}

/-- Two technologies that differ at most in the order of their modes. -/
def Technology.Reordered (technology other : Technology R) : Prop :=
  ∃ modes, technology.modes.Perm modes ∧ other = { technology with modes }

/-- Two models that differ at most in the order of their regions, region groups, commodities,
impacts, technologies, modes of a technology, storages and trades. -/
structure EnergyModel.Reordered (model other : EnergyModel R) : Prop where
  fields : other.toModelFields = model.toModelFields
  time : other.time = model.time
  regions : model.regions.Perm other.regions
  regionGroups : model.regionGroups.Perm other.regionGroups
  commodities : model.commodities.Perm other.commodities
  impacts : model.impacts.Perm other.impacts
  technologies : ReorderedBy Technology.Reordered model.technologies other.technologies
  storage : model.storage.Perm other.storage
  trade : model.trade.Perm other.trade

theorem Technology.Reordered.symm {technology other : Technology R}
    (h : technology.Reordered other) : other.Reordered technology := by
  obtain ⟨modes, hperm, rfl⟩ := h
  exact ⟨technology.modes, hperm.symm, rfl⟩

namespace EnergyModel.Reordered

variable {model other : EnergyModel R} (h : model.Reordered other)

include h

theorem symm : other.Reordered model where
  fields := h.fields.symm
  time := h.time.symm
  regions := h.regions.symm
  regionGroups := h.regionGroups.symm
  commodities := h.commodities.symm
  impacts := h.impacts.symm
  technologies := by
    obtain ⟨technologies, hperm, hr⟩ := h.technologies.symm
    exact ⟨technologies, hperm, hr.imp fun _ _ ht => ht.symm⟩
  storage := h.storage.symm
  trade := h.trade.symm

theorem shaped (hs : model.Shaped) : other.Shaped where
  fields := by rw [h.fields]; exact hs.fields
  yearSplit := by rw [h.time]; exact hs.yearSplit
  regionGroups group hg := hs.regionGroups group (h.regionGroups.mem_iff.2 hg)
  commodities commodity hc := hs.commodities commodity (h.commodities.mem_iff.2 hc)
  impacts impact hi := hs.impacts impact (h.impacts.mem_iff.2 hi)
  technologies technology ht := by
    obtain ⟨original, ho, modes, hperm, rfl⟩ := h.technologies.exists_mem ht
    exact { hs.technologies original ho with
      modes := fun mode hm => (hs.technologies original ho).modes mode (hperm.mem_iff.2 hm) }
  storage storage ho := hs.storage storage (h.storage.mem_iff.2 ho)
  trade trade ht := hs.trade trade (h.trade.mem_iff.2 ht)

/-- The ids of the technologies are reordered with them. -/
theorem technologyIds_perm :
    (model.technologies.map (·.id)).Perm (other.technologies.map (·.id)) := by
  refine h.technologies.map_perm fun technology technology' ht => ?_
  obtain ⟨modes, -, rfl⟩ := ht
  rfl

theorem distinctIds (hd : model.DistinctIds) : other.DistinctIds where
  regions := (h.regions.map _).nodup_iff.1 hd.regions
  regionGroups := (h.regionGroups.map _).nodup_iff.1 hd.regionGroups
  commodities := (h.commodities.map _).nodup_iff.1 hd.commodities
  impacts := (h.impacts.map _).nodup_iff.1 hd.impacts
  technologies := h.technologyIds_perm.nodup_iff.1 hd.technologies
  storage := (h.storage.map _).nodup_iff.1 hd.storage
  trade := (h.trade.map _).nodup_iff.1 hd.trade

/-! ### The index sets -/

theorem hold {sets : IndexSets} (hs : sets.Hold model) : sets.Hold other where
  fields := by rw [h.fields]; exact hs.fields
  regionGroups group hg := hs.regionGroups group (h.regionGroups.mem_iff.2 hg)
  commodities commodity hc := hs.commodities commodity (h.commodities.mem_iff.2 hc)
  impacts impact hi := hs.impacts impact (h.impacts.mem_iff.2 hi)
  modes technology ht mode hm := by
    obtain ⟨original, ho, modes, hperm, rfl⟩ := h.technologies.exists_mem ht
    exact hs.modes original ho mode (hperm.mem_iff.2 hm)
  technologies technology ht := by
    obtain ⟨original, ho, modes, hperm, rfl⟩ := h.technologies.exists_mem ht
    exact hs.technologies original ho
  storage storage ho := hs.storage storage (h.storage.mem_iff.2 ho)
  traded trade ht := hs.traded trade (h.trade.mem_iff.2 ht)
  trade trade ht := hs.trade trade (h.trade.mem_iff.2 ht)

/-- The modes of a technology are found under its id, whichever technology comes first. -/
theorem modesByTechnology_eq (hd : model.DistinctIds) :
    (IndexSets.ofModel model).modesByTechnology = (IndexSets.ofModel other).modesByTechnology := by
  let entry (technology : Technology R) : String × List String :=
    (technology.id, Text.sortedDistinct (technology.modes.map (·.id)))
  have hperm : (model.technologies.map entry).Perm (other.technologies.map entry) := by
    refine h.technologies.map_perm fun technology technology' ht => ?_
    obtain ⟨modes, hmodes, rfl⟩ := ht
    exact Prod.ext rfl (sortedDistinct_perm (hmodes.map _))
  have hn : ((model.technologies.map entry).map Prod.fst).Nodup := by
    rw [List.map_map]
    exact hd.technologies
  calc (IndexSets.ofModel model).modesByTechnology
      = (model.technologies.map entry).foldl (fun table p => table.insert p.1 p.2) ∅ := by
        rw [List.foldl_map]
        rfl
    _ = (other.technologies.map entry).foldl (fun table p => table.insert p.1 p.2) ∅ :=
        foldl_insert_perm hperm hn ∅
    _ = (IndexSets.ofModel other).modesByTechnology := by
        rw [List.foldl_map]
        rfl

theorem ofModel_eq (hd : model.DistinctIds) :
    IndexSets.ofModel model = IndexSets.ofModel other := by
  have hmodes : (model.technologies.flatMap fun t => t.modes.map (·.id)).Perm
      (other.technologies.flatMap fun t => t.modes.map (·.id)) := by
    refine h.technologies.flatMap_perm fun technology technology' ht => ?_
    obtain ⟨modes, hperm, rfl⟩ := ht
    exact hperm.map _
  simp only [IndexSets.ofModel, h.time, sortedDistinct_perm (h.regions.map _),
    sortedDistinct_perm (h.regionGroups.map _), sortedDistinct_perm h.technologyIds_perm,
    sortedDistinct_perm (h.commodities.map _), sortedDistinct_perm (h.impacts.map _),
    sortedDistinct_perm (h.storage.map _), sortedDistinct_perm (h.trade.map _),
    sortedDistinct_perm hmodes]
  congr 1
  exact h.modesByTechnology_eq hd

/-- The sets are derived from both models or from neither, and are the same. -/
theorem deriveSets_iff (hd : model.DistinctIds) (sets : IndexSets) :
    deriveSets model = .ok sets ↔ deriveSets other = .ok sets := by
  rw [deriveSets_eq_ok_iff, deriveSets_eq_ok_iff, h.ofModel_eq hd]
  exact and_congr_right fun _ => ⟨h.hold, h.symm.hold⟩

/-! ### The variables -/

/-- The keys of technologies that a condition picks are reordered with the technologies. -/
theorem technologyKeys_perm {sets : IndexSets}
    {picked picked' : String → Technology R → String → Lookup Bool}
    (hp : ∀ region technology technology' year, technology.Reordered technology' →
      (picked region technology year).value = (picked' region technology' year).value) :
    (VariableGroup.technologyKeys model sets picked).value.Perm
      (VariableGroup.technologyKeys other sets picked').value := by
  refine perm_gather_left fun region _ => perm_gather h.technologies ?_
  refine fun technology technology' ht => perm_gather_left fun year _ => ?_
  rw [value_bind, value_bind, hp region technology technology' year ht]
  obtain ⟨modes, -, rfl⟩ := ht
  exact .refl _

theorem activityKeys_perm {sets : IndexSets} :
    (VariableGroup.activityKeys model sets).Perm (VariableGroup.activityKeys other sets) := by
  refine .flatMap_left _ fun region _ => h.technologies.flatMap_perm ?_
  intro technology technology' ht
  refine .flatMap_left _ fun year _ => .flatMap_left _ fun timeslice _ => ?_
  obtain ⟨modes, hperm, rfl⟩ := ht
  exact hperm.map _

theorem routeKeys_perm {sets : IndexSets} {keys : String → String → String → String → List Key} :
    (VariableGroup.routeKeys model sets keys).value.Perm
      (VariableGroup.routeKeys other sets keys).value :=
  perm_gather (.of_perm h.trade) fun _ _ ht => by rw [ht]

variable [Zero R] [LT R] [DecidableLT R]

/-- The keys of a group are reordered with the entities. -/
theorem keys_perm {sets : IndexSets} (group : VariableGroup) :
    (group.keys model sets).value.Perm (group.keys other sets).value := by
  cases group with
  | activity => exact h.activityKeys_perm
  | newCapacity => exact h.technologyKeys_perm fun _ _ _ _ _ => rfl
  | newUnits =>
    refine h.technologyKeys_perm fun region technology technology' year ht => ?_
    obtain ⟨modes, -, rfl⟩ := ht
    rfl
  | growthFloor =>
    refine h.technologyKeys_perm fun region technology technology' year ht => ?_
    obtain ⟨modes, -, rfl⟩ := ht
    simp only [VariableGroup.growthIsFloored, value_bind, value_pure, h.time]
  | newStorage => exact .flatMap_left _ fun region _ => h.storage.flatMap_right _
  | storageLevel | charge | discharge =>
    exact .flatMap_left _ fun region _ => h.storage.flatMap_right _
  | exports | newTrade => exact h.routeKeys_perm

variable [One R]

/-- A family has the same variables with the same bounds. -/
theorem family_eq {sets : IndexSets} (group : VariableGroup) :
    (group.family model sets).value = (group.family other sets).value := by
  rw [VariableGroup.value_family, VariableGroup.value_family]
  refine (h.keys_perm group).foldl_eq' (fun key _ key' _ family => ?_) _
  exact congrArg (VariableFamily.mk _ _ _) (insert_comm family.entries fun _ => rfl)

theorem variableTable_eq {sets : IndexSets} :
    (variableTable model sets).value = (variableTable other sets).value := by
  rw [VariableGroup.value_variableTable, VariableGroup.value_variableTable]
  congr 1
  exact List.map_congr_left fun group _ => h.family_eq group

end EnergyModel.Reordered

end EnergyPlan
