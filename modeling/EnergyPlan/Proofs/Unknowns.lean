/-
# The variables that a model has

The families of variables of a model are in its table by name, one for each group, and a
family has a variable exactly under the keys of its group (`mem_entries_family`). Nothing
is noted while a shaped model gets its variables, for every key has one label for each
dimension of its group.

Key theorems: `getElem?_foldl_insert`, `mem_entries_family`, `getElem?_variableTable`,
`exists_group_of_variableTable`, `yields_keys`, `yields_variableTable`.
-/
import EnergyPlan.Program.Compile
import EnergyPlan.Proofs.Built
import EnergyPlan.Proofs.Over
import EnergyPlan.Proofs.References

namespace EnergyPlan

/-! ### Tables of named things -/

section

variable {α : Type} {name : α → String}

theorem getElem?_foldl_insert_of_not_mem {as : List α} {key : String} (h : key ∉ as.map name)
    (table : Std.ExtTreeMap String α) :
    (as.foldl (fun table a => table.insert (name a) a) table)[key]? = table[key]? := by
  induction as generalizing table with
  | nil => rfl
  | cons a rest ih =>
    rw [List.map_cons, List.mem_cons, not_or] at h
    rw [List.foldl_cons, ih h.2, Std.ExtTreeMap.getElem?_insert,
      if_neg fun he => h.1 (Std.compare_eq_iff_eq.1 he).symm]

/-- Things with distinct names that are put into a table are found under their names. -/
theorem getElem?_foldl_insert {as : List α} (hn : (as.map name).Nodup) {a : α} (ha : a ∈ as)
    (table : Std.ExtTreeMap String α) :
    (as.foldl (fun table a => table.insert (name a) a) table)[name a]? = some a := by
  induction as generalizing table with
  | nil => cases ha
  | cons b rest ih =>
    rw [List.map_cons, List.nodup_cons] at hn
    rw [List.foldl_cons]
    rcases List.mem_cons.1 ha with rfl | ha
    · rw [getElem?_foldl_insert_of_not_mem hn.1, Std.ExtTreeMap.getElem?_insert_self]
    · exact ih hn.2 ha _

/-- Nothing is in a table but what was put there. -/
theorem mem_of_getElem?_foldl_insert {as : List α} {key : String} {a : α}
    {table : Std.ExtTreeMap String α}
    (h : (as.foldl (fun table a => table.insert (name a) a) table)[key]? = some a) :
    a ∈ as ∧ name a = key ∨ table[key]? = some a := by
  induction as generalizing table with
  | nil => exact .inr h
  | cons b rest ih =>
    rw [List.foldl_cons] at h
    rcases ih h with ⟨hm, hk⟩ | h
    · exact .inl ⟨List.mem_cons_of_mem b hm, hk⟩
    · rw [Std.ExtTreeMap.getElem?_insert] at h
      split at h
      · next hk =>
        cases h
        exact .inl ⟨List.mem_cons_self, Std.compare_eq_iff_eq.1 hk⟩
      · exact .inr h

end

variable {R : Type}

namespace VariableGroup

theorem mem_all (group : VariableGroup) : group ∈ all := by cases group <;> decide

/-! ### Keys -/

section

variable {model : EnergyModel R} {sets : IndexSets} {key : Key}

theorem mem_activityKeys : key ∈ activityKeys model sets ↔
    ∃ region ∈ sets.regions, ∃ technology ∈ model.technologies, ∃ year ∈ sets.years,
      ∃ timeslice ∈ sets.timeslices, ∃ mode ∈ technology.modes,
        [region, timeslice, technology.id, mode.id, year] = key := by
  simp only [activityKeys, List.mem_flatMap, List.mem_map]

theorem mem_technologyKeys {picked : String → Technology R → String → Lookup Bool} :
    key ∈ (technologyKeys model sets picked).value ↔
      ∃ region ∈ sets.regions, ∃ technology ∈ model.technologies, ∃ year ∈ sets.years,
        (picked region technology year).value = true ∧ key = [region, technology.id, year] := by
  simp only [technologyKeys, Noted.mem_value_gather, Noted.value_bind, Noted.value_pure,
    List.mem_ite_nil_right, List.mem_singleton]

theorem mem_newStorageKeys : key ∈ newStorageKeys model sets ↔
    ∃ region ∈ sets.regions, ∃ storage ∈ model.storage, ∃ year ∈ sets.years,
      [region, storage.id, year] = key := by
  simp only [newStorageKeys, List.mem_flatMap, List.mem_map]

theorem mem_storageKeys : key ∈ storageKeys model sets ↔
    ∃ region ∈ sets.regions, ∃ storage ∈ model.storage, ∃ year ∈ sets.years,
      ∃ timeslice ∈ sets.timeslices, [region, storage.id, timeslice, year] = key := by
  simp only [storageKeys, List.mem_flatMap, List.mem_map]

theorem mem_routeKeys {keys : String → String → String → String → List Key} :
    key ∈ (routeKeys model sets keys).value ↔
      ∃ trade ∈ model.trade, ∃ origin ∈ sets.regions, ∃ destination ∈ sets.regions,
        ∃ year ∈ sets.years, (trade.isActive origin destination year).value = true ∧
          key ∈ keys origin destination trade.commodity year := by
  simp only [routeKeys, Noted.mem_value_gather, Noted.value_bind, Noted.value_pure,
    List.mem_ite_nil_right]

theorem mem_newTradeKeys [Zero R] [LT R] [DecidableLT R] :
    key ∈ (VariableGroup.newTrade.keys model sets).value ↔
      ∃ trade ∈ model.trade, ∃ origin ∈ sets.regions, ∃ destination ∈ sets.regions,
        ∃ year ∈ sets.years, (trade.isActive origin destination year).value = true ∧
          key = [origin, destination, trade.commodity, year] := by
  simp only [keys, mem_routeKeys, List.mem_singleton]

theorem mem_exportKeys [Zero R] [LT R] [DecidableLT R] :
    key ∈ (VariableGroup.exports.keys model sets).value ↔
      ∃ trade ∈ model.trade, ∃ origin ∈ sets.regions, ∃ destination ∈ sets.regions,
        ∃ year ∈ sets.years, (trade.isActive origin destination year).value = true ∧
          ∃ timeslice ∈ sets.timeslices,
            [origin, destination, timeslice, trade.commodity, year] = key := by
  simp only [keys, mem_routeKeys, List.mem_map]

end

/-! ### Families -/

section

variable [Zero R] [One R]

/-- Adding variables to a family changes nothing but its entries. -/
theorem foldl_insert_family (keys : List Key) (bounds : Bounds R) (family : VariableFamily R) :
    (keys.foldl (fun family key => family.insert key bounds) family).name = family.name ∧
      (keys.foldl (fun family key => family.insert key bounds) family).dimensions =
        family.dimensions := by
  induction keys generalizing family with
  | nil => exact ⟨rfl, rfl⟩
  | cons key rest ih => exact ih (family.insert key bounds)

theorem mem_entries_foldl_insert {keys : List Key} {bounds : Bounds R}
    {family : VariableFamily R} {key : Key} :
    key ∈ (keys.foldl (fun family key => family.insert key bounds) family).entries ↔
      key ∈ keys ∨ key ∈ family.entries := by
  induction keys generalizing family with
  | nil => simp
  | cons k rest ih =>
    have hi : key ∈ (family.insert k bounds).entries ↔ k = key ∨ key ∈ family.entries := by
      rw [VariableFamily.insert, Std.ExtTreeMap.mem_insert, Std.compare_eq_iff_eq]
    rw [List.foldl_cons, ih, hi, List.mem_cons, eq_comm (a := k)]
    exact or_assoc.symm.trans (or_congr_left or_comm)

variable [LT R] [DecidableLT R] (group : VariableGroup) (model : EnergyModel R) (sets : IndexSets)

theorem value_family : (group.family model sets).value =
    (group.keys model sets).value.foldl (fun family key => family.insert key ⟨0, none⟩)
      ⟨group.name, group.dimensions, group.kind, ∅⟩ := by
  rw [family, Noted.value_bind, Noted.value_foldlM]
  rfl

theorem name_family : (group.family model sets).value.name = group.name := by
  rw [value_family]
  exact (foldl_insert_family ..).1

theorem dimensions_family : (group.family model sets).value.dimensions = group.dimensions := by
  rw [value_family]
  exact (foldl_insert_family ..).2

variable {group model sets} {key : Key}

/-- A family has a variable exactly under the keys of its group. -/
theorem mem_entries_family : key ∈ (group.family model sets).value.entries ↔
    key ∈ (group.keys model sets).value := by
  rw [value_family, mem_entries_foldl_insert, or_iff_left Std.ExtTreeMap.not_mem_empty]

theorem map_name_families :
    (all.map fun group => (group.family model sets).value).map VariableFamily.name =
      all.map name := by
  rw [List.map_map]
  exact List.map_congr_left fun group _ => name_family group model sets

theorem value_variableTable : (variableTable model sets).value =
    (all.map fun group => (group.family model sets).value).foldl
      (fun table family => table.insert family.name family) ∅ := by
  rw [variableTable, Noted.value_bind, Noted.value_each]
  rfl

/-- The table has the family of every group under its name. -/
theorem getElem?_variableTable (group : VariableGroup) :
    (variableTable model sets).value[group.name]? = some (group.family model sets).value := by
  have hm : (group.family model sets).value ∈
      all.map fun group => (group.family model sets).value :=
    List.mem_map_of_mem (mem_all group)
  have hn : (all.map name).Nodup := by decide +kernel
  rw [value_variableTable, ← name_family group model sets]
  exact getElem?_foldl_insert (by rw [map_name_families]; exact hn) hm ∅

/-- The table has no families but those of the groups. -/
theorem exists_group_of_variableTable {label : String} {family : VariableFamily R}
    (h : (variableTable model sets).value[label]? = some family) :
    ∃ group : VariableGroup, label = group.name ∧ family = (group.family model sets).value := by
  rw [value_variableTable] at h
  rcases mem_of_getElem?_foldl_insert h with ⟨hm, rfl⟩ | h
  · obtain ⟨group, -, rfl⟩ := List.mem_map.1 hm
    exact ⟨group, name_family .., rfl⟩
  · simp at h

end

/-! ### Nothing is noted -/

theorem yields_technologyKeys {model : EnergyModel R} {sets : IndexSets}
    {picked : String → Technology R → String → Lookup Bool}
    (h : ∀ region, ∀ technology ∈ model.technologies, ∀ year,
      (picked region technology year).Yields fun _ => True) :
    (technologyKeys model sets picked).Yields fun keys => ∀ key ∈ keys, key.length = 3 := by
  refine .gather fun region _ => .gather fun technology ht => .gather fun year _ => ?_
  refine (h region technology ht year).bind fun picked _ => Noted.yields_pure fun key hk => ?_
  rw [List.mem_ite_nil_right, List.mem_singleton] at hk
  rw [hk.2]
  rfl

theorem yields_isActive {trade : Trade R} (ht : trade.Shaped) (origin destination year : String) :
    (trade.isActive origin destination year).Yields fun _ => True :=
  .ite (fun _ => Noted.yields_pure trivial)
    fun _ => (Tensor.yields_lookup ht.routes rfl).mono fun _ _ => trivial

theorem yields_routeKeys {model : EnergyModel R} (hm : model.Shaped) {sets : IndexSets}
    {keys : String → String → String → String → List Key} {length : Nat}
    (h : ∀ origin destination commodity year,
      ∀ key ∈ keys origin destination commodity year, key.length = length) :
    (routeKeys model sets keys).Yields fun keys => ∀ key ∈ keys, key.length = length := by
  refine .gather fun trade ht => .gather fun origin _ => .gather fun destination _ =>
    .gather fun year _ => ?_
  refine (yields_isActive (hm.trade trade ht) ..).bind fun active _ => Noted.yields_pure ?_
  intro key hk
  rw [List.mem_ite_nil_right] at hk
  exact h _ _ _ _ key hk.2

variable [Zero R] [LT R] [DecidableLT R] {model : EnergyModel R} (hm : model.Shaped)
  (sets : IndexSets)

include hm

/-- Every key of a group has one label for each of its dimensions. -/
theorem yields_keys (group : VariableGroup) : (group.keys model sets).Yields fun keys =>
    ∀ key ∈ keys, key.length = group.dimensions.length := by
  cases group with
  | activity =>
    refine Noted.yields_pure fun key hk => ?_
    obtain ⟨_, -, _, -, _, -, _, -, _, -, rfl⟩ := mem_activityKeys.1 hk
    rfl
  | newCapacity => exact yields_technologyKeys fun _ _ _ _ => Noted.yields_pure trivial
  | newUnits =>
    refine yields_technologyKeys fun region technology ht year => ?_
    exact (Tensor.yields_lookup (hm.technologies technology ht).unitCapacity rfl).bind
      fun _ _ => Noted.yields_pure trivial
  | growthFloor =>
    refine yields_technologyKeys fun region technology ht year => ?_
    have hs := hm.technologies technology ht
    exact (Tensor.yields_has hs.maxGrowthRate rfl).bind fun _ _ =>
      (Tensor.yields_has hs.maxGrowthFloor rfl).bind fun _ _ => Noted.yields_pure trivial
  | newStorage =>
    refine Noted.yields_pure fun key hk => ?_
    obtain ⟨_, -, _, -, _, -, rfl⟩ := mem_newStorageKeys.1 hk
    rfl
  | storageLevel | charge | discharge =>
    refine Noted.yields_pure fun key hk => ?_
    obtain ⟨_, -, _, -, _, -, _, -, rfl⟩ := mem_storageKeys.1 hk
    rfl
  | exports =>
    refine yields_routeKeys hm fun _ _ _ _ key hk => ?_
    obtain ⟨_, -, rfl⟩ := List.mem_map.1 hk
    rfl
  | newTrade =>
    refine yields_routeKeys hm fun _ _ _ _ key hk => ?_
    rw [List.mem_singleton.1 hk]
    rfl

variable [One R]

theorem yields_family (group : VariableGroup) :
    (group.family model sets).Yields fun family => family.dimensions = group.dimensions := by
  refine (yields_keys hm sets group).bind fun keys hk => .foldlM rfl ?_
  intro family hd key hmem
  refine ⟨?_, hd⟩
  rw [VariableFamily.add, VariableFamily.misfit, if_pos (by rw [hd]; exact hk key hmem)]

theorem yields_variableTable : (variableTable model sets).Yields fun _ => True := by
  refine (Noted.Yields.each (P := fun _ => True) fun group _ => ?_).bind
    fun _ _ => Noted.yields_pure trivial
  exact (yields_family hm sets group).mono fun _ _ => trivial

end VariableGroup

end EnergyPlan
