/-
# The constraints that a problem has

A rule yields a family that has a constraint exactly at the indexes of the constraints that
the rule lists, and the constraint there is one of the list. The families of all rules are
in the table by name, one for each rule, whether they have constraints or not.

Key theorems: `ConstraintRule.mem_entries_family`, `ConstraintRule.mem_of_getElem?_entries`,
`ConstraintRule.yields_family`, `getElem?_constraintTable`, `exists_rule_of_constraintTable`.
-/
import EnergyPlan.Proofs.Fit.Basic

namespace EnergyPlan

variable {R : Type}

namespace ConstraintFamily

/-- Putting constraints into a family changes nothing but its entries. -/
theorem foldl_insert (cs : List (Constraint R)) (family : ConstraintFamily R) :
    (cs.foldl insert family).name = family.name ∧
      (cs.foldl insert family).dimensions = family.dimensions := by
  induction cs generalizing family with
  | nil => exact ⟨rfl, rfl⟩
  | cons c rest ih => exact ih (family.insert c)

theorem mem_entries_foldl_insert {cs : List (Constraint R)} {family : ConstraintFamily R}
    {index : Key} : index ∈ (cs.foldl insert family).entries ↔
      (∃ c ∈ cs, c.index = index) ∨ index ∈ family.entries := by
  induction cs generalizing family with
  | nil => simp
  | cons c rest ih =>
    have hi : index ∈ (family.insert c).entries ↔ c.index = index ∨ index ∈ family.entries := by
      rw [insert, Std.ExtTreeMap.mem_insert, Std.compare_eq_iff_eq]
    rw [List.foldl_cons, ih, hi]
    simp only [List.mem_cons, or_and_right, exists_or, exists_eq_left]
    exact or_assoc.symm.trans (or_congr_left or_comm)

/-- What a family has at an index was put there, or was there before. -/
theorem mem_of_getElem?_foldl_insert {cs : List (Constraint R)} {family : ConstraintFamily R}
    {index : Key} {c : Constraint R} (h : (cs.foldl insert family).entries[index]? = some c) :
    c ∈ cs ∧ c.index = index ∨ family.entries[index]? = some c := by
  induction cs generalizing family with
  | nil => exact .inr h
  | cons d rest ih =>
    rw [List.foldl_cons] at h
    rcases ih h with ⟨hm, hi⟩ | h
    · exact .inl ⟨List.mem_cons_of_mem d hm, hi⟩
    · rw [insert, Std.ExtTreeMap.getElem?_insert] at h
      split at h
      · next he =>
        cases h
        exact .inl ⟨List.mem_cons_self, Std.compare_eq_iff_eq.1 he⟩
      · exact .inr h

end ConstraintFamily

namespace ConstraintRule

variable {rule : ConstraintRule R} {ctx : Context R} {index : Key}

theorem value_family : (rule.family ctx).value =
    (rule.constraints ctx).value.foldl ConstraintFamily.insert
      ⟨rule.name, rule.dimensions, ∅⟩ := by
  rw [family, Noted.value_bind, Noted.value_foldlM]
  rfl

theorem name_family : (rule.family ctx).value.name = rule.name := by
  rw [value_family]
  exact (ConstraintFamily.foldl_insert ..).1

theorem dimensions_family : (rule.family ctx).value.dimensions = rule.dimensions := by
  rw [value_family]
  exact (ConstraintFamily.foldl_insert ..).2

/-- A family has a constraint exactly at the indexes of those that its rule lists. -/
theorem mem_entries_family : index ∈ (rule.family ctx).value.entries ↔
    ∃ c ∈ (rule.constraints ctx).value, c.index = index := by
  rw [value_family, ConstraintFamily.mem_entries_foldl_insert,
    or_iff_left Std.ExtTreeMap.not_mem_empty]

/-- The constraint of a family at an index is one that its rule lists, with that index. -/
theorem mem_of_getElem?_entries {c : Constraint R}
    (h : (rule.family ctx).value.entries[index]? = some c) :
    c ∈ (rule.constraints ctx).value ∧ c.index = index := by
  rw [value_family] at h
  rcases ConstraintFamily.mem_of_getElem?_foldl_insert h with h | h
  · exact h
  · simp at h

/-- A rule whose constraints fit yields its family without a note. -/
theorem yields_family [Zero R] [LT R] [DecidableLT R] (h : rule.FitsIn ctx) :
    (rule.family ctx).Yields fun _ => True := by
  refine h.bind fun cs hcs => ?_
  refine Noted.Yields.mono (P := fun family => family.dimensions = rule.dimensions) ?_
    fun _ _ => trivial
  refine .foldlM rfl fun family hd c hc => ⟨?_, hd⟩
  rw [ConstraintFamily.add, ConstraintFamily.misfit, if_pos (by rw [hd]; exact (hcs c hc).1)]

end ConstraintRule

variable [Zero R] [One R] [Add R] [Sub R] [Mul R] [Div R] [Neg R] [BEq R] [LT R] [DecidableLT R]
  {ctx : Context R}

theorem map_name_constraintFamilies :
    (constraintRules.map fun rule : ConstraintRule R => (rule.family ctx).value).map
        ConstraintFamily.name =
      (constraintRules : List (ConstraintRule R)).map ConstraintRule.name := by
  rw [List.map_map]
  exact List.map_congr_left fun rule _ => ConstraintRule.name_family

/-- No two rules have one name. -/
theorem nodup_constraintRules :
    ((constraintRules : List (ConstraintRule R)).map ConstraintRule.name).Nodup := by
  show ["CAa4_Constraint_Capacity", "CAa5_TotalNewCapacity", "CAb1_PlannedMaintenance",
    "EBa11_EnergyBalanceEachTS5", "EBb4_EnergyBalanceEachYear",
    "NCC1_TotalAnnualMaxNewCapacityConstraint", "NCC2_TotalAnnualMinNewCapacityConstraint",
    "TCC1_TotalAnnualMaxCapacityConstraint", "TCC2_TotalAnnualMinCapacityConstraint",
    "AAC2_TotalAnnualTechnologyActivityUpperLimit",
    "AAC3_TotalAnnualTechnologyActivityLowerLimit", "ACF1_AnnualCapacityFactorMin",
    "TAC2_TotalModelHorizonTechnologyActivityUpperLimit",
    "TAC3_TotalModelHorizonTechnologyActivityLowerLimit", "E8_AnnualEmissionsLimit",
    "E9_ModelPeriodEmissionsLimit", "RM3_ReserveMargin_Constraint",
    "RM3_ReserveMargin_RegionGroup", "RE4_EnergyConstraint",
    "RE4_EnergyConstraint_RegionGroup", "S1_RateOfStorageCharge", "S2_RateOfStorageDischarge",
    "S3_StorageLevel", "S4_StorageDailyBalance", "S5_StorageAnnualBalance",
    "SC1_StorageUpperLimit", "SC2_StorageLowerLimit", "SC3_MaxChargeConstraint",
    "SC4_MaxDischargeConstraint", "TR1_TradeCapacity", "TR2_TradeCapacityMax",
    "GR1_NewCapacityMaxGrowthRate", "GR2a_NewCapacityMaxGrowthRateBranch",
    "GR2b_NewCapacityMaxFloorBranch", "GR3_NewCapacityMinGrowthRate",
    "PT1_ProductionTargetMin", "PT2_ProductionTargetMax"].Nodup
  decide +kernel

theorem value_constraintTable : (constraintTable ctx).value =
    (constraintRules.map fun rule : ConstraintRule R => (rule.family ctx).value).foldl
      (fun table family => table.insert family.name family) ∅ := by
  rw [constraintTable, Noted.value_bind, Noted.value_each]
  rfl

/-- The table has the family of every rule under its name. -/
theorem getElem?_constraintTable {rule : ConstraintRule R} (h : rule ∈ constraintRules) :
    (constraintTable ctx).value[rule.name]? = some (rule.family ctx).value := by
  have hm : (rule.family ctx).value ∈
      constraintRules.map fun rule : ConstraintRule R => (rule.family ctx).value :=
    List.mem_map_of_mem h
  have hname : (rule.family ctx).value.name = rule.name := ConstraintRule.name_family
  rw [value_constraintTable, ← hname]
  exact getElem?_foldl_insert
    (by rw [map_name_constraintFamilies]; exact nodup_constraintRules) hm ∅

/-- The table has no families but those of the rules. -/
theorem exists_rule_of_constraintTable {label : String} {family : ConstraintFamily R}
    (h : (constraintTable ctx).value[label]? = some family) :
    ∃ rule ∈ constraintRules, label = rule.name ∧ family = (rule.family ctx).value := by
  rw [value_constraintTable] at h
  rcases mem_of_getElem?_foldl_insert h with ⟨hm, rfl⟩ | h
  · obtain ⟨rule, hr, rfl⟩ := List.mem_map.1 hm
    exact ⟨rule, hr, ConstraintRule.name_family, rfl⟩
  · simp at h

theorem yields_constraintTable (h : ∀ rule ∈ constraintRules, rule.FitsIn ctx) :
    (constraintTable ctx).Yields fun _ => True := by
  refine (Noted.Yields.each (P := fun _ => True) fun rule hr => ?_).bind
    fun _ _ => Noted.yields_pure trivial
  exact ConstraintRule.yields_family (h rule hr)

end EnergyPlan
