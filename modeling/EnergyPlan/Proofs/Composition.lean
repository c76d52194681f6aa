/-
# What fits together in a model

Nothing is wrong with the composition of a model exactly if it has an entity of each of the
four kinds that it needs, ids are unique within each list, every commodity is an output of a
technology or carried by a trade, no commodity is carried by two trades, and every storage is
charged by some mode and discharged by some mode.

Key definitions: `EnergyModel.Supplied`, `EnergyModel.Composed`.
Key theorems: `supplies_iff`, `flagged_iff`, `tradedAgain_eq_nil_iff`,
`composition_eq_nil_iff`.
-/
import EnergyPlan.Proofs.Built

namespace EnergyPlan.EnergyModel

variable {R : Type}

/-- A commodity is an output of an operating mode, or a trade carries it. -/
def Supplied [Zero R] [LT R] (model : EnergyModel R) (commodity : String) : Prop :=
  (∃ technology ∈ model.technologies, ∃ mode ∈ technology.modes, ∃ key ratio,
    mode.outputRatio.find? key = some ratio ∧ key[1]? = some commodity ∧ 0 < ratio) ∨
  ∃ trade ∈ model.trade, trade.commodity = commodity

/-- The entities of a model fit together. -/
structure Composed [Zero R] [LT R] (model : EnergyModel R) : Prop where
  regions : model.regions ≠ []
  commodities : model.commodities ≠ []
  impacts : model.impacts ≠ []
  technologies : model.technologies ≠ []
  distinct : model.DistinctIds
  supplied : ∀ commodity ∈ model.commodities, model.Supplied commodity.id
  carriedOnce : ((model.trade.map (·.commodity)).filter fun c => !c.isEmpty).Nodup
  charged : ∀ storage ∈ model.storage, ∃ technology ∈ model.technologies,
    ∃ mode ∈ technology.modes, ∃ key, mode.toStorage.find? key = some true ∧
      key[1]? = some storage.id
  discharged : ∀ storage ∈ model.storage, ∃ technology ∈ model.technologies,
    ∃ mode ∈ technology.modes, ∃ key, mode.fromStorage.find? key = some true ∧
      key[1]? = some storage.id

theorem needOne_eq_nil_iff {α : Type} {kind : EntityKind} {entities : List α} :
    needOne kind entities = [] ↔ entities ≠ [] := by
  cases entities <;> simp [needOne]

/-! ### Supply -/

section

variable [Zero R] [LT R] [DecidableLT R] {model : EnergyModel R}

theorem produces_iff {technology : Technology R} {commodity : String} :
    technology.produces commodity = true ↔ ∃ mode ∈ technology.modes, ∃ key ratio,
      mode.outputRatio.find? key = some ratio ∧ key[1]? = some commodity ∧ 0 < ratio := by
  simp only [Technology.produces, List.any_eq_true, Prod.exists, Tensor.mem_entries_iff,
    Bool.and_eq_true, beq_iff_eq, decide_eq_true_eq]

theorem supplies_iff {commodity : String} :
    model.supplies commodity = true ↔ model.Supplied commodity := by
  simp only [supplies, Bool.or_eq_true, List.any_eq_true, produces_iff, beq_iff_eq, Supplied]

end

/-- Trades are reported exactly if one carries a commodity that was seen, or that another one
carries. -/
theorem tradedAgain_eq_nil_iff {seen : List String} {trades : List (Trade R)} :
    tradedAgain seen trades = [] ↔
      ((trades.map (·.commodity)).filter fun c => !c.isEmpty).Nodup ∧
        ∀ trade ∈ trades, trade.commodity.isEmpty = false → trade.commodity ∉ seen := by
  induction trades generalizing seen with
  | nil => simp [tradedAgain]
  | cons trade rest ih =>
    unfold tradedAgain
    rw [List.map_cons, List.forall_mem_cons]
    by_cases hempty : trade.commodity.isEmpty = true
    · rw [if_pos hempty, ih, List.filter_cons_of_neg (by simp [hempty])]
      simp [hempty]
    · have hfull : trade.commodity.isEmpty = false := Bool.eq_false_iff.2 hempty
      rw [if_neg hempty, List.filter_cons_of_pos (by simp [hfull]), List.nodup_cons]
      by_cases hseen : trade.commodity ∈ seen
      · simp [hseen, hfull]
      · rw [if_neg hseen, ih]
        have hlater : trade.commodity ∉
            (rest.map (·.commodity)).filter (fun c => !c.isEmpty) ↔
              ∀ later ∈ rest, later.commodity.isEmpty = false →
                later.commodity ≠ trade.commodity := by
          simp only [List.mem_filter, List.mem_map, Bool.not_eq_true', not_and, forall_exists_index,
            and_imp]
          constructor
          · exact fun h later hl hf he => h later hl he hfull
          · exact fun h later hl he hf => h later hl (he ▸ hfull) he
        rw [hlater]
        constructor
        · rintro ⟨hnodup, hnew⟩
          refine ⟨⟨fun later hl hf => ?_, hnodup⟩, fun _ => hseen, fun later hl hf => ?_⟩
          · exact fun he => hnew later hl hf (he ▸ List.mem_cons_self)
          · exact fun hm => hnew later hl hf (List.mem_cons_of_mem _ hm)
        · rintro ⟨⟨hother, hnodup⟩, -, hnew⟩
          refine ⟨hnodup, fun later hl hf hm => ?_⟩
          rcases List.mem_cons.1 hm with he | hm
          · exact hother later hl hf he
          · exact hnew later hl hf hm

/-! ### Storage -/

theorem flagged_iff {flags : Tensor Bool} {storage : String} :
    flagged flags storage = true ↔ ∃ key, flags.find? key = some true ∧
      key[1]? = some storage := by
  simp only [flagged, List.any_eq_true, Prod.exists, Tensor.mem_entries_iff, Bool.and_eq_true,
    beq_iff_eq]
  constructor
  · rintro ⟨key, flag, hm, hk, rfl⟩
    exact ⟨key, hm, hk⟩
  · rintro ⟨key, hm, hk⟩
    exact ⟨key, true, hm, hk, rfl⟩

theorem any_flagged_iff {model : EnergyModel R} {flags : OperatingMode R → Tensor Bool}
    {storage : String} : (model.modes.any fun mode => flagged (flags mode) storage) = true ↔
      ∃ technology ∈ model.technologies, ∃ mode ∈ technology.modes, ∃ key,
        (flags mode).find? key = some true ∧ key[1]? = some storage := by
  simp only [modes, List.any_flatMap, List.any_eq_true, flagged_iff]

theorem checkStorageUse_eq_nil_iff {model : EnergyModel R} {storage : String} :
    model.checkStorageUse storage = [] ↔
      (∃ technology ∈ model.technologies, ∃ mode ∈ technology.modes, ∃ key,
        mode.toStorage.find? key = some true ∧ key[1]? = some storage) ∧
      ∃ technology ∈ model.technologies, ∃ mode ∈ technology.modes, ∃ key,
        mode.fromStorage.find? key = some true ∧ key[1]? = some storage := by
  simp only [checkStorageUse, List.append_eq_nil_iff, ← any_flagged_iff]
  refine and_congr ?_ ?_ <;> split <;> simp [*]

/-- **Nothing is wrong with the composition of a model exactly if its entities fit together.** -/
theorem composition_eq_nil_iff [Zero R] [LT R] [DecidableLT R] {model : EnergyModel R} :
    model.composition = [] ↔ model.Composed := by
  simp only [composition, List.append_eq_nil_iff, needOne_eq_nil_iff, uniqueIds_eq_nil_iff,
    List.map_eq_nil_iff, List.filter_eq_nil_iff, Bool.not_eq_true', Bool.not_eq_false,
    supplies_iff, tradedAgain_eq_nil_iff, List.flatMap_eq_nil_iff, checkStorageUse_eq_nil_iff]
  constructor
  · rintro ⟨⟨⟨⟨⟨⟨⟨⟨⟨⟨⟨⟨⟨hr, hc⟩, hi⟩, ht⟩, hur⟩, hug⟩, huc⟩, hui⟩, hut⟩, hus⟩, hutr⟩, hsup⟩,
      hagain, -⟩, hstore⟩
    exact ⟨hr, hc, hi, ht, ⟨hur, hug, huc, hui, hut, hus, hutr⟩, hsup, hagain,
      fun s hs => (hstore s hs).1, fun s hs => (hstore s hs).2⟩
  · rintro ⟨hr, hc, hi, ht, ⟨hur, hug, huc, hui, hut, hus, hutr⟩, hsup, hagain, hin, hout⟩
    exact ⟨⟨⟨⟨⟨⟨⟨⟨⟨⟨⟨⟨⟨hr, hc⟩, hi⟩, ht⟩, hur⟩, hug⟩, huc⟩, hui⟩, hut⟩, hus⟩, hutr⟩, hsup⟩,
      hagain, fun _ _ _ => List.not_mem_nil⟩, fun s hs => ⟨hin s hs, hout s hs⟩⟩

end EnergyPlan.EnergyModel
