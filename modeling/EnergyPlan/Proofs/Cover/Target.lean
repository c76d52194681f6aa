/-
# Where the constraints on margins and targets are

A region keeps its margin in the years in which some commodity counts for it there; a group
keeps its own where it has one and some commodity counts in one of its regions. Renewable
targets are met where they are given and some commodity counts, and targets on production
where they are given.

Key definitions: `Context.CountsIn`, `Context.CountsInGroup`.
Key theorems: `mem_flaggedAt`, `covers_marginRule`, `covers_groupMarginRule`,
`covers_renewableRule`, `covers_groupRenewableRule`, `covers_productionTargetRule`.
-/
import EnergyPlan.Proofs.Cover.Basic
import EnergyPlan.Proofs.Fit.Target

set_option linter.unusedSectionVars false

namespace EnergyPlan

open Noted Context

namespace Tensor

variable {α : Type} {t : Tensor α}

/-- No key has two entries. -/
theorem nodup_keys : (t.entries.map Prod.fst).Nodup := by
  rw [entries, Std.ExtTreeMap.map_fst_toList_eq_keys]
  exact Std.ExtTreeMap.nodup_keys

/-- There is an entry under a key exactly if a value is found there. -/
theorem exists_entry_iff {key : Key} :
    (∃ value, (key, value) ∈ t.entries) ↔ (t.find? key).isSome = true := by
  rw [Option.isSome_iff_exists]
  exact exists_congr fun value => mem_entries_iff

end Tensor

/-- The entities with a flag set are those whose flag is set at the key. -/
theorem mem_flaggedAt {α : Type} {flags : α → Tensor Bool} {key : Key} {entities : List α}
    {e : α} : e ∈ (flaggedAt flags key entities).value ↔
      e ∈ entities ∧ (flags e).find? key = some true := by
  rw [flaggedAt, mem_value_gather]
  constructor
  · rintro ⟨a, ha, he⟩
    obtain ⟨hset, he⟩ := List.mem_ite_nil_right.1 he
    obtain rfl := List.mem_singleton.1 he
    exact ⟨ha, getD_false_iff.1 hset⟩
  · rintro ⟨he, hset⟩
    exact ⟨e, he, List.mem_ite_nil_right.2 ⟨getD_false_iff.2 hset, List.mem_singleton_self e⟩⟩

variable {R : Type}

/-- A loop over the entries of a tensor covers what its rows do, if an index tells the key. -/
theorem covers_entries {α : Type} {t : Tensor α} {f : Key × α → Lookup (List (Constraint R))}
    {p : Key → Key → Prop} (read : Key → Key)
    (h : ∀ key value, (key, value) ∈ t.entries → Covers (f (key, value)) (p key))
    (hread : ∀ key i, p key i → read i = key) :
    Covers (gather f t.entries) fun i => ∃ key, (t.find? key).isSome = true ∧ p key i := by
  refine Covers.congr (.gather (p := fun e => p e.1) read Tensor.nodup_keys
    (fun e he => h e.1 e.2 he) fun e _ i hi => hread e.1 i hi) fun i => ?_
  constructor
  · rintro ⟨e, he, hi⟩
    exact ⟨e.1, Tensor.exists_entry_iff.1 ⟨e.2, he⟩, hi⟩
  · rintro ⟨key, hkey, hi⟩
    obtain ⟨value, he⟩ := Tensor.exists_entry_iff.2 hkey
    exact ⟨(key, value), he, hi⟩

/-- Some commodity counts in a region and a year. -/
def Context.CountsIn (ctx : Context R) (flags : Commodity R → Tensor Bool)
    (region year : String) : Prop :=
  ∃ commodity ∈ ctx.model.commodities, (flags commodity).find? [region, year] = some true

/-- Some commodity counts in a year in a region of a group. -/
def Context.CountsInGroup (ctx : Context R) (flags : Commodity R → Tensor Bool)
    (group : RegionGroup R) (year : String) : Prop :=
  ∃ region ∈ ctx.sets.regions, group.includes.find? [region, year] = some true ∧
    ctx.CountsIn flags region year

variable {ctx : Context R} {flags : Commodity R → Tensor Bool}

theorem flaggedAt_isEmpty_iff {region year : String} :
    ¬ (flaggedAt flags [region, year] ctx.model.commodities).value.isEmpty = true ↔
      ctx.CountsIn flags region year := by
  rw [Bool.not_eq_true, List.isEmpty_eq_false_iff_exists_mem]
  exact exists_congr fun commodity => mem_flaggedAt

theorem mem_groupRegions {group : RegionGroup R} {region year : String} :
    region ∈ (groupRegions ctx group year).value ↔
      region ∈ ctx.sets.regions ∧ group.includes.find? [region, year] = some true := by
  rw [groupRegions, mem_value_gather]
  constructor
  · rintro ⟨a, ha, he⟩
    obtain ⟨hset, he⟩ := List.mem_ite_nil_right.1 he
    obtain rfl := List.mem_singleton.1 he
    exact ⟨ha, getD_false_iff.1 hset⟩
  · rintro ⟨hr, hset⟩
    exact ⟨region, hr,
      List.mem_ite_nil_right.2 ⟨getD_false_iff.2 hset, List.mem_singleton_self region⟩⟩

namespace ConstraintRule

variable [Zero R] [One R] [LT R] [DecidableLT R] (hc : ctx.Orderly)

include hc

variable [Add R] [Sub R] [Mul R] [Neg R] [BEq R]

/-! ### Reserve margin -/

theorem covers_marginRule : Covers ((marginRule : ConstraintRule R).constraints ctx)
    fun i => ∃ region ∈ ctx.sets.regions, ∃ year ∈ ctx.sets.years,
      ctx.CountsIn Commodity.inReserveMargin region year ∧
        ∃ timeslice ∈ ctx.sets.timeslices, i = [region, timeslice, year] := by
  refine covers_loops₂ (labelAt 0) lastLabel hc.map_regions hc.map_years
    (fun region _ year _ => ?_) ?_
  · rw [← flaggedAt_isEmpty_iff]
    refine covers_bind (covers_unless rfl (covers_bind ?_))
    exact hc.covers_timeslices 1 (fun _ => rfl) fun _ => rfl
  · rintro region year i ⟨-, timeslice, -, rfl⟩
    exact ⟨rfl, rfl⟩

/-- Some region of a group has commodities that count exactly if some commodity counts in one
of its regions. -/
theorem countingRegions_isEmpty_iff {group : RegionGroup R} {year : String} :
    ¬ (gather (fun region => do
        return if (← marginCommodities ctx region year).isEmpty then [] else [region])
      (groupRegions ctx group year).value).value.isEmpty = true ↔
      ctx.CountsInGroup Commodity.inReserveMargin group year := by
  rw [Bool.not_eq_true, List.isEmpty_eq_false_iff_exists_mem]
  constructor
  · rintro ⟨r, hr⟩
    obtain ⟨region, hm, he⟩ := mem_value_gather.1 hr
    obtain ⟨hr, hset⟩ := mem_groupRegions.1 hm
    have hcounts := (List.mem_ite_nil_left.1 he).1
    exact ⟨region, hr, hset, flaggedAt_isEmpty_iff.1 hcounts⟩
  · rintro ⟨region, hr, hset, hcounts⟩
    refine ⟨region, mem_value_gather.2 ⟨region, mem_groupRegions.2 ⟨hr, hset⟩, ?_⟩⟩
    have hcounts := flaggedAt_isEmpty_iff.2 hcounts
    exact List.mem_ite_nil_left.2 ⟨hcounts, List.mem_singleton_self region⟩

theorem covers_groupMarginRule : Covers ((groupMarginRule : ConstraintRule R).constraints ctx)
    fun i => ∃ group ∈ ctx.model.regionGroups, ∃ year ∈ ctx.sets.years,
      (group.reserveMargin.find? [year]).isSome = true ∧
        ctx.CountsInGroup Commodity.inReserveMargin group year ∧
          ∃ timeslice ∈ ctx.sets.timeslices, i = [group.id, timeslice, year] := by
  refine covers_loops₂ (labelAt 0) lastLabel hc.distinct.regionGroups hc.map_years
    (fun group _ year _ => ?_) ?_
  · refine covers_lookup? rfl fun margin => ?_
    rw [← countingRegions_isEmpty_iff hc]
    refine covers_bind (covers_bind (covers_unless rfl ?_))
    exact hc.covers_timeslices 1 (fun _ => rfl) fun _ => rfl
  · rintro group year i ⟨-, -, timeslice, -, rfl⟩
    exact ⟨rfl, rfl⟩

/-! ### Renewable target -/

theorem covers_renewableRule : Covers ((renewableRule : ConstraintRule R).constraints ctx)
    fun i => ∃ region ∈ ctx.sets.regions, ∃ year ∈ ctx.sets.years,
      (ctx.model.renewableTarget.find? [region, year]).isSome = true ∧
        ctx.CountsIn Commodity.inRenewableTarget region year ∧ i = [region, year] := by
  refine Covers.congr (covers_entries (p := fun key i => ∃ region year, key = [region, year] ∧
    ctx.CountsIn Commodity.inRenewableTarget region year ∧ i = [region, year]) id
    (fun key share _ => ?_) ?_) fun i => ?_
  · dsimp only
    split
    · next region year _ =>
      refine Covers.congr (covers_bind (covers_unless rfl (covers_one rfl rfl))) fun i => ?_
      rw [renewableCommodities, flaggedAt_isEmpty_iff]
      constructor
      · exact fun h => ⟨region, year, rfl, h⟩
      · rintro ⟨r, y, hkey, h⟩
        cases hkey
        exact h
    · next hne =>
      exact (covers_none rfl).congr fun i => ⟨False.elim, fun ⟨r, y, hk, _⟩ => hne r y hk⟩
  · rintro key i ⟨region, year, rfl, -, rfl⟩
    rfl
  · constructor
    · rintro ⟨_, hgiven, region, year, rfl, h⟩
      obtain ⟨share, he⟩ := Tensor.exists_entry_iff.2 hgiven
      obtain ⟨hr, hy⟩ := within_renewableTarget hc.toSound he
      exact ⟨region, hr, year, hy, hgiven, h⟩
    · rintro ⟨region, -, year, -, hgiven, h⟩
      exact ⟨_, hgiven, region, year, rfl, h⟩

/-- Some region of a group has commodities that count exactly if some commodity counts in one
of its regions. -/
theorem countingCommodities_isEmpty_iff {group : RegionGroup R} {year : String} :
    ¬ (gather (renewableCommodities ctx · year)
      (groupRegions ctx group year).value).value.isEmpty = true ↔
      ctx.CountsInGroup Commodity.inRenewableTarget group year := by
  rw [Bool.not_eq_true, List.isEmpty_eq_false_iff_exists_mem]
  constructor
  · rintro ⟨commodity, hm⟩
    obtain ⟨region, hr, hm⟩ := mem_value_gather.1 hm
    obtain ⟨hr, hset⟩ := mem_groupRegions.1 hr
    exact ⟨region, hr, hset, commodity, mem_flaggedAt.1 hm⟩
  · rintro ⟨region, hr, hset, commodity, hm⟩
    exact ⟨commodity, mem_value_gather.2
      ⟨region, mem_groupRegions.2 ⟨hr, hset⟩, mem_flaggedAt.2 hm⟩⟩

theorem covers_groupRenewableRule :
    Covers ((groupRenewableRule : ConstraintRule R).constraints ctx)
    fun i => ∃ group ∈ ctx.model.regionGroups, ∃ year ∈ ctx.sets.years,
      (group.renewableTarget.find? [year]).isSome = true ∧
        ctx.CountsInGroup Commodity.inRenewableTarget group year ∧ i = [group.id, year] := by
  refine .gather (labelAt 0) hc.distinct.regionGroups (fun group hg => ?_) ?_
  · refine Covers.congr (covers_entries (p := fun key i => ∃ year, key = [year] ∧
      ctx.CountsInGroup Commodity.inRenewableTarget group year ∧ i = [group.id, year]) List.tail
      (fun key share _ => ?_) ?_) fun i => ?_
    · dsimp only
      split
      · next year _ =>
        refine Covers.congr (covers_bind (covers_bind (covers_unless rfl (covers_one rfl rfl))))
          fun i => ?_
        rw [countingCommodities_isEmpty_iff hc]
        constructor
        · exact fun h => ⟨year, rfl, h⟩
        · rintro ⟨y, hkey, h⟩
          cases hkey
          exact h
      · next hne =>
        exact (covers_none rfl).congr fun i => ⟨False.elim, fun ⟨y, hk, _⟩ => hne y hk⟩
    · rintro key i ⟨year, rfl, -, rfl⟩
      rfl
    · constructor
      · rintro ⟨_, hgiven, year, rfl, h⟩
        obtain ⟨share, he⟩ := Tensor.exists_entry_iff.2 hgiven
        exact ⟨year, within_groupTarget hc.toSound hg he, hgiven, h⟩
      · rintro ⟨year, -, hgiven, h⟩
        exact ⟨_, hgiven, year, rfl, h⟩
  · rintro group - i ⟨year, -, -, -, rfl⟩
    rfl

/-! ### Production target -/

theorem covers_productionTargetRule {name field : String} {targets : Technology R → Tensor R}
    {relation : Relation}
    (hd : ∀ technology ∈ ctx.model.technologies,
      (targets technology).dimensions = [.region, .commodity, .year])
    (hf : ∀ technology ∈ ctx.model.technologies,
      (field, FieldValues.reals (targets technology)) ∈ technology.fieldValues) :
    Covers ((productionTargetRule name targets relation).constraints ctx)
    fun i => ∃ technology ∈ ctx.model.technologies, ∃ region ∈ ctx.sets.regions,
      ∃ commodity ∈ ctx.sets.commodities, ∃ year ∈ ctx.sets.years,
        ((targets technology).find? [region, commodity, year]).isSome = true ∧
          i = [region, technology.id, commodity, year] := by
  refine .gather (labelAt 1) hc.distinct.technologies (fun technology ht => ?_) ?_
  · refine Covers.congr (covers_entries (p := fun key i => ∃ region commodity year,
      key = [region, commodity, year] ∧ i = [region, technology.id, commodity, year])
      (fun i => i.eraseIdx 1) (fun key share _ => ?_) ?_) fun i => ?_
    · dsimp only
      split
      · next region commodity year _ =>
        refine (covers_one rfl rfl).congr fun i => ?_
        constructor
        · exact fun h => ⟨region, commodity, year, rfl, h⟩
        · rintro ⟨r, c, y, hkey, h⟩
          cases hkey
          exact h
      · next hne =>
        exact (covers_none rfl).congr
          fun i => ⟨False.elim, fun ⟨r, c, y, hk, _⟩ => hne r c y hk⟩
    · rintro key i ⟨region, commodity, year, rfl, rfl⟩
      rfl
    · constructor
      · rintro ⟨_, hgiven, region, commodity, year, rfl, h⟩
        obtain ⟨share, he⟩ := Tensor.exists_entry_iff.2 hgiven
        obtain ⟨hr, hm, hy⟩ := within_productionTarget hc.toSound hd hf ht he
        exact ⟨region, hr, commodity, hm, year, hy, hgiven, h⟩
      · rintro ⟨region, -, commodity, -, year, -, hgiven, h⟩
        exact ⟨_, hgiven, region, commodity, year, rfl, h⟩
  · rintro technology - i ⟨region, -, commodity, -, year, -, -, rfl⟩
    rfl

end ConstraintRule

end EnergyPlan
