/-
# Where the constraints on capacity are

Capacity and availability are limited everywhere, units are counted where they have a size,
and bounds hold where they are given. Growth limits hold in every year with a year before
it: the rate by itself where no floor is given, and the two branches where one is.

Key theorems: `covers_capacityRule`, `covers_unitRule`, `covers_newCapacityRule`,
`covers_growthBranchRule`.
-/
import EnergyPlan.Proofs.Cover.Basic
import EnergyPlan.Program.Capacity

set_option linter.unusedSectionVars false

namespace EnergyPlan.ConstraintRule

open Noted Context

variable {R : Type} [Zero R] [One R] [LT R] [DecidableLT R] {ctx : Context R}
  (hc : ctx.Orderly)

include hc

/-- There are whole units of a technology exactly where a unit has a size. -/
theorem has_newUnits_iff {region : String} (hr : region ∈ ctx.sets.regions)
    {technology : Technology R} (ht : technology ∈ ctx.model.technologies) {year : String}
    (hy : year ∈ ctx.sets.years) : ctx.Has .newUnits [region, technology.id, year] ↔
      0 < (technology.unitCapacity.find? [region, year]).getD 0 := by
  constructor
  · intro h
    obtain ⟨r, -, t, ht', y, -, hp, hk⟩ := VariableGroup.mem_technologyKeys.1 h
    simp only [List.cons.injEq, and_true] at hk
    obtain ⟨rfl, hid, rfl⟩ := hk
    obtain rfl := List.inj_on_of_nodup_map hc.distinct.technologies ht ht' hid
    exact of_decide_eq_true hp
  · intro h
    exact VariableGroup.mem_technologyKeys.2
      ⟨region, hr, technology, ht, year, hy, decide_eq_true h, rfl⟩

variable [Add R] [Sub R] [Mul R] [Neg R] [BEq R]

theorem covers_capacityRule : Covers ((capacityRule : ConstraintRule R).constraints ctx)
    fun i => ∃ region ∈ ctx.sets.regions, ∃ technology ∈ ctx.model.technologies,
      ∃ year ∈ ctx.sets.years, ∃ timeslice ∈ ctx.sets.timeslices,
        i = [region, timeslice, technology.id, year] := by
  refine hc.covers_perTechnologyYear 2 (fun region _ technology _ year _ => ?_) ?_
  · exact hc.covers_timeslices 1 (fun _ => rfl) fun _ => rfl
  · rintro region technology year i ⟨timeslice, -, rfl⟩
    exact ⟨rfl, rfl, rfl⟩

theorem covers_unitRule : Covers ((unitRule : ConstraintRule R).constraints ctx)
    (ctx.technologyYears fun region technology year =>
      0 < (technology.unitCapacity.find? [region, year]).getD 0) := by
  refine hc.covers_technologyYears fun region hr technology ht year hy => ?_
  have hkey : (ctx.has .newUnits [region, technology.id, year]).value = true ↔
      ctx.Has .newUnits [region, technology.id, year] := (hc.yields_has rfl).2
  refine (covers_if (covers_one rfl rfl) rfl).congr fun i => and_congr_left fun _ => ?_
  exact hkey.trans (has_newUnits_iff hc hr ht hy)

theorem covers_maintenanceRule : Covers ((maintenanceRule : ConstraintRule R).constraints ctx)
    (ctx.technologyYears fun _ _ _ => True) := by
  refine hc.covers_technologyYears fun region _ technology _ year _ => ?_
  exact (covers_one rfl rfl).congr fun i => (and_iff_right trivial).symm

theorem covers_newCapacityRule {name : String} {bounds : Technology R → Tensor R}
    {relation : Relation} : Covers ((newCapacityRule name bounds relation).constraints ctx)
    (ctx.technologyYears fun region technology year =>
      ((bounds technology).find? [region, year]).isSome = true) := by
  refine hc.covers_technologyYears fun region _ technology _ year _ => covers_bind ?_
  exact covers_lookup? rfl fun _ => covers_one rfl rfl

theorem covers_grossCapacityRule {name : String} {bounds : Technology R → Tensor R}
    {relation : Relation} : Covers ((grossCapacityRule name bounds relation).constraints ctx)
    (ctx.technologyYears fun region technology year =>
      ((bounds technology).find? [region, year]).isSome = true) := by
  refine hc.covers_technologyYears fun region _ technology _ year _ => ?_
  exact covers_lookup? rfl fun _ => covers_one rfl rfl

/-! ### Growth -/

/-- The constraints of the later years are in the years with a year before them. -/
theorem covers_perLaterYear
    {rows : String → Technology R → String → Int → Lookup (List (Constraint R))}
    {p : String → Technology R → Prop}
    (h : ∀ region technology year previous, Covers (rows region technology year previous)
      fun i => p region technology ∧ i = [region, technology.id, year]) :
    Covers (perLaterYear ctx rows) (ctx.technologyYears fun region technology year =>
      (ctx.previousYear year).isSome = true ∧ p region technology) := by
  refine hc.covers_technologyYears fun region _ technology _ year _ => ?_
  cases hp : ctx.previousYear year with
  | none => exact (covers_none rfl).congr fun i => ⟨False.elim, fun hi => by cases hi.1.1⟩
  | some previous =>
    refine (h region technology year previous).congr fun i => ?_
    rw [and_assoc]
    exact (and_iff_right rfl).symm

theorem covers_maxGrowthRule : Covers ((maxGrowthRule : ConstraintRule R).constraints ctx)
    (ctx.technologyYears fun region technology year =>
      (ctx.previousYear year).isSome = true ∧
        (technology.maxGrowthRate.find? [region]).isSome = true ∧
          technology.maxGrowthFloor.find? [region] = none) := by
  refine covers_perLaterYear hc fun region technology year previous => ?_
  refine (covers_lookup? rfl fun rate => ?_).congr fun i => and_assoc.symm
  exact covers_absent? (fun _ => rfl) (covers_one rfl rfl)

theorem covers_growthBranchRule : Covers ((growthBranchRule : ConstraintRule R).constraints ctx)
    (ctx.technologyYears fun region technology year =>
      (ctx.previousYear year).isSome = true ∧
        (technology.maxGrowthRate.find? [region]).isSome = true ∧
          (technology.maxGrowthFloor.find? [region]).isSome = true) := by
  refine covers_perLaterYear hc fun region technology year previous => ?_
  refine (covers_lookup? rfl fun rate => ?_).congr fun i => and_assoc.symm
  exact covers_lookup? rfl fun floor => covers_one rfl rfl

theorem covers_floorBranchRule : Covers ((floorBranchRule : ConstraintRule R).constraints ctx)
    (ctx.technologyYears fun region technology year =>
      (ctx.previousYear year).isSome = true ∧
        (technology.maxGrowthRate.find? [region]).isSome = true ∧
          (technology.maxGrowthFloor.find? [region]).isSome = true) := by
  refine covers_perLaterYear hc fun region technology year previous => ?_
  refine (covers_lookup? rfl fun rate => ?_).congr fun i => and_assoc.symm
  exact covers_lookup? rfl fun floor => covers_one rfl rfl

theorem covers_minGrowthRule : Covers ((minGrowthRule : ConstraintRule R).constraints ctx)
    (ctx.technologyYears fun region technology year =>
      (ctx.previousYear year).isSome = true ∧
        (technology.minGrowthRate.find? [region]).isSome = true) := by
  refine covers_perLaterYear hc fun region technology year previous => ?_
  exact covers_lookup? rfl fun rate => covers_one rfl rfl

end EnergyPlan.ConstraintRule
