/-
# Where the constraints on storage and trade are

Rates, levels and the upper limit of a storage are constrained in every timeslice, the lower
limit where there is a least charge, and limits on rates where they are given. A balanced
storage is balanced in each year, or in each season and day type with a timeslice. A route
is constrained in the years in which it is open; as trades carry distinct commodities, no
two of them share a route of one commodity.

Key definitions: `Trade.Open`.
Key theorems: `covers_rateRule`, `covers_levelRule`, `covers_dailyBalanceRule`,
`has_newTrade_iff`, `covers_routeCapacityRule`.
-/
import EnergyPlan.Proofs.Cover.Basic
import EnergyPlan.Program.Route
import EnergyPlan.Program.Store

set_option linter.unusedSectionVars false

namespace EnergyPlan

open Noted Context

theorem map_snd_withPrevious {α : Type} (items : List α) :
    (withPrevious items).map Prod.snd = items := by
  apply List.map_snd_zip
  rw [List.length_cons, List.length_map]
  omega

/-- The elements of a list are those that have one before them or none. -/
theorem exists_withPrevious {α : Type} {items : List α} {p : α → Prop} :
    (∃ e ∈ withPrevious items, p e.2) ↔ ∃ a ∈ items, p a := by
  constructor
  · rintro ⟨e, he, hp⟩
    refine ⟨e.2, ?_, hp⟩
    rw [← map_snd_withPrevious items]
    exact List.mem_map_of_mem he
  · rintro ⟨a, ha, hp⟩
    rw [← map_snd_withPrevious items] at ha
    obtain ⟨e, he, rfl⟩ := List.mem_map.1 ha
    exact ⟨e, he, hp⟩

variable {R : Type}

/-- A route is open in a year: it joins two regions, and the configuration says so. -/
def Trade.Open (trade : Trade R) (origin destination year : String) : Prop :=
  origin ≠ destination ∧ trade.routes.find? [origin, destination, year] = some true

theorem isActive_iff {trade : Trade R} {origin destination year : String} :
    (trade.isActive origin destination year).value = true ↔
      trade.Open origin destination year := by
  unfold Trade.isActive
  by_cases h : origin = destination
  · rw [if_pos h]
    exact ⟨nofun, fun ho => absurd h ho.1⟩
  · rw [if_neg h]
    exact getD_false_iff.trans (and_iff_right h).symm

variable [Zero R] [One R] [LT R] [DecidableLT R] {ctx : Context R}

namespace ConstraintRule

variable (hc : ctx.Orderly)

include hc

variable [Add R] [Sub R] [Mul R] [Neg R] [BEq R]

/-! ### Storage -/

theorem covers_rateRule {name : String} {group : VariableGroup}
    {ties : OperatingMode R → Tensor Bool} :
    Covers ((rateRule name group ties).constraints ctx)
      (ctx.storageSlices fun _ _ _ => True) := by
  refine hc.covers_storageSlices fun region _ storage _ year _ => ?_
  refine Covers.congr ?_ fun i => (and_iff_right trivial).symm
  exact hc.covers_timeslices 2 (fun _ => rfl) fun _ => rfl

omit hc in
/-- Trades play no part in the levels, so they need not be told apart by their commodities. -/
theorem covers_levelRule (hregions : ctx.sets.regions.Nodup)
    (hstorage : (ctx.model.storage.map (·.id)).Nodup) (hyears : ctx.sets.years.Nodup)
    (hslices : ctx.sets.timeslices.Nodup) :
    Covers ((levelRule : ConstraintRule R).constraints ctx)
      (ctx.storageSlices fun _ _ _ => True) := by
  rw [← List.map_id ctx.sets.regions] at hregions
  rw [← map_snd_withPrevious ctx.sets.years] at hyears
  rw [← map_snd_withPrevious ctx.sets.timeslices] at hslices
  refine Covers.congr (p := fun i => ∃ region ∈ ctx.sets.regions, ∃ storage ∈ ctx.model.storage,
    ∃ year ∈ withPrevious ctx.sets.years, ∃ timeslice ∈ withPrevious ctx.sets.timeslices,
      i = [region, storage.id, timeslice.2, year.2]) ?_ fun i => ?_
  · refine covers_loops₃ (labelAt 0) (labelAt 1) lastLabel hregions hstorage
      hyears (fun region _ storage _ year _ => ?_) ?_
    · exact .each (labelAt 2) hslices (fun _ _ => rfl) fun _ _ => rfl
    · rintro region storage year i ⟨timeslice, -, rfl⟩
      exact ⟨rfl, rfl, rfl⟩
  · refine exists_congr fun region => and_congr_right fun _ => exists_congr fun storage =>
      and_congr_right fun _ => ?_
    rw [exists_withPrevious (p := fun year => ∃ timeslice ∈ withPrevious ctx.sets.timeslices,
      i = [region, storage.id, timeslice.2, year])]
    refine exists_congr fun year => and_congr_right fun _ => ?_
    rw [exists_withPrevious (p := fun timeslice => i = [region, storage.id, timeslice, year])]
    exact (and_iff_right trivial).symm

theorem covers_annualBalanceOfStorageRule :
    Covers ((annualBalanceOfStorageRule : ConstraintRule R).constraints ctx)
    fun i => ∃ region ∈ ctx.sets.regions, ∃ storage ∈ ctx.model.storage,
      ∃ year ∈ ctx.sets.years, storage.balanceAnnual = true ∧
        i = [region, storage.id, year] := by
  refine hc.covers_perStorageYear (fun region _ storage _ year _ => ?_) ?_
  · refine (covers_unless rfl (covers_one rfl rfl)).congr fun i => and_congr_left fun _ => ?_
    rw [Bool.not_eq_true', Bool.not_eq_false]
  · rintro region storage year i ⟨-, rfl⟩
    exact ⟨rfl, rfl, rfl⟩

/-- There are timeslices in a season and a day type exactly if one lies in both. -/
theorem slicesOf_isEmpty_iff {season dayType : String} :
    ¬ (slicesOf ctx season dayType).isEmpty = true ↔
      ∃ timeslice ∈ ctx.sets.timeslices,
        ctx.model.time.seasons.memberOf[timeslice]? = some season ∧
          ctx.model.time.dayTypes.memberOf[timeslice]? = some dayType := by
  rw [Bool.not_eq_true, List.isEmpty_eq_false_iff_exists_mem]
  refine exists_congr fun timeslice => ?_
  rw [slicesOf, List.mem_filter, Bool.and_eq_true, beq_iff_eq, beq_iff_eq]

theorem covers_dailyBalanceRule : Covers ((dailyBalanceRule : ConstraintRule R).constraints ctx)
    fun i => ∃ region ∈ ctx.sets.regions, ∃ storage ∈ ctx.model.storage,
      ∃ year ∈ ctx.sets.years, storage.balanceDaily = true ∧
        ∃ season ∈ ctx.sets.seasons, ∃ dayType ∈ ctx.sets.dayTypes,
          (∃ timeslice ∈ ctx.sets.timeslices,
            ctx.model.time.seasons.memberOf[timeslice]? = some season ∧
              ctx.model.time.dayTypes.memberOf[timeslice]? = some dayType) ∧
            i = [region, storage.id, season, dayType, year] := by
  have hseasons : (ctx.sets.seasons.map id).Nodup := by
    rw [List.map_id]
    exact hc.seasons
  have hdays : (ctx.sets.dayTypes.map id).Nodup := by
    rw [List.map_id]
    exact hc.dayTypes
  refine hc.covers_perStorageYear (fun region _ storage _ year _ => ?_) ?_
  · have hflag : storage.balanceDaily = true ↔ ¬ (!storage.balanceDaily) = true := by
      rw [Bool.not_eq_true', Bool.not_eq_false]
    rw [hflag]
    refine covers_unless rfl (covers_loops₂ (labelAt 2) (labelAt 3) hseasons hdays
      (fun season _ dayType _ => ?_) ?_)
    · rw [← slicesOf_isEmpty_iff hc]
      exact covers_unless rfl (covers_one rfl rfl)
    · rintro season dayType i ⟨-, rfl⟩
      exact ⟨rfl, rfl⟩
  · rintro region storage year i ⟨-, season, -, dayType, -, -, rfl⟩
    exact ⟨rfl, rfl, rfl⟩

theorem covers_upperLimitRule : Covers ((upperLimitRule : ConstraintRule R).constraints ctx)
    (ctx.storageSlices fun _ _ _ => True) := by
  refine hc.covers_storageSlices fun region _ storage _ year _ => ?_
  refine Covers.congr ?_ fun i => (and_iff_right trivial).symm
  exact hc.covers_timeslices 2 (fun _ => rfl) fun _ => rfl

theorem covers_lowerLimitRule : Covers ((lowerLimitRule : ConstraintRule R).constraints ctx)
    (ctx.storageSlices fun region storage year =>
      0 < (storage.minimumCharge.find? [region, year]).getD 0) := by
  refine hc.covers_storageSlices fun region _ storage _ year _ => covers_bind (covers_if ?_ rfl)
  exact hc.covers_timeslices 2 (fun _ => rfl) fun _ => rfl

theorem covers_rateLimitRule {name : String} {group : VariableGroup}
    {limits : Storage R → Tensor R} :
    Covers ((rateLimitRule name group limits).constraints ctx)
      (ctx.storageSlices fun region storage _ =>
        ((limits storage).find? [region]).isSome = true) := by
  refine hc.covers_storageSlices fun region _ storage _ year _ => covers_lookup? rfl fun _ => ?_
  exact hc.covers_timeslices 2 (fun _ => rfl) fun _ => rfl

/-! ### Trade -/

/-- New capacity of a route may be added exactly in the years in which the route is open. -/
theorem has_newTrade_iff {trade : Trade R} (ht : trade ∈ ctx.model.trade) {origin : String}
    (ho : origin ∈ ctx.sets.regions) {destination : String}
    (hd : destination ∈ ctx.sets.regions) {year : String} (hy : year ∈ ctx.sets.years) :
    ctx.Has .newTrade [origin, destination, trade.commodity, year] ↔
      trade.Open origin destination year := by
  rw [← isActive_iff]
  constructor
  · intro h
    obtain ⟨trade', ht', o, -, d, -, y, -, hp, hk⟩ := VariableGroup.mem_newTradeKeys.1 h
    simp only [List.cons.injEq, and_true] at hk
    obtain ⟨rfl, rfl, hid, rfl⟩ := hk
    obtain rfl := List.inj_on_of_nodup_map hc.traded ht ht' hid
    exact hp
  · intro h
    exact VariableGroup.mem_newTradeKeys.2
      ⟨trade, ht, origin, ho, destination, hd, year, hy, h, rfl⟩

/-- The loop over trades, their routes and the years in which a route is open; the commodity is
at a position `n`. -/
theorem covers_perRouteYear
    {rows : Trade R → String → String → String → Lookup (List (Constraint R))}
    {p : Trade R → String → String → String → Key → Prop} (n : Nat)
    (h : ∀ trade origin destination year,
      Covers (rows trade origin destination year) (p trade origin destination year))
    (hat : ∀ trade origin destination year i, p trade origin destination year i →
      labelAt n i = trade.commodity ∧ labelAt 0 i = origin ∧ labelAt 1 i = destination ∧
        lastLabel i = year) :
    Covers (perRouteYear ctx rows) fun i => ∃ trade ∈ ctx.model.trade,
      ∃ origin ∈ ctx.sets.regions, ∃ destination ∈ ctx.sets.regions,
        ∃ year ∈ ctx.sets.years, trade.Open origin destination year ∧
          p trade origin destination year i := by
  refine .gather (labelAt n) hc.traded (fun trade ht => ?_) ?_
  · refine covers_loops₃ (labelAt 0) (labelAt 1) lastLabel hc.map_regions hc.map_regions
      hc.map_years (fun origin ho destination hd year hy => ?_) ?_
    · have hkey : (ctx.has .newTrade [origin, destination, trade.commodity, year]).value =
          true ↔ ctx.Has .newTrade [origin, destination, trade.commodity, year] :=
        (hc.yields_has rfl).2
      refine (covers_if (h trade origin destination year) rfl).congr
        fun i => and_congr_left fun _ => ?_
      exact hkey.trans (has_newTrade_iff hc ht ho hd hy)
    · rintro origin destination year i ⟨-, hi⟩
      exact (hat trade origin destination year i hi).2
  · rintro trade - i ⟨origin, -, destination, -, year, -, -, hi⟩
    exact (hat trade origin destination year i hi).1

theorem covers_routeCapacityRule :
    Covers ((routeCapacityRule : ConstraintRule R).constraints ctx)
    fun i => ∃ trade ∈ ctx.model.trade, ∃ origin ∈ ctx.sets.regions,
      ∃ destination ∈ ctx.sets.regions, ∃ year ∈ ctx.sets.years,
        trade.Open origin destination year ∧ ∃ timeslice ∈ ctx.sets.timeslices,
          i = [origin, destination, timeslice, trade.commodity, year] := by
  refine covers_perRouteYear hc 3 (fun trade origin destination year => ?_) ?_
  · exact hc.covers_timeslices 2 (fun _ => rfl) fun _ => rfl
  · rintro trade origin destination year i ⟨timeslice, -, rfl⟩
    exact ⟨rfl, rfl, rfl, rfl⟩

theorem covers_newRouteRule : Covers ((newRouteRule : ConstraintRule R).constraints ctx)
    fun i => ∃ trade ∈ ctx.model.trade, ∃ origin ∈ ctx.sets.regions,
      ∃ destination ∈ ctx.sets.regions, ∃ year ∈ ctx.sets.years,
        trade.Open origin destination year ∧
          (trade.additionalMax.find? [origin, destination, year]).isSome = true ∧
            i = [origin, destination, trade.commodity, year] := by
  refine covers_perRouteYear hc 2 (fun trade origin destination year => ?_) ?_
  · exact covers_lookup? rfl fun _ => covers_one rfl rfl
  · rintro trade origin destination year i ⟨-, rfl⟩
    exact ⟨rfl, rfl, rfl, rfl⟩

end ConstraintRule

end EnergyPlan
