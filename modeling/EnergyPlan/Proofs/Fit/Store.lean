/-
# Constraints on storage and trade fit

What a storage does in a timeslice has its variables in every timeslice of every year,
the one before it in time included. A route that is open in a year has its exports in
every timeslice of that year.

Key theorems: `fitsIn_rateRule`, `fitsIn_levelRule`, `fitsIn_dailyBalanceRule`,
`fitsIn_routeCapacityRule`.
-/
import EnergyPlan.Proofs.Fit.Basic

set_option linter.unusedSectionVars false

namespace EnergyPlan

open Noted LinearExpression Context

/-- What stands before an element of a list is in the list too. -/
theorem mem_of_mem_withPrevious {α : Type} {items : List α} {previous : Option α} {a : α}
    (h : (previous, a) ∈ withPrevious items) : a ∈ items ∧ ∀ b ∈ previous, b ∈ items := by
  have hz := List.of_mem_zip h
  refine ⟨hz.2, ?_⟩
  rintro b rfl
  simpa using hz.1

namespace ConstraintRule

variable {R : Type} [Zero R] [One R] [LT R] [DecidableLT R] {ctx : Context R} (hc : ctx.Sound)
  [Add R] [Sub R] [Mul R] [Neg R] [BEq R]

include hc

section

variable {region : String} (hr : region ∈ ctx.sets.regions) {storage : Storage R}
  (ho : storage ∈ ctx.model.storage)

include hr ho

/-! ### Storage -/

theorem yields_level {timeslice year : String} (hy : year ∈ ctx.sets.years)
    (hl : timeslice ∈ ctx.sets.timeslices) {c : R} :
    (ctx.term .storageLevel [region, storage.id, timeslice, year] c).Yields
      (TermsOver ctx.Known) :=
  hc.yields_term (show ctx.Has .storageLevel _ from mem_storageKeys hr hy hl ho)

theorem yields_charge {timeslice year : String} (hy : year ∈ ctx.sets.years)
    (hl : timeslice ∈ ctx.sets.timeslices) {c : R} :
    (ctx.term .charge [region, storage.id, timeslice, year] c).Yields (TermsOver ctx.Known) :=
  hc.yields_term (show ctx.Has .charge _ from mem_storageKeys hr hy hl ho)

theorem yields_discharge {timeslice year : String} (hy : year ∈ ctx.sets.years)
    (hl : timeslice ∈ ctx.sets.timeslices) {c : R} :
    (ctx.term .discharge [region, storage.id, timeslice, year] c).Yields
      (TermsOver ctx.Known) :=
  hc.yields_term (show ctx.Has .discharge _ from mem_storageKeys hr hy hl ho)

theorem yields_netCharge {timeslice year : String} (hy : year ∈ ctx.sets.years)
    (hl : timeslice ∈ ctx.sets.timeslices) :
    (netCharge ctx region storage timeslice year).Yields (TermsOver ctx.Known) := by
  refine hc.yields_yearSplit.bind fun split _ => ?_
  refine (yields_charge hc hr ho hy hl).bind fun charge hcharge => ?_
  exact (yields_discharge hc hr ho hy hl).bind fun discharge hdischarge =>
    yields_pure (List.forall_mem_append.2 ⟨hcharge, hdischarge⟩)

theorem yields_headroom {timeslice year : String} (hy : year ∈ ctx.sets.years)
    (hl : timeslice ∈ ctx.sets.timeslices) {multiple : R} :
    (headroom ctx region storage timeslice year multiple).Yields (Over ctx.Known) :=
  (yields_level hc hr ho hy hl).bind fun _ hlevel =>
    (hc.yields_grossStorage hr ho).bind fun _ hgross =>
      yields_pure ((over_ofTerms hlevel).addScaled hgross _)

/-- The level before a timeslice has a variable unless it is the initial one. -/
theorem yields_earlierLevel {previousYear previousSlice : Option String} {year : String}
    (hy : year ∈ ctx.sets.years) (hpy : ∀ y ∈ previousYear, y ∈ ctx.sets.years)
    (hpl : ∀ l ∈ previousSlice, l ∈ ctx.sets.timeslices) :
    (earlierLevel ctx region storage previousYear previousSlice year).Yields
      fun p => TermsOver ctx.Known p.1 := by
  have hs := hc.shaped.storage storage ho
  unfold earlierLevel
  cases previousSlice with
  | some slice =>
    exact (yields_level hc hr ho hy (hpl slice rfl)).bind fun level hlevel => yields_pure hlevel
  | none =>
    have hinitial : (do
        return ([], -(← storage.initialLevel.lookup [region] 0)) :
          Lookup (List (VariableRef × R) × R)).Yields fun p => TermsOver ctx.Known p.1 :=
      (Tensor.yields_lookup hs.initialLevel rfl).bind
        fun level _ => yields_pure (List.forall_mem_nil _)
    cases previousYear with
    | none => exact hinitial
    | some earlier =>
      cases hlast : ctx.sets.timeslices.getLast? with
      | none => exact hinitial
      | some slice =>
        have hslice : slice ∈ ctx.sets.timeslices := List.mem_of_getLast? hlast
        exact (yields_level hc hr ho (hpy earlier rfl) hslice).bind
          fun level hlevel => yields_pure hlevel

end

/-- A rate fits if it has a variable for every storage in every timeslice. -/
theorem fitsIn_rateRule {name : String} {group : VariableGroup}
    {ties : OperatingMode R → Tensor Bool}
    (hg : ∀ key ∈ VariableGroup.storageKeys ctx.model ctx.sets, ctx.Has group key)
    (hd : ∀ mode : OperatingMode R, mode.Shaped →
      (ties mode).dimensions = [.region, .storage]) :
    (rateRule name group ties).FitsIn ctx := by
  refine yields_perStorageYear fun region hr storage ho year hy => .each fun timeslice hl => ?_
  refine (hc.yields_term (hg _ (mem_storageKeys hr hy hl ho))).bind fun rate hrate => ?_
  refine Yields.bind (P := TermsOver ctx.Known) ?_ fun activities hactivities =>
    yields_pure (fits_of rfl (over_ofTerms (List.forall_mem_append.2 ⟨hrate, hactivities⟩)))
  refine .gather fun technology ht => .gather fun mode hm => ?_
  have hs := (hc.shaped.technologies technology ht).modes mode hm
  refine (Tensor.yields_lookup (hd mode hs) rfl).bind fun tied _ => .ite
    (fun _ => hc.yields_term (has_activity hr hy hl ht hm))
    fun _ => yields_pure (List.forall_mem_nil _)

theorem fitsIn_levelRule : (levelRule : ConstraintRule R).FitsIn ctx := by
  refine .gather fun region hr => .gather fun storage ho => .gather ?_
  rintro ⟨previousYear, year⟩ hyear
  refine .each ?_
  rintro ⟨previousSlice, timeslice⟩ hslice
  obtain ⟨hy, hpy⟩ := mem_of_mem_withPrevious hyear
  obtain ⟨hl, hpl⟩ := mem_of_mem_withPrevious hslice
  refine hc.yields_yearSplit.bind fun split _ => ?_
  refine (yields_level hc hr ho hy hl).bind fun level hlevel => ?_
  refine (yields_charge hc hr ho hy hl).bind fun charge hcharge => ?_
  refine (yields_discharge hc hr ho hy hl).bind fun discharge hdischarge => ?_
  apply (yields_earlierLevel hc hr ho hy hpy hpl).bind
  rintro ⟨earlier, constant⟩ hearlier
  refine yields_pure (fits_of rfl ((over_ofTerms ?_).addConstant constant))
  refine List.forall_mem_append.2 ⟨List.forall_mem_append.2 ⟨?_, hdischarge⟩, hearlier⟩
  exact List.forall_mem_append.2 ⟨hlevel, hcharge⟩

theorem fitsIn_annualBalanceOfStorageRule :
    (annualBalanceOfStorageRule : ConstraintRule R).FitsIn ctx := by
  refine yields_perStorageYear fun region hr storage ho year hy => .ite
    (fun _ => yields_pure (List.forall_mem_nil _)) fun _ => ?_
  exact (Yields.gather fun timeslice hl => yields_netCharge hc hr ho hy hl).bind
    fun net hnet => yields_pure (List.forall_mem_singleton.2 (fits_of rfl (over_ofTerms hnet)))

theorem fitsIn_dailyBalanceRule : (dailyBalanceRule : ConstraintRule R).FitsIn ctx := by
  refine yields_perStorageYear fun region hr storage ho year hy => .ite
    (fun _ => yields_pure (List.forall_mem_nil _)) fun _ => ?_
  refine .gather fun season _ => .gather fun dayType _ => .ite
    (fun _ => yields_pure (List.forall_mem_nil _)) fun _ => ?_
  refine (Yields.gather fun timeslice hl => ?_).bind
    fun net hnet => yields_pure (List.forall_mem_singleton.2 (fits_of rfl (over_ofTerms hnet)))
  exact yields_netCharge hc hr ho hy (List.mem_filter.1 hl).1

theorem fitsIn_upperLimitRule : (upperLimitRule : ConstraintRule R).FitsIn ctx := by
  refine yields_perStorageYear fun region hr storage ho year hy => .each fun timeslice hl => ?_
  exact (yields_headroom hc hr ho hy hl).bind fun room hroom => yields_pure (fits_of rfl hroom)

theorem fitsIn_lowerLimitRule : (lowerLimitRule : ConstraintRule R).FitsIn ctx := by
  refine yields_perStorageYear fun region hr storage ho year hy => ?_
  refine (Tensor.yields_lookup (hc.shaped.storage storage ho).minimumCharge rfl).bind
    fun minimum _ => .ite (fun _ => ?_) fun _ => yields_pure (List.forall_mem_nil _)
  exact .each fun timeslice hl => (yields_headroom hc hr ho hy hl).bind
    fun reserve hreserve => yields_pure (fits_of rfl hreserve)

/-- A limit on a rate fits if the rate has a variable for every storage in every timeslice. -/
theorem fitsIn_rateLimitRule {name : String} {group : VariableGroup}
    {limits : Storage R → Tensor R}
    (hg : ∀ key ∈ VariableGroup.storageKeys ctx.model ctx.sets, ctx.Has group key)
    (hd : ∀ storage ∈ ctx.model.storage, (limits storage).dimensions = [.region]) :
    (rateLimitRule name group limits).FitsIn ctx := by
  refine yields_perStorageYear fun region hr storage ho year hy => ?_
  refine (Tensor.yields_lookup? (hd storage ho) rfl).bind fun limit _ => ?_
  cases limit with
  | none => exact yields_pure (List.forall_mem_nil _)
  | some limit =>
    exact .each fun timeslice hl => (hc.yields_term (hg _ (mem_storageKeys hr hy hl ho))).bind
      fun rate hrate => yields_pure (fits_of rfl (over_ofTerms hrate))

/-! ### Trade -/

/-- A route with a variable for its capacity has one for its exports in every timeslice. -/
theorem has_exports {origin destination timeslice commodity year : String}
    (h : ctx.Has .newTrade [origin, destination, commodity, year])
    (hl : timeslice ∈ ctx.sets.timeslices) :
    ctx.Has .exports [origin, destination, timeslice, commodity, year] := by
  obtain ⟨trade, ht, o, ho, d, hd, y, hy, hactive, hk⟩ := VariableGroup.mem_newTradeKeys.1 h
  simp only [List.cons.injEq, and_true] at hk
  obtain ⟨rfl, rfl, rfl, rfl⟩ := hk
  exact VariableGroup.mem_exportKeys.2
    ⟨trade, ht, _, ho, _, hd, _, hy, hactive, timeslice, hl, rfl⟩

theorem fitsIn_routeCapacityRule : (routeCapacityRule : ConstraintRule R).FitsIn ctx := by
  refine yields_perRouteYear hc fun trade ht origin _ destination _ year _ h => ?_
  have hs := hc.shaped.trade trade ht
  refine (hc.yields_grossTrade ht).bind fun gross hgross => ?_
  refine (Tensor.yields_lookup hs.loss rfl).bind fun loss _ => ?_
  refine (Tensor.yields_lookup hs.capacityActivityRatio rfl).bind fun ratio _ => ?_
  refine .each fun timeslice hl => ?_
  refine (hc.yields_term (has_exports hc h hl)).bind fun arriving harriving => ?_
  exact hc.yields_yearSplit.bind fun split _ =>
    yields_pure (fits_of rfl ((over_ofTerms harriving).addScaled hgross _))

theorem fitsIn_newRouteRule : (newRouteRule : ConstraintRule R).FitsIn ctx := by
  refine yields_perRouteYear hc fun trade ht origin _ destination _ year _ h => ?_
  refine (Tensor.yields_lookup? (hc.shaped.trade trade ht).additionalMax rfl).bind
    fun bound _ => ?_
  cases bound with
  | none => exact yields_pure (List.forall_mem_nil _)
  | some bound =>
    exact (hc.yields_term h).bind fun added hadded =>
      yields_pure (List.forall_mem_singleton.2 (fits_of rfl (over_ofTerms hadded)))

end ConstraintRule

end EnergyPlan
