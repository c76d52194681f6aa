/-
# Quantities are over the variables of a model

In the context of a model that was built and whose sets hold all it refers to, every
quantity is reckoned without a note, and every variable in it is one of the model's: no
tensor is asked under a key that does not fit, and no variable is named that the model
does not have. What a quantity needs for it are only labels of the sets and entities of
the model.

Key definitions: `Context.Sound`, `Context.Has`, `Context.Known`.
Key theorems: `Sound.yields_term`, `Sound.yields_has`, `Sound.yields_grossCapacity`,
`Sound.yields_production`, `Sound.yields_netTrade`, `Sound.yields_annualEmissions`.
-/
import EnergyPlan.Proofs.Unknowns

namespace EnergyPlan

open Noted LinearExpression

namespace Context

variable {R : Type} {ctx : Context R}

/-- The level, the charge and the discharge of a storage have the same keys. -/
theorem mem_storageKeys {region timeslice year : String} (hr : region ∈ ctx.sets.regions)
    (hy : year ∈ ctx.sets.years) (hl : timeslice ∈ ctx.sets.timeslices) {storage : Storage R}
    (hs : storage ∈ ctx.model.storage) : [region, storage.id, timeslice, year] ∈
      VariableGroup.storageKeys ctx.model ctx.sets :=
  VariableGroup.mem_storageKeys.2 ⟨region, hr, storage, hs, year, hy, timeslice, hl, rfl⟩

variable [Zero R] [LT R] [DecidableLT R]

/-- The model has a variable of a group under a key. -/
def Has (ctx : Context R) (group : VariableGroup) (key : Key) : Prop :=
  key ∈ (group.keys ctx.model ctx.sets).value

/-- A variable is one of the model's. -/
def Known (ctx : Context R) (v : VariableRef) : Prop :=
  ∃ group : VariableGroup, v.family = group.name ∧ ctx.Has group v.key

section

variable {region year : String} (hr : region ∈ ctx.sets.regions) (hy : year ∈ ctx.sets.years)

include hr hy

theorem has_newCapacity {technology : Technology R} (ht : technology ∈ ctx.model.technologies) :
    ctx.Has .newCapacity [region, technology.id, year] :=
  VariableGroup.mem_technologyKeys.2 ⟨region, hr, technology, ht, year, hy, rfl, rfl⟩

theorem has_newStorage {storage : Storage R} (hs : storage ∈ ctx.model.storage) :
    ctx.Has .newStorage [region, storage.id, year] :=
  VariableGroup.mem_newStorageKeys.2 ⟨region, hr, storage, hs, year, hy, rfl⟩

theorem has_activity {timeslice : String} (hl : timeslice ∈ ctx.sets.timeslices)
    {technology : Technology R} (ht : technology ∈ ctx.model.technologies)
    {mode : OperatingMode R} (hm : mode ∈ technology.modes) :
    ctx.Has .activity [region, timeslice, technology.id, mode.id, year] :=
  VariableGroup.mem_activityKeys.2
    ⟨region, hr, technology, ht, year, hy, timeslice, hl, mode, hm, rfl⟩

end

variable [One R]

/-- The context of a model that was built, with the variables of the model. -/
structure Sound (ctx : Context R) : Prop where
  shaped : ctx.model.Shaped
  distinct : ctx.model.DistinctIds
  hold : ctx.sets.Hold ctx.model
  unknowns : ctx.unknowns = (variableTable ctx.model ctx.sets).value

namespace Sound

variable (hc : ctx.Sound)

include hc

/-! ### Asking for variables -/

theorem yields_family (group : VariableGroup) :
    (ctx.family group).Yields (· = (group.family ctx.model ctx.sets).value) := by
  have h : ctx.unknowns[group.name]? = some (group.family ctx.model ctx.sets).value := by
    rw [hc.unknowns]
    exact VariableGroup.getElem?_variableTable group
  constructor
  · rw [family, if_pos]
    rw [Std.ExtTreeMap.contains_eq_isSome_getElem?, h]
    rfl
  · rw [family, h]
    rfl

theorem length_key {group : VariableGroup} {key : Key} (h : ctx.Has group key) :
    key.length = group.dimensions.length :=
  (VariableGroup.yields_keys hc.shaped ctx.sets group).2 key h

theorem yields_ref {group : VariableGroup} {key : Key} (h : ctx.Has group key) :
    (ctx.ref group key).Yields (· = ⟨group.name, key⟩) := by
  apply (hc.yields_family group).bind
  rintro family rfl
  have hm : (group.family ctx.model ctx.sets).value.entries.contains key = true :=
    Std.ExtTreeMap.contains_iff_mem.2 (VariableGroup.mem_entries_family.2 h)
  constructor
  · rw [VariableFamily.ref, VariableFamily.misfit, VariableGroup.dimensions_family,
      if_pos (hc.length_key h), if_pos hm]
    rfl
  · rw [VariableFamily.ref, VariableGroup.name_family]

/-- A multiple of a variable that there is is reckoned without a note. -/
theorem yields_term {group : VariableGroup} {key : Key} (h : ctx.Has group key) {c : R} :
    (ctx.term group key c).Yields (TermsOver ctx.Known) := by
  apply (hc.yields_ref h).bind
  rintro v rfl
  exact yields_pure (List.forall_mem_singleton.2 ⟨group, rfl, h⟩)

theorem value_ref (group : VariableGroup) (key : Key) :
    (ctx.ref group key).value = ⟨group.name, key⟩ := by
  have hfamily := (hc.yields_family group).2
  show VariableRef.mk (ctx.family group).value.name key = _
  rw [hfamily, VariableGroup.name_family]

/-- A multiple of a variable is one term, whether or not there is the variable. -/
theorem value_term (group : VariableGroup) (key : Key) (c : R) :
    (ctx.term group key c).value = [(⟨group.name, key⟩, c)] := by
  show [((ctx.ref group key).value, c)] = _
  rw [hc.value_ref]

/-- Asking for a variable under a key that fits tells whether there is one. -/
theorem yields_has {group : VariableGroup} {key : Key}
    (hl : key.length = group.dimensions.length) :
    (ctx.has group key).Yields fun b => b = true ↔ ctx.Has group key := by
  apply (hc.yields_family group).bind
  rintro family rfl
  constructor
  · rw [VariableFamily.has, VariableFamily.misfit, VariableGroup.dimensions_family, if_pos hl]
  · exact Std.ExtTreeMap.contains_iff_mem.trans VariableGroup.mem_entries_family

theorem yields_yearSplit {timeslice year : String} :
    (ctx.yearSplit timeslice year).Yields fun _ => True :=
  (Tensor.yields_lookup hc.shaped.yearSplit rfl).mono fun _ _ => trivial

/-! ### Capacity and activity -/

section

variable [Add R] [BEq R] {region year : String} (hr : region ∈ ctx.sets.regions)

include hr

theorem yields_grossCapacity {technology : Technology R}
    (ht : technology ∈ ctx.model.technologies) :
    (ctx.grossCapacity region technology year).Yields (Over ctx.Known) := by
  have hs := hc.shaped.technologies technology ht
  refine (Tensor.yields_lookup hs.operatingLife rfl).bind fun life _ => ?_
  refine (Tensor.yields_lookup hs.residualCapacity rfl).bind fun residual _ => ?_
  refine (Yields.gather fun built hb => ?_).bind
    fun terms hterms => yields_pure ((over_ofConstant residual).addTerms hterms)
  exact hc.yields_term (has_newCapacity hr (List.mem_filter.1 hb).1 ht)

theorem yields_grossStorage {storage : Storage R} (ho : storage ∈ ctx.model.storage) :
    (ctx.grossStorage region storage year).Yields (Over ctx.Known) := by
  have hs := hc.shaped.storage storage ho
  refine (Tensor.yields_lookup hs.operatingLife rfl).bind fun life _ => ?_
  refine (Tensor.yields_lookup hs.residualCapacity rfl).bind fun residual _ => ?_
  refine (Yields.gather fun built hb => ?_).bind
    fun terms hterms => yields_pure ((over_ofConstant residual).addTerms hterms)
  exact hc.yields_term (has_newStorage hr (List.mem_filter.1 hb).1 ho)

omit hr in
theorem yields_grossTrade {origin destination : String} {trade : Trade R}
    (ht : trade ∈ ctx.model.trade) :
    (ctx.grossTrade origin destination trade year).Yields (Over ctx.Known) := by
  have hs := hc.shaped.trade trade ht
  refine (Tensor.yields_lookup hs.residualCapacity rfl).bind fun residual _ => ?_
  refine (Yields.gather fun built _ => ?_).bind
    fun terms hterms => yields_pure ((over_ofConstant residual).addTerms hterms)
  refine (hc.yields_has rfl).bind fun there hthere => .ite (fun h => ?_)
    fun _ => yields_pure (List.forall_mem_nil _)
  refine (Tensor.yields_lookup hs.operatingLife rfl).bind fun life _ => .ite (fun _ => ?_)
    fun _ => yields_pure (List.forall_mem_nil _)
  exact hc.yields_term (hthere.1 h)

variable (hy : year ∈ ctx.sets.years) {technology : Technology R}
  (ht : technology ∈ ctx.model.technologies)

include hy ht

theorem yields_modeActivity {mode : OperatingMode R} (hm : mode ∈ technology.modes) :
    (ctx.modeActivity region technology mode year).Yields (Over ctx.Known) := by
  refine (Yields.gather fun timeslice hl => ?_).map fun terms hterms => over_ofTerms hterms
  exact hc.yields_yearSplit.bind fun _ _ => hc.yields_term (has_activity hr hy hl ht hm)

theorem yields_annualActivity [Mul R] :
    (ctx.annualActivity region technology year).Yields (Over ctx.Known) := by
  refine (Yields.each fun mode hm => hc.yields_modeActivity hr hy ht hm).bind
    fun activities ha => yields_pure (over_sum fun p hp => ?_)
  obtain ⟨e, he, rfl⟩ := List.mem_map.1 hp
  exact ha e he

variable {timeslice : String} (hl : timeslice ∈ ctx.sets.timeslices)

include hl

theorem yields_totalRate :
    (ctx.totalRate region timeslice technology year).Yields (Over ctx.Known) := by
  refine (Yields.gather fun mode hm => ?_).map fun terms hterms => over_ofTerms hterms
  exact hc.yields_term (has_activity hr hy hl ht hm)

theorem yields_commodityRate {flow : Flow} {commodity : String} :
    (ctx.commodityRate flow region timeslice technology commodity year).Yields
      (Over ctx.Known) := by
  refine (Yields.gather fun mode hm => ?_).map fun terms hterms => over_ofTerms hterms
  have hs := (hc.shaped.technologies technology ht).modes mode hm
  refine Yields.bind (P := fun _ => True) ?_ fun ratio _ => .ite
    (fun _ => yields_pure (List.forall_mem_nil _)) fun _ => ?_
  · cases flow
    · exact (Tensor.yields_lookup hs.inputRatio rfl).mono fun _ _ => trivial
    · exact (Tensor.yields_lookup hs.outputRatio rfl).mono fun _ _ => trivial
  · exact hc.yields_term (has_activity hr hy hl ht hm)

end

/-! ### Production, use, trade and emissions -/

section

variable [Add R] [Mul R] [BEq R] {region year : String} (hr : region ∈ ctx.sets.regions)
  (hy : year ∈ ctx.sets.years)

include hr hy

theorem yields_annualEmissions {impact : String} :
    (ctx.annualEmissions region impact year).Yields (Over ctx.Known) := by
  refine Yields.bind (P := fun parts => ∀ p ∈ parts, p.1.Over ctx.Known) ?_
    fun parts hparts => yields_pure (over_sum hparts)
  refine .gather fun technology ht => .gather fun mode hm => ?_
  have hs := (hc.shaped.technologies technology ht).modes mode hm
  refine (Tensor.yields_lookup hs.emissionRatio rfl).bind fun ratio _ => .ite
    (fun _ => yields_pure (List.forall_mem_nil _)) fun _ => ?_
  exact (hc.yields_modeActivity hr hy ht hm).bind
    fun activity ha => yields_pure (List.forall_mem_singleton.2 ha)

variable {timeslice commodity : String} (hl : timeslice ∈ ctx.sets.timeslices)

include hl

theorem yields_totalCommodityRate {flow : Flow} :
    (ctx.totalCommodityRate flow region timeslice commodity year).Yields (Over ctx.Known) := by
  refine (Yields.each fun technology ht => hc.yields_commodityRate hr hy ht hl).bind
    fun rates hrates => yields_pure (over_sum fun p hp => ?_)
  obtain ⟨e, he, rfl⟩ := List.mem_map.1 hp
  exact hrates e he

theorem yields_production :
    (ctx.production region timeslice commodity year).Yields (Over ctx.Known) :=
  (hc.yields_totalCommodityRate hr hy hl).bind fun _ hrate =>
    hc.yields_yearSplit.bind fun split _ => yields_pure (hrate.scaled split)

theorem yields_use : (ctx.use region timeslice commodity year).Yields (Over ctx.Known) :=
  (hc.yields_totalCommodityRate hr hy hl).bind fun _ hrate =>
    hc.yields_yearSplit.bind fun split _ => yields_pure (hrate.scaled split)

omit [Mul R] hr hy hl in
theorem yields_netTrade [Sub R] [Div R] [Neg R] :
    (ctx.netTrade region timeslice commodity year).Yields (Over ctx.Known) := by
  unfold netTrade
  cases htrade : ctx.tradeFor commodity with
  | none => exact yields_pure over_zero
  | some trade =>
    have hs := hc.shaped.trade trade (List.mem_of_find?_eq_some htrade)
    refine (Yields.gather (P := fun t => ctx.Known t.1) fun other _ => ?_).bind
      fun terms hterms => yields_pure (over_ofTerms hterms)
    have received : ∀ sent : List (VariableRef × R), TermsOver ctx.Known sent →
        (do
          let received ← if ← ctx.has .exports [other, region, timeslice, commodity, year] then
              ctx.term .exports [other, region, timeslice, commodity, year] (-1)
            else pure []
          return sent ++ received : Lookup (List (VariableRef × R))).Yields
            (TermsOver ctx.Known) := by
      intro sent hsent
      refine (hc.yields_has rfl).bind fun there hthere => .ite (fun h => ?_) fun _ => ?_
      · exact (hc.yields_term (hthere.1 h)).bind fun received hr =>
          yields_pure (List.forall_mem_append.2 ⟨hsent, hr⟩)
      · exact yields_pure (List.forall_mem_append.2 ⟨hsent, List.forall_mem_nil _⟩)
    refine (hc.yields_has rfl).bind fun there hthere => .ite (fun h => ?_)
      fun _ => received [] (List.forall_mem_nil _)
    exact (Tensor.yields_lookup hs.loss rfl).bind fun _ _ =>
      (hc.yields_term (hthere.1 h)).bind received

end

end Sound

end Context

end EnergyPlan
