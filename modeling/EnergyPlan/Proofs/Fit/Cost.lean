/-
# The cost of a model is over its variables

Every part of the cost is reckoned without a note and has no variables but those of the
model, and so has the objective.

Key theorems: `yields_capitalPart`, `yields_tradeParts`, `yields_objective`.
-/
import EnergyPlan.Proofs.Quantities

set_option linter.unusedSectionVars false

namespace EnergyPlan

open Noted LinearExpression Context

variable {R : Type} [Zero R] [One R] [Add R] [Sub R] [Mul R] [Div R] [Neg R] [BEq R] [LT R]
  [DecidableLT R] [Scalar R] {ctx : Context R} (hc : ctx.Sound)

/-- Every part of a list of parts of the cost is over the variables of the model. -/
abbrev Context.PartsKnown (ctx : Context R) (parts : List (CostPart R)) : Prop :=
  ∀ p ∈ parts, p.1.Over ctx.Known

include hc

namespace CostFrame

theorem yields_of {region year : String} :
    (CostFrame.of ctx region year).Yields fun frame => frame.region = region ∧
      frame.year = year :=
  (Tensor.yields_lookup hc.shaped.fields.discountRate rfl).bind fun _ _ =>
    (Tensor.yields_lookup hc.shaped.fields.depreciation rfl).bind fun _ _ =>
      yields_pure ⟨rfl, rfl⟩

theorem yields_variablePart {group : VariableGroup} {key : Key} (h : ctx.Has group key)
    {cost : R} : (variablePart ctx group key cost).Yields ctx.PartsKnown :=
  (hc.yields_term h).bind fun _ hterms =>
    yields_pure (List.forall_mem_singleton.2 (over_ofTerms hterms))

variable {frame : CostFrame R} (hr : frame.region ∈ ctx.sets.regions)
  (hy : frame.year ∈ ctx.sets.years)

include hr hy

section

variable {technology : Technology R} (ht : technology ∈ ctx.model.technologies)

include ht

theorem yields_capitalPart : (frame.capitalPart ctx technology).Yields ctx.PartsKnown := by
  have hs := hc.shaped.technologies technology ht
  refine (Tensor.yields_lookup hc.shaped.fields.costOfCapital rfl).bind fun ownRate _ => ?_
  refine (Tensor.yields_lookup hs.operatingLife rfl).bind fun life _ => ?_
  refine (Tensor.yields_lookup hs.capex rfl).bind fun capex _ => ?_
  exact yields_variablePart hc (has_newCapacity hr hy ht)

theorem yields_fixedPart : (frame.fixedPart ctx technology).Yields ctx.PartsKnown := by
  have hs := hc.shaped.technologies technology ht
  refine (Tensor.yields_lookup hs.opexFixed rfl).bind fun cost _ => .ite
    (fun _ => yields_pure (List.forall_mem_nil _)) fun _ => ?_
  exact (hc.yields_grossCapacity hr ht).bind fun gross hgross =>
    yields_pure (List.forall_mem_singleton.2 hgross)

theorem yields_activityCost {mode : OperatingMode R} (hm : mode ∈ technology.modes) :
    (frame.activityCost ctx mode).Yields fun _ => True := by
  have hs := (hc.shaped.technologies technology ht).modes mode hm
  refine (Tensor.yields_lookup hs.opexVariable rfl).bind fun cost _ => ?_
  refine .foldlM trivial fun cost _ impact hi => ?_
  refine (Tensor.yields_lookup (hc.shaped.impacts impact hi).penalty rfl).bind fun _ _ => ?_
  exact (Tensor.yields_lookup hs.emissionRatio rfl).bind fun _ _ => yields_pure trivial

theorem yields_activityParts : (frame.activityParts ctx technology).Yields ctx.PartsKnown := by
  refine .gather fun mode hm => ?_
  refine (yields_activityCost hc hr hy ht hm).bind fun cost _ => .ite
    (fun _ => yields_pure (List.forall_mem_nil _)) fun _ => ?_
  exact (hc.yields_modeActivity hr hy ht hm).bind fun activity hactivity =>
    yields_pure (List.forall_mem_singleton.2 hactivity)

end

theorem yields_exogenousPart {impact : Impact R} (hi : impact ∈ ctx.model.impacts) :
    (frame.exogenousPart impact).Yields ctx.PartsKnown := by
  have hs := hc.shaped.impacts impact hi
  exact (Tensor.yields_lookup hs.penalty rfl).bind fun _ _ =>
    (Tensor.yields_lookup hs.exogenousAnnual rfl).bind fun _ _ =>
      yields_pure (List.forall_mem_singleton.2 (over_ofConstant _))

theorem yields_storagePart {storage : Storage R} (ho : storage ∈ ctx.model.storage) :
    (frame.storagePart ctx storage).Yields ctx.PartsKnown := by
  have hs := hc.shaped.storage storage ho
  refine (Tensor.yields_lookup hc.shaped.fields.costOfCapitalStorage rfl).bind fun _ _ => ?_
  refine (Tensor.yields_lookup hs.operatingLife rfl).bind fun life _ => ?_
  refine (Tensor.yields_lookup hs.capex rfl).bind fun capex _ => ?_
  exact yields_variablePart hc (has_newStorage hr hy ho)

theorem yields_tradeParts {trade : Trade R} (ht : trade ∈ ctx.model.trade) :
    (frame.tradeParts ctx trade).Yields ctx.PartsKnown := by
  have hs := hc.shaped.trade trade ht
  refine .gather fun other _ => (hc.yields_has rfl).bind fun there hthere => .ite (fun h => ?_)
    fun _ => yields_pure (List.forall_mem_nil _)
  refine (Tensor.yields_lookup hs.costOfCapital rfl).bind fun ownRate _ => ?_
  refine (Tensor.yields_lookup hs.operatingLife rfl).bind fun life _ => ?_
  refine (Tensor.yields_lookup hs.capex rfl).bind fun capex _ => ?_
  exact yields_variablePart hc (hthere.1 h)

theorem yields_parts : (frame.parts ctx).Yields ctx.PartsKnown := by
  refine Yields.bind (P := ctx.PartsKnown) (.gather fun technology ht => ?_)
    fun technologies htechnologies => ?_
  · refine (yields_capitalPart hc hr hy ht).bind fun capital hcapital => ?_
    refine (yields_fixedPart hc hr hy ht).bind fun fixed hfixed => ?_
    refine (yields_activityParts hc hr hy ht).bind fun activity hactivity => yields_pure ?_
    exact List.forall_mem_append.2
      ⟨List.forall_mem_append.2 ⟨hcapital, hfixed⟩, hactivity⟩
  · refine Yields.bind (P := ctx.PartsKnown)
      (.gather fun impact hi => yields_exogenousPart hc hr hy hi) fun impacts himpacts => ?_
    refine Yields.bind (P := ctx.PartsKnown)
      (.gather fun storage ho => yields_storagePart hc hr hy ho) fun storages hstorages => ?_
    refine Yields.bind (P := ctx.PartsKnown)
      (.gather fun trade ht => yields_tradeParts hc hr hy ht) fun trades htrades =>
      yields_pure ?_
    refine List.forall_mem_append.2 ⟨List.forall_mem_append.2 ⟨?_, hstorages⟩, htrades⟩
    exact List.forall_mem_append.2 ⟨htechnologies, himpacts⟩

end CostFrame

/-- The objective is reckoned without a note and is over the variables of the model. -/
theorem yields_objective : (objective ctx).Yields (Over ctx.Known) := by
  refine Yields.map (P := ctx.PartsKnown) ?_ fun parts hparts => over_sum hparts
  refine .gather fun region hr => .gather fun year hy => ?_
  apply (CostFrame.yields_of hc).bind
  rintro frame ⟨hregion, hyear⟩
  exact CostFrame.yields_parts hc (hregion ▸ hr) (hyear ▸ hy)

end EnergyPlan
