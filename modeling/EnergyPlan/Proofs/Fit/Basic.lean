/-
# Constraints that fit a family

A constraint fits if its index has one label for each dimension of its family and its
variables are those of the model; a rule fits if it works without a note and all its
constraints fit. What a loop over the sets and entities yields is what each of its rows
yields.

Key definitions: `Context.Fits`, `ConstraintRule.FitsIn`.
Key theorems: `fits_of`, `yields_perTechnologyYear`, `yields_perRouteYear`.
-/
import EnergyPlan.Proofs.Quantities

namespace EnergyPlan

open Noted LinearExpression Context

variable {R : Type} {ctx : Context R}

/-! ### Loops over the sets and entities -/

section

variable {P : Constraint R → Prop}

theorem yields_perTechnologyYear
    {rows : String → Technology R → String → Lookup (List (Constraint R))}
    (h : ∀ region ∈ ctx.sets.regions, ∀ technology ∈ ctx.model.technologies,
      ∀ year ∈ ctx.sets.years, (rows region technology year).Yields fun cs => ∀ c ∈ cs, P c) :
    (ctx.perTechnologyYear rows).Yields fun cs => ∀ c ∈ cs, P c :=
  .gather fun region hr => .gather fun technology ht => .gather fun year hy =>
    h region hr technology ht year hy

theorem yields_perLaterYear
    {rows : String → Technology R → String → Int → Lookup (List (Constraint R))}
    (h : ∀ region ∈ ctx.sets.regions, ∀ technology ∈ ctx.model.technologies,
      ∀ year ∈ ctx.sets.years, ∀ previous, ctx.previousYear year = some previous →
        (rows region technology year previous).Yields fun cs => ∀ c ∈ cs, P c) :
    (perLaterYear ctx rows).Yields fun cs => ∀ c ∈ cs, P c := by
  refine yields_perTechnologyYear fun region hr technology ht year hy => ?_
  cases hp : ctx.previousYear year with
  | none => exact yields_pure (List.forall_mem_nil _)
  | some previous => exact h region hr technology ht year hy previous hp

theorem yields_perStorageYear
    {rows : String → Storage R → String → Lookup (List (Constraint R))}
    (h : ∀ region ∈ ctx.sets.regions, ∀ storage ∈ ctx.model.storage,
      ∀ year ∈ ctx.sets.years, (rows region storage year).Yields fun cs => ∀ c ∈ cs, P c) :
    (perStorageYear ctx rows).Yields fun cs => ∀ c ∈ cs, P c :=
  .gather fun region hr => .gather fun storage hs => .gather fun year hy =>
    h region hr storage hs year hy

theorem yields_perCommodityYear
    {rows : String → Commodity R → String → Lookup (List (Constraint R))}
    (h : ∀ region ∈ ctx.sets.regions, ∀ commodity ∈ ctx.model.commodities,
      ∀ year ∈ ctx.sets.years, (rows region commodity year).Yields fun cs => ∀ c ∈ cs, P c) :
    (perCommodityYear ctx rows).Yields fun cs => ∀ c ∈ cs, P c :=
  .gather fun region hr => .gather fun commodity hm => .gather fun year hy =>
    h region hr commodity hm year hy

end

/-! ### Constraints that fit -/

variable [Zero R] [LT R] [DecidableLT R]

/-- A constraint has an index over some dimensions and variables of the model. -/
def Context.Fits (ctx : Context R) (dimensions : List Dimension) (c : Constraint R) : Prop :=
  c.index.length = dimensions.length ∧ c.lhs.Over ctx.Known

/-- A rule works without a note, and its constraints fit. -/
def ConstraintRule.FitsIn (rule : ConstraintRule R) (ctx : Context R) : Prop :=
  (rule.constraints ctx).Yields fun cs => ∀ c ∈ cs, ctx.Fits rule.dimensions c

theorem fits_of [Add R] [Sub R] [BEq R] {dimensions : List Dimension} {index : Key}
    (hl : index.length = dimensions.length) {e : LinearExpression R} (h : e.Over ctx.Known)
    {relation : Relation} {rhs : R} : ctx.Fits dimensions (.of index e relation rhs) :=
  ⟨hl, Constraint.over_of h _ _ _⟩

theorem fits_boundBy [Add R] [Sub R] [BEq R] {dimensions : List Dimension} {index : Key}
    (hl : index.length = dimensions.length) {e : LinearExpression R} (h : e.Over ctx.Known)
    {relation : Relation} {bound : Option R} :
    ∀ c ∈ boundBy index e relation bound, ctx.Fits dimensions c := by
  cases bound with
  | none => exact List.forall_mem_nil _
  | some rhs => exact List.forall_mem_singleton.2 (fits_of hl h)

theorem yields_perRouteYear [One R] (hc : ctx.Sound) {P : Constraint R → Prop}
    {rows : Trade R → String → String → String → Lookup (List (Constraint R))}
    (h : ∀ trade ∈ ctx.model.trade, ∀ origin ∈ ctx.sets.regions,
      ∀ destination ∈ ctx.sets.regions, ∀ year ∈ ctx.sets.years,
        ctx.Has .newTrade [origin, destination, trade.commodity, year] →
          (rows trade origin destination year).Yields fun cs => ∀ c ∈ cs, P c) :
    (perRouteYear ctx rows).Yields fun cs => ∀ c ∈ cs, P c := by
  refine .gather fun trade ht => .gather fun origin ho => .gather fun destination hd =>
    .gather fun year hy => ?_
  refine (hc.yields_has rfl).bind fun there hthere => .ite (fun hh => ?_)
    fun _ => yields_pure (List.forall_mem_nil _)
  exact h trade ht origin ho destination hd year hy (hthere.1 hh)

end EnergyPlan
