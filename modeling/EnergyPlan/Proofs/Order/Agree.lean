/-
# Lists of constraints that make the same family

Two pieces of work agree if the constraints that they list make the same family, whatever
it had before. Blocks of constraints with no index in common can be put into a family in
either order; so a loop over entities agrees with the loop over the same entities in another
order if each row lists the same constraints and an index tells which row it is from. Inside
a row the order counts, for there two constraints can have one index, as where a timeslice is
listed twice.

Key definitions: `Agree`, `SameRow`, `ConstraintRule.Unordered`.
Key theorems: `foldl_insert_blocks_comm`, `agree_gather`, `agree_perTechnologyYear`,
`agree_perRouteYear`.
-/
import EnergyPlan.Proofs.Cover.Basic
import EnergyPlan.Proofs.Order.Quantities

namespace EnergyPlan

open Noted

variable {R : Type}

namespace ConstraintFamily

theorem insert_insert_comm (family : ConstraintFamily R) {c d : Constraint R}
    (h : c.index ≠ d.index) : (family.insert c).insert d = (family.insert d).insert c :=
  congrArg (ConstraintFamily.mk _ _) (insert_comm family.entries fun he => absurd he h)

/-- A constraint can be put into a family before or after a block that is apart from it. -/
theorem foldl_insert_comm (family : ConstraintFamily R) {c : Constraint R}
    {ds : List (Constraint R)} (h : ∀ d ∈ ds, c.index ≠ d.index) :
    ds.foldl insert (family.insert c) = (ds.foldl insert family).insert c := by
  induction ds generalizing family with
  | nil => rfl
  | cons d rest ih =>
    rw [List.foldl_cons, List.foldl_cons, insert_insert_comm family (h d List.mem_cons_self)]
    exact ih _ fun d' hd => h d' (List.mem_cons_of_mem d hd)

/-- Two blocks with no index in common can be put into a family in either order. -/
theorem foldl_insert_blocks_comm (family : ConstraintFamily R) {cs ds : List (Constraint R)}
    (h : ∀ c ∈ cs, ∀ d ∈ ds, c.index ≠ d.index) :
    ds.foldl insert (cs.foldl insert family) = cs.foldl insert (ds.foldl insert family) := by
  induction cs generalizing family with
  | nil => rfl
  | cons c rest ih =>
    have hrest : ∀ c' ∈ rest, ∀ d ∈ ds, c'.index ≠ d.index :=
      fun c' hc => h c' (List.mem_cons_of_mem c hc)
    rw [List.foldl_cons, List.foldl_cons, ih (family.insert c) hrest,
      foldl_insert_comm family (h c List.mem_cons_self)]

end ConstraintFamily

/-! ### Rows -/

/-- Two rows list the same constraints, and their indexes have a label at a position. -/
structure SameRow (n : Nat) (label : String) (r s : Lookup (List (Constraint R))) : Prop where
  value : r.value = s.value
  index : ∀ c ∈ r.value, labelAt n c.index = label

namespace SameRow

variable {n : Nat} {label : String}

theorem none : SameRow n label (pure [] : Lookup (List (Constraint R))) (pure []) :=
  ⟨rfl, List.forall_mem_nil _⟩

theorem one {c d : Constraint R} (h : c = d) (hl : labelAt n c.index = label) :
    SameRow n label (pure [c]) (pure [d]) :=
  ⟨congrArg (fun c => [c]) h, List.forall_mem_singleton.2 hl⟩

/-- Only the value of a step plays a part in what the next one lists. -/
theorem step {α β : Type} {a : Lookup α} {b : Lookup β} {f : α → Lookup (List (Constraint R))}
    {g : β → Lookup (List (Constraint R))} (h : SameRow n label (f a.value) (g b.value)) :
    SameRow n label (a >>= f) (b >>= g) :=
  ⟨h.value, h.index⟩

theorem bind {α : Type} {a b : Lookup α} {f g : α → Lookup (List (Constraint R))}
    (hab : a.value = b.value) (h : ∀ x, SameRow n label (f x) (g x)) :
    SameRow n label (a >>= f) (b >>= g) := by
  apply step
  rw [hab]
  exact h b.value

/-- What depends on a value that may be missing lists nothing where it is missing. -/
theorem option {α : Type} {a b : Lookup (Option α)}
    {f g : Option α → Lookup (List (Constraint R))} (hab : a.value = b.value)
    (hf : f Option.none = pure []) (hg : g Option.none = pure [])
    (h : ∀ x, SameRow n label (f (some x)) (g (some x))) :
    SameRow n label (a >>= f) (b >>= g) := by
  refine bind hab fun x => ?_
  cases x with
  | none =>
    rw [hf, hg]
    exact .none
  | some x => exact h x

theorem ite {c : Prop} [Decidable c] {r r' s s' : Lookup (List (Constraint R))}
    (hr : SameRow n label r r') (hs : SameRow n label s s') :
    SameRow n label (if c then r else s) (if c then r' else s') := by
  by_cases h : c
  · rw [if_pos h, if_pos h]
    exact hr
  · rw [if_neg h, if_neg h]
    exact hs

theorem gather {α : Type} {f g : α → Lookup (List (Constraint R))} {as : List α}
    (h : ∀ a, SameRow n label (f a) (g a)) :
    SameRow n label (Noted.gather f as) (Noted.gather g as) where
  value := value_gather_congr as fun a => (h a).value
  index c hc := by
    obtain ⟨a, -, hc⟩ := mem_value_gather.1 hc
    exact (h a).index c hc

theorem each {α : Type} {f g : α → Lookup (Constraint R)} {as : List α}
    (h : ∀ a, (f a).value = (g a).value) (hl : ∀ a, labelAt n (f a).value.index = label) :
    SameRow n label (Noted.each f as) (Noted.each g as) where
  value := value_each_congr as h
  index c hc := by
    obtain ⟨a, -, rfl⟩ := mem_value_each.1 hc
    exact hl a

end SameRow

/-! ### Work that agrees -/

/-- The constraints that two pieces of work list make the same family. -/
def Agree (r s : Lookup (List (Constraint R))) : Prop :=
  ∀ family : ConstraintFamily R,
    r.value.foldl ConstraintFamily.insert family = s.value.foldl ConstraintFamily.insert family

theorem agree_of_eq {r s : Lookup (List (Constraint R))} (h : r.value = s.value) : Agree r s :=
  fun family => by rw [h]

/-- A rule makes the same family in a context as for another model there. -/
def ConstraintRule.Unordered (rule : ConstraintRule R) (ctx : Context R)
    (other : EnergyModel R) : Prop :=
  Agree (rule.constraints ctx) (rule.constraints (ctx.withModel other))

/-- A loop agrees with another one over the same list if each row does. -/
theorem agree_gather_left {α : Type} {f g : α → Lookup (List (Constraint R))} {as : List α}
    (h : ∀ a ∈ as, Agree (f a) (g a)) : Agree (gather f as) (gather g as) := by
  intro family
  rw [value_gather, value_gather]
  induction as generalizing family with
  | nil => rfl
  | cons a rest ih =>
    rw [List.flatMap_cons, List.flatMap_cons, List.foldl_append, List.foldl_append,
      h a List.mem_cons_self, ih fun b hb => h b (List.mem_cons_of_mem a hb)]

/-- A loop can go through its list in any order, if an index tells which row it is from. -/
theorem agree_gather_right {α : Type} {f : α → Lookup (List (Constraint R))} {as bs : List α}
    (hp : as.Perm bs) {label : α → String} (n : Nat) (hn : (as.map label).Nodup)
    (h : ∀ a ∈ as, ∀ c ∈ (f a).value, labelAt n c.index = label a) :
    Agree (gather f as) (gather f bs) := by
  intro family
  rw [value_gather, value_gather, List.foldl_flatMap, List.foldl_flatMap]
  refine hp.foldl_eq' (fun a ha b hb family => ?_) family
  by_cases hab : label a = label b
  · rw [List.inj_on_of_nodup_map hn ha hb hab]
  · refine ConstraintFamily.foldl_insert_blocks_comm family fun c hc d hd he => hab ?_
    calc label a = labelAt n c.index := (h a ha c hc).symm
      _ = labelAt n d.index := by rw [he]
      _ = label b := h b hb d hd

/-- A loop agrees with the one over a reordered list, if the rows are the same and an index
tells which row it is from. -/
theorem agree_gather {α β : Type} {r : α → β → Prop} {as : List α} {bs : List β}
    (hr : ReorderedBy r as bs) {label : α → String} (n : Nat) (hn : (as.map label).Nodup)
    {f : α → Lookup (List (Constraint R))} {g : β → Lookup (List (Constraint R))}
    (h : ∀ a b, r a b → SameRow n (label a) (f a) (g b)) :
    Agree (gather f as) (gather g bs) := by
  have hindex : ∀ a ∈ as, ∀ c ∈ (f a).value, labelAt n c.index = label a := by
    intro a ha
    obtain ⟨b, -, hab⟩ := hr.symm.exists_mem ha
    exact (h a b hab).index
  obtain ⟨cs, hperm, hcs⟩ := hr
  have hrows : (gather f cs).value = (gather g bs).value := by
    rw [value_gather, value_gather]
    clear hperm
    induction hcs with
    | nil => rfl
    | cons hab _ ih => rw [List.flatMap_cons, List.flatMap_cons, (h _ _ hab).value, ih]
  intro family
  rw [agree_gather_right hperm n hn hindex family, hrows]

/-! ### Loops over the sets and entities -/

section

variable {ctx : Context R} {other : EnergyModel R} (h : ctx.model.Reordered other)

include h

theorem agree_perTechnology (hn : (ctx.model.technologies.map (·.id)).Nodup) (n : Nat)
    {rows rows' : String → Technology R → Lookup (List (Constraint R))}
    (hrows : ∀ region technology technology', technology.Reordered technology' →
      SameRow n technology.id (rows region technology) (rows' region technology')) :
    Agree (ctx.perTechnology rows) ((ctx.withModel other).perTechnology rows') :=
  agree_gather_left fun region _ => agree_gather h.technologies n hn (hrows region)

theorem agree_perTechnologyYear (hn : (ctx.model.technologies.map (·.id)).Nodup) (n : Nat)
    {rows rows' : String → Technology R → String → Lookup (List (Constraint R))}
    (hrows : ∀ region technology technology' year, technology.Reordered technology' →
      SameRow n technology.id (rows region technology year) (rows' region technology' year)) :
    Agree (ctx.perTechnologyYear rows) ((ctx.withModel other).perTechnologyYear rows') :=
  agree_perTechnology h hn n fun region technology technology' ht =>
    .gather fun year => hrows region technology technology' year ht

theorem agree_perLaterYear (hn : (ctx.model.technologies.map (·.id)).Nodup) (n : Nat)
    {rows rows' : String → Technology R → String → Int → Lookup (List (Constraint R))}
    (hrows : ∀ region technology technology' year previous, technology.Reordered technology' →
      SameRow n technology.id (rows region technology year previous)
        (rows' region technology' year previous)) :
    Agree (perLaterYear ctx rows) (perLaterYear (ctx.withModel other) rows') := by
  refine agree_perTechnologyYear h hn n fun region technology technology' year ht => ?_
  rw [h.previousYear_eq]
  cases ctx.previousYear year with
  | none => exact .none
  | some previous => exact hrows region technology technology' year previous ht

theorem agree_perStorageYear (hn : (ctx.model.storage.map (·.id)).Nodup)
    {rows rows' : String → Storage R → String → Lookup (List (Constraint R))}
    (hrows : ∀ region storage year,
      SameRow 1 storage.id (rows region storage year) (rows' region storage year)) :
    Agree (perStorageYear ctx rows) (perStorageYear (ctx.withModel other) rows') :=
  agree_gather_left fun region _ => agree_gather (.of_perm h.storage) 1 hn fun storage _ he =>
    he ▸ .gather fun year => hrows region storage year

theorem agree_perCommodityYear (hn : (ctx.model.commodities.map (·.id)).Nodup) (n : Nat)
    {rows rows' : String → Commodity R → String → Lookup (List (Constraint R))}
    (hrows : ∀ region commodity year,
      SameRow n commodity.id (rows region commodity year) (rows' region commodity year)) :
    Agree (perCommodityYear ctx rows) (perCommodityYear (ctx.withModel other) rows') :=
  agree_gather_left fun region _ => agree_gather (.of_perm h.commodities) n hn
    fun commodity _ he => he ▸ .gather fun year => hrows region commodity year

theorem agree_perRouteYear (hn : (ctx.model.trade.map (·.commodity)).Nodup) (n : Nat)
    {rows rows' : Trade R → String → String → String → Lookup (List (Constraint R))}
    (hrows : ∀ trade origin destination year,
      SameRow n trade.commodity (rows trade origin destination year)
        (rows' trade origin destination year)) :
    Agree (perRouteYear ctx rows) (perRouteYear (ctx.withModel other) rows') := by
  refine agree_gather (.of_perm h.trade) n hn fun trade trade' he => ?_
  subst he
  exact .gather fun origin => .gather fun destination => .gather fun year =>
    .bind rfl fun there => .ite (hrows trade origin destination year) .none

end

end EnergyPlan
