/-
# The levels of a storage form a chain

The slots of a model are its timeslices, year by year. In each slot one constraint ties the
level of a storage to its level in the slot before; for the first timeslice of a year that is
the last timeslice of the year before, and in the very first slot it is the initial level. An
assignment that satisfies all of them therefore ends with the initial level, all that was taken
up on the way, and less all that was given: what is between the ends cancels out.

Key definitions: `Slot`, `IndexSets.slots`, `precededBy`, `Constraint.Carries`,
`Problem.ChainsLevels`.
Key theorems: `withPrevious_slots`, `level_of_chain`, `value_levelRule`, `carries_levelConstraint`,
`compile_chains_levels`.
-/
import EnergyPlan.Proofs.Coefficients
import EnergyPlan.Proofs.Compiled

set_option linter.unusedSectionVars false

namespace EnergyPlan

open Noted LinearExpression Context Config

/-! ### Lists, each element with the one before it -/

section

variable {α β : Type}

/-- The elements of a list, each with the one before it; `first` is before all of them. -/
def precededBy (first : Option α) : List α → List (Option α × α)
  | [] => []
  | a :: rest => (first, a) :: precededBy (some a) rest

theorem zip_map_some (first : Option α) (items : List α) :
    (first :: items.map some).zip items = precededBy first items := by
  induction items generalizing first with
  | nil => rfl
  | cons a rest ih => exact congrArg ((first, a) :: ·) (ih (some a))

theorem withPrevious_eq (items : List α) : withPrevious items = precededBy none items :=
  zip_map_some none items

theorem getLast?_cons_or (a : α) (rest : List α) (first : Option α) :
    (a :: rest).getLast?.or first = rest.getLast?.or (some a) := by
  rw [List.getLast?_cons]
  cases rest.getLast? <;> rfl

/-- Before a second list is the last element of the first one. -/
theorem precededBy_append (first : Option α) (items items' : List α) :
    precededBy first (items ++ items') =
      precededBy first items ++ precededBy (items.getLast?.or first) items' := by
  induction items generalizing first with
  | nil => rfl
  | cons a rest ih =>
    rw [List.cons_append, precededBy, ih, getLast?_cons_or]
    rfl

theorem precededBy_map (f : α → β) (before : Option β) (first : Option α) (items : List α) :
    precededBy ((first.map f).or before) (items.map f) =
      (precededBy first items).map fun e => ((e.1.map f).or before, f e.2) := by
  induction items generalizing first with
  | nil => rfl
  | cons a rest ih => exact congrArg (((first.map f).or before, f a) :: ·) (ih (some a))

/-- Where each element stands for a row, before a row is the last element of the row before. -/
theorem precededBy_flatMap {f : α → List β} (first : Option α) {items : List α}
    (h : ∀ a ∈ items, f a ≠ []) :
    precededBy (first.bind fun a => (f a).getLast?) (items.flatMap f) =
      (precededBy first items).flatMap fun e =>
        precededBy (e.1.bind fun a => (f a).getLast?) (f e.2) := by
  induction items generalizing first with
  | nil => rfl
  | cons a rest ih =>
    have hlast : (f a).getLast?.or (first.bind fun a => (f a).getLast?) =
        (some a).bind fun a => (f a).getLast? := by
      rw [Option.bind_some, List.getLast?_eq_some_getLast (h a List.mem_cons_self),
        Option.some_or]
    have hrest := ih (some a) fun b hb => h b (List.mem_cons_of_mem a hb)
    rw [List.flatMap_cons, precededBy_append, hlast, hrest, precededBy, List.flatMap_cons]

/-- In a list without repetitions no element is before itself. -/
theorem ne_of_mem_precededBy {first : Option α} {items : List α} (hn : items.Nodup)
    (hfirst : ∀ a ∈ first, a ∉ items) {a b : α} (h : (some a, b) ∈ precededBy first items) :
    a ≠ b := by
  induction items generalizing first with
  | nil => cases h
  | cons c rest ih =>
    rw [List.nodup_cons] at hn
    rw [precededBy, List.mem_cons] at h
    rcases h with h | h
    · cases h
      rintro rfl
      exact hfirst a rfl List.mem_cons_self
    · refine ih hn.2 ?_ h
      rintro d ⟨⟩
      exact hn.1

/-- What each element of a row adds to the level before it is on top at the end. -/
theorem level_of_chain {R : Type} [AddCommMonoid R] (level gain : α → R) {initial : R}
    (first : Option α) {items : List α}
    (h : ∀ e ∈ precededBy first items,
      level e.2 = (e.1.map level).getD initial + gain e.2) :
    ((items.getLast?.or first).map level).getD initial =
      (first.map level).getD initial + (items.map gain).sum := by
  induction items generalizing first with
  | nil =>
    rw [List.map_nil, List.sum_nil, add_zero]
    rfl
  | cons a rest ih =>
    have hhere : level a = (first.map level).getD initial + gain a := h _ List.mem_cons_self
    have hrest := ih (some a) fun e he => h e (List.mem_cons_of_mem _ he)
    calc (((a :: rest).getLast?.or first).map level).getD initial
        = level a + (rest.map gain).sum := by rw [getLast?_cons_or, hrest]; rfl
      _ = (first.map level).getD initial + ((a :: rest).map gain).sum := by
          rw [hhere, List.map_cons, List.sum_cons, add_assoc]

end

/-! ### Slots -/

/-- A timeslice of a year. -/
structure Slot where
  timeslice : String
  year : String
deriving DecidableEq, Repr

namespace Slot

/-- The index of a storage in a slot. -/
def key (region storage : String) (slot : Slot) : Key :=
  [region, storage, slot.timeslice, slot.year]

theorem key_injective (region storage : String) : Function.Injective (key region storage) := by
  rintro ⟨timeslice, year⟩ ⟨timeslice', year'⟩ h
  simp only [key, List.cons.injEq, and_true, true_and] at h
  rw [h.1, h.2]

end Slot

namespace IndexSets

variable (sets : IndexSets)

/-- The slots in order of time: the timeslices of each year, year by year. -/
def slots : List Slot :=
  sets.years.flatMap fun year => sets.timeslices.map (⟨·, year⟩)

/-- The slot before a timeslice of a year, given the year and the timeslice before it. -/
def slotBefore (previousYear previousSlice : Option String) (year : String) : Option Slot :=
  (previousSlice.map (⟨·, year⟩)).or
    (previousYear.bind fun earlier => sets.timeslices.getLast?.map (⟨·, earlier⟩))

variable {sets}

theorem mem_slots {slot : Slot} :
    slot ∈ sets.slots ↔ slot.year ∈ sets.years ∧ slot.timeslice ∈ sets.timeslices := by
  rw [slots, List.mem_flatMap]
  constructor
  · rintro ⟨year, hy, h⟩
    obtain ⟨timeslice, hl, rfl⟩ := List.mem_map.1 h
    exact ⟨hy, hl⟩
  · rintro ⟨hy, hl⟩
    exact ⟨slot.year, hy, List.mem_map.2 ⟨slot.timeslice, hl, rfl⟩⟩

theorem slots_ne_nil (hy : sets.years ≠ []) (hl : sets.timeslices ≠ []) : sets.slots ≠ [] := by
  obtain ⟨year, hy⟩ := List.exists_mem_of_ne_nil _ hy
  obtain ⟨timeslice, hl⟩ := List.exists_mem_of_ne_nil _ hl
  exact List.ne_nil_of_mem (mem_slots.2 ⟨hy, hl⟩ : ⟨timeslice, year⟩ ∈ sets.slots)

theorem nodup_slots (hy : sets.years.Nodup) (hl : sets.timeslices.Nodup) :
    sets.slots.Nodup := by
  rw [slots, List.nodup_flatMap]
  constructor
  · intro year _
    exact hl.map fun _ _ h => congrArg Slot.timeslice h
  · refine hy.imp fun {a b} hne => ?_
    apply List.disjoint_left.2
    intro slot ha hb
    obtain ⟨_, -, rfl⟩ := List.mem_map.1 ha
    obtain ⟨_, -, h⟩ := List.mem_map.1 hb
    exact hne (congrArg Slot.year h).symm

/-- The slots, each with the one before it, are the years and timeslices with those before. -/
theorem withPrevious_slots (h : sets.timeslices ≠ []) : withPrevious sets.slots =
    (withPrevious sets.years).flatMap fun y => (withPrevious sets.timeslices).map fun l =>
      (sets.slotBefore y.1 l.1 y.2, ⟨l.2, y.2⟩) := by
  have hrows : ∀ year ∈ sets.years, sets.timeslices.map (Slot.mk · year) ≠ [] :=
    fun year _ hnil => h (List.map_eq_nil_iff.1 hnil)
  have hflat := precededBy_flatMap none hrows
  rw [Option.bind_none] at hflat
  rw [withPrevious_eq, slots, hflat, withPrevious_eq, withPrevious_eq]
  apply List.flatMap_congr
  rintro ⟨previousYear, year⟩ -
  have hmap := precededBy_map (Slot.mk · year)
    (previousYear.bind fun earlier => sets.timeslices.getLast?.map (Slot.mk · earlier)) none
    sets.timeslices
  simp only [List.getLast?_map]
  exact hmap

/-- The first timeslice of a year follows the last one of the year before. -/
example (hy : sets.years = ["2020", "2021"]) (hl : sets.timeslices = ["day", "night"]) :
    withPrevious sets.slots =
      [(none, ⟨"day", "2020"⟩), (some ⟨"day", "2020"⟩, ⟨"night", "2020"⟩),
        (some ⟨"night", "2020"⟩, ⟨"day", "2021"⟩),
        (some ⟨"day", "2021"⟩, ⟨"night", "2021"⟩)] := by
  rw [slots, hy, hl]
  rfl

end IndexSets

/-! ### The constraint on a level -/

/-- The share of its year that a slot takes. -/
def TimeStructure.share {R : Type} [Zero R] (time : TimeStructure R) (slot : Slot) : R :=
  (time.yearSplit.find? [slot.timeslice, slot.year]).getD 0

/-- The level of a storage in a region before the first slot; nothing where it is not given. -/
def Storage.startsAt {R : Type} [Zero R] (storage : Storage R) (region : String) : R :=
  (storage.initialLevel.find? [region]).getD 0

/-- The rate of charge of a storage in a slot, less its rate of discharge. -/
def Slot.netRate {R : Type} [Sub R] (assignment : VariableRef → R) (region storage : String)
    (slot : Slot) : R :=
  assignment ⟨"RateOfStorageCharge", slot.key region storage⟩ -
    assignment ⟨"RateOfStorageDischarge", slot.key region storage⟩

/-- A constraint carries the level of a storage over from the slot before, or from the initial
level if there is none: the level, less the level before, is the share of the year times the
rate of charge less that of discharge. -/
structure Constraint.Carries {R : Type} [Zero R] [One R] [Neg R] (c : Constraint R)
    (region storage : String) (initial share : R) (previous : Option Slot) (slot : Slot) :
    Prop where
  relation : c.relation = .equal
  rhs : c.rhs = if previous.isSome then 0 else initial
  level : c.lhs.coefficient ⟨"StorageLevel", slot.key region storage⟩ = 1
  earlier : ∀ before ∈ previous, before ≠ slot ∧
    c.lhs.coefficient ⟨"StorageLevel", before.key region storage⟩ = -1
  charge : c.lhs.coefficient ⟨"RateOfStorageCharge", slot.key region storage⟩ = -share
  discharge : c.lhs.coefficient ⟨"RateOfStorageDischarge", slot.key region storage⟩ = share
  others : ∀ v, c.lhs.coefficient v ≠ 0 →
    v = ⟨"StorageLevel", slot.key region storage⟩ ∨
      (∃ before ∈ previous, v = ⟨"StorageLevel", before.key region storage⟩) ∨
      v = ⟨"RateOfStorageCharge", slot.key region storage⟩ ∨
      v = ⟨"RateOfStorageDischarge", slot.key region storage⟩

variable {R : Type}

namespace Context

section

variable [Zero R] [One R] [Neg R] (ctx : Context R) (region : String) (storage : Storage R)

/-- The terms of the constraint on a level. -/
def levelTerms (previous : Option Slot) (slot : Slot) : List (VariableRef × R) :=
  [(⟨"StorageLevel", slot.key region storage.id⟩, 1),
    (⟨"RateOfStorageCharge", slot.key region storage.id⟩, -ctx.model.time.share slot),
    (⟨"RateOfStorageDischarge", slot.key region storage.id⟩, ctx.model.time.share slot)] ++
  (previous.map fun before => (⟨"StorageLevel", before.key region storage.id⟩, -1)).toList

variable [Add R] [Sub R] [BEq R]

/-- The constraint on the level of a storage in a slot. -/
def levelConstraint (previous : Option Slot) (slot : Slot) : Constraint R :=
  .of (slot.key region storage.id)
    ((ofTerms (ctx.levelTerms region storage previous slot)).addConstant
      (if previous.isSome then 0 else -storage.startsAt region))
    .equal 0

end

section

variable [Ring R] [LinearOrder R] [BEq R] {ctx : Context R} (hc : ctx.Sound)

include hc

/-- The level before a slot is a term for the slot before it, or the initial level. -/
theorem value_earlierLevel (region : String) (storage : Storage R)
    (previousYear previousSlice : Option String) (year : String) :
    (earlierLevel ctx region storage previousYear previousSlice year).value =
      (((ctx.sets.slotBefore previousYear previousSlice year).map fun before =>
          (⟨"StorageLevel", before.key region storage.id⟩, -1)).toList,
        if (ctx.sets.slotBefore previousYear previousSlice year).isSome then 0
        else -storage.startsAt region) := by
  have hterm : ∀ slice year, (ctx.term .storageLevel [region, storage.id, slice, year] (-1)).value =
      [(⟨"StorageLevel", Slot.key region storage.id ⟨slice, year⟩⟩, -1)] :=
    fun slice year => hc.value_term .storageLevel _ _
  unfold earlierLevel IndexSets.slotBefore
  cases previousSlice with
  | some slice =>
    show ((ctx.term .storageLevel _ (-1)).value, (0 : R)) = _
    rw [hterm]
    rfl
  | none =>
    cases previousYear with
    | none => rfl
    | some earlier =>
      cases ctx.sets.timeslices.getLast? with
      | none => rfl
      | some slice =>
        show ((ctx.term .storageLevel _ (-1)).value, (0 : R)) = _
        rw [hterm]
        rfl

/-- The rule makes one constraint for each slot, linked with the slot before it. -/
theorem value_levelRule (hl : ctx.sets.timeslices ≠ []) :
    ((levelRule : ConstraintRule R).constraints ctx).value =
      ctx.sets.regions.flatMap fun region => ctx.model.storage.flatMap fun storage =>
        (withPrevious ctx.sets.slots).map fun e => ctx.levelConstraint region storage e.1 e.2 := by
  unfold levelRule
  rw [value_gather]
  apply List.flatMap_congr
  intro region _
  rw [value_gather]
  apply List.flatMap_congr
  intro storage _
  rw [value_gather, IndexSets.withPrevious_slots hl, List.map_flatMap]
  apply List.flatMap_congr
  rintro ⟨previousYear, year⟩ -
  rw [value_each, List.map_map]
  apply List.map_congr_left
  rintro ⟨previousSlice, timeslice⟩ -
  simp only [value_bind, value_pure, hc.value_term, value_earlierLevel hc]
  rfl

end

section

variable [Field R] [LinearOrder R] [IsStrictOrderedRing R] [BEq R] [LawfulBEq R]
  {ctx : Context R} (region : String) (storage : Storage R) {previous : Option Slot} {slot : Slot}

theorem coefficient_levelConstraint (w : VariableRef) :
    (ctx.levelConstraint region storage previous slot).lhs.coefficient w =
      amount w (ctx.levelTerms region storage previous slot) :=
  Constraint.coefficient_of.trans (coefficient_ofTerms _)

/-- No variable is in two terms of the constraint on a level. -/
theorem nodup_levelTerms (hne : ∀ before ∈ previous, before ≠ slot) :
    ((ctx.levelTerms region storage previous slot).map Prod.fst).Nodup := by
  have hlevel : ∀ before ∈ previous, before.key region storage.id ≠ slot.key region storage.id :=
    fun before hb h => hne before hb (Slot.key_injective _ _ h)
  cases previous with
  | none => simp [levelTerms]
  | some before => simpa [levelTerms] using (hlevel before rfl).symm

/-- The constraint on a level carries the level over. -/
theorem carries_levelConstraint (hne : ∀ before ∈ previous, before ≠ slot) :
    (ctx.levelConstraint region storage previous slot).Carries region storage.id
      (storage.startsAt region) (ctx.model.time.share slot) previous slot := by
  have hn : ((ctx.levelTerms region storage previous slot).map Prod.fst).Nodup :=
    nodup_levelTerms region storage hne
  have hcoefficient : ∀ {w : VariableRef} {c : R},
      (w, c) ∈ ctx.levelTerms region storage previous slot →
        (ctx.levelConstraint region storage previous slot).lhs.coefficient w = c :=
    fun hm => (coefficient_levelConstraint ..).trans (amount_of_mem hn hm)
  constructor
  case relation => rfl
  case rhs =>
    have hconstant : (ofTerms (ctx.levelTerms region storage previous slot)).constant = 0 :=
      constant_addTerms 0 _
    show (0 : R) - ((ofTerms _).constant + _) = _
    rw [hconstant, zero_add, zero_sub]
    cases previous with
    | none => exact neg_neg _
    | some before => exact neg_zero
  case level => exact hcoefficient (by simp [levelTerms])
  case charge => exact hcoefficient (by simp [levelTerms])
  case discharge => exact hcoefficient (by simp [levelTerms])
  case earlier =>
    rintro before hb
    refine ⟨hne before hb, hcoefficient ?_⟩
    obtain rfl : previous = some before := hb
    simp [levelTerms]
  case others =>
    intro v hv
    rw [coefficient_levelConstraint] at hv
    by_contra hnot
    refine hv (amount_eq_zero fun t ht he => hnot ?_)
    subst he
    rcases List.mem_append.1 ht with ht | ht
    · simp only [List.mem_cons, List.not_mem_nil, or_false] at ht
      rcases ht with rfl | rfl | rfl
      · exact .inl rfl
      · exact .inr (.inr (.inl rfl))
      · exact .inr (.inr (.inr rfl))
    · rw [Option.mem_toList, Option.map_eq_some_iff] at ht
      obtain ⟨before, hb, rfl⟩ := ht
      exact .inr (.inl ⟨before, hb, rfl⟩)

/-- An assignment satisfies the constraint on a level exactly if the level is the one before with
what is taken up and without what is given. -/
theorem holds_levelConstraint_iff {assignment : VariableRef → R} :
    (ctx.levelConstraint region storage previous slot).Holds assignment ↔
      assignment ⟨"StorageLevel", slot.key region storage.id⟩ =
        (previous.map fun before => assignment
          ⟨"StorageLevel", before.key region storage.id⟩).getD (storage.startsAt region) +
        ctx.model.time.share slot * slot.netRate assignment region storage.id := by
  have hvalue : ∀ {a b c d e s : R},
      (1 * a + (-s * b + (s * c + d)) + e = 0 ↔ a = (-d - e) + s * (b - c)) := by
    intro a b c d e s
    constructor <;> intro h <;> linear_combination h
  unfold levelConstraint
  rw [Constraint.holds_of_iff, eval_addConstant, eval_ofTerms]
  cases previous with
  | none =>
    refine (hvalue (d := 0) (e := -storage.startsAt region)).trans ?_
    rw [neg_zero, zero_sub, neg_neg]
    rfl
  | some before =>
    refine (hvalue (d := -1 * assignment ⟨"StorageLevel", before.key region storage.id⟩ + 0)
      (e := 0)).trans ?_
    rw [add_zero, sub_zero, neg_mul, one_mul, neg_neg]
    rfl

end

/-! ### The chain -/

section

variable [Field R] [LinearOrder R] [IsStrictOrderedRing R] [BEq R] [LawfulBEq R] [Scalar R]

theorem levelRule_mem : (levelRule : ConstraintRule R) ∈ constraintRules := by
  unfold constraintRules
  simp

variable {ctx : Context R} (hc : ctx.Sound) (hregions : ctx.sets.regions.Nodup)
  (hyears : ctx.sets.years.Nodup) (hslices : ctx.sets.timeslices.Nodup)

include hc hregions hyears hslices

/-- Levels are constrained in all slots of all storages and regions, and nowhere else. -/
theorem exists_levelConstraint_iff {index : Key} :
    (∃ c, ctx.problem.constraintAt ("S3_StorageLevel", index) = some c) ↔
      ∃ region ∈ ctx.sets.regions, ∃ storage ∈ ctx.model.storage, ∃ slot ∈ ctx.sets.slots,
        index = slot.key region storage.id := by
  have hcovers := ConstraintRule.covers_levelRule hregions hc.distinct.storage hyears hslices
  refine (exists_constraintAt_iff levelRule_mem hcovers).trans ?_
  refine exists_congr fun region => and_congr_right fun _ => exists_congr fun storage =>
    and_congr_right fun _ => ?_
  constructor
  · rintro ⟨year, hy, -, timeslice, hl, rfl⟩
    exact ⟨⟨timeslice, year⟩, IndexSets.mem_slots.2 ⟨hy, hl⟩, rfl⟩
  · rintro ⟨slot, hs, rfl⟩
    obtain ⟨hy, hl⟩ := IndexSets.mem_slots.1 hs
    exact ⟨slot.year, hy, trivial, slot.timeslice, hl, rfl⟩

/-- In each slot the problem has the constraint that is linked with the slot before. -/
theorem constraintAt_level {region : String} (hr : region ∈ ctx.sets.regions)
    {storage : Storage R} (ho : storage ∈ ctx.model.storage) {e : Option Slot × Slot}
    (he : e ∈ withPrevious ctx.sets.slots) :
    ctx.problem.constraintAt ("S3_StorageLevel", e.2.key region storage.id) =
      some (ctx.levelConstraint region storage e.1 e.2) := by
  have hn := IndexSets.nodup_slots hyears hslices
  rw [← map_snd_withPrevious ctx.sets.slots] at hn
  have hslot : e.2 ∈ ctx.sets.slots := by
    rw [← map_snd_withPrevious ctx.sets.slots]
    exact List.mem_map_of_mem he
  have hl : ctx.sets.timeslices ≠ [] := List.ne_nil_of_mem (IndexSets.mem_slots.1 hslot).2
  obtain ⟨c, hat⟩ := (exists_levelConstraint_iff hc hregions hyears hslices).2
    ⟨region, hr, storage, ho, e.2, hslot, rfl⟩
  obtain ⟨hm, hindex⟩ := mem_of_constraintAt levelRule_mem hat
  rw [value_levelRule hc hl, List.mem_flatMap] at hm
  obtain ⟨region', -, hm⟩ := hm
  obtain ⟨storage', ho', hm⟩ := List.mem_flatMap.1 hm
  obtain ⟨e', he', rfl⟩ := List.mem_map.1 hm
  have hkey : e'.2.key region' storage'.id = e.2.key region storage.id := hindex
  obtain ⟨rfl, hid⟩ : region' = region ∧ storage'.id = storage.id := by
    simp only [Slot.key, List.cons.injEq] at hkey
    exact ⟨hkey.1, hkey.2.1⟩
  obtain rfl := List.inj_on_of_nodup_map hc.distinct.storage ho' ho hid
  obtain rfl := List.inj_on_of_nodup_map hn he' he (Slot.key_injective _ _ hkey)
  exact hat

end

end Context

/-- The constraints on the level of a storage in a region are a chain over slots: there is one
in each of them and no other, it carries the level over from the slot before, and so the last
level is the initial one with the net charges of all slots. -/
structure Problem.ChainsLevels [Field R] [LinearOrder R] (problem : Problem R)
    (slots : List Slot) (region storage : String) (initial : R) (share : Slot → R) : Prop where
  sites : ∀ index,
    (∃ c, problem.constraintAt ("S3_StorageLevel", region :: storage :: index) = some c) ↔
      ∃ slot ∈ slots, index = [slot.timeslice, slot.year]
  carries : ∀ e ∈ withPrevious slots,
    ∃ c, problem.constraintAt ("S3_StorageLevel", e.2.key region storage) = some c ∧
      c.Carries region storage initial (share e.2) e.1 e.2
  balances : ∀ assignment : VariableRef → R,
    (∀ slot ∈ slots, ∀ c,
      problem.constraintAt ("S3_StorageLevel", slot.key region storage) = some c →
        c.Holds assignment) →
    ∃ last, slots.getLast? = some last ∧
      assignment ⟨"StorageLevel", last.key region storage⟩ =
        initial + (slots.map fun slot =>
          share slot * slot.netRate assignment region storage).sum

section

variable [Field R] [LinearOrder R] [IsStrictOrderedRing R] [BEq R] [LawfulBEq R] [Scalar R]

/-- In the problem of a model whose sets list nothing twice, levels are chained. -/
theorem chainsLevels_of_sound {ctx : Context R} (hc : ctx.Sound)
    (hregions : ctx.sets.regions.Nodup) (hyears : ctx.sets.years.Nodup)
    (hslices : ctx.sets.timeslices.Nodup) (hne : ctx.sets.slots ≠ []) {region : String}
    (hr : region ∈ ctx.sets.regions) {storage : Storage R} (ho : storage ∈ ctx.model.storage) :
    ctx.problem.ChainsLevels ctx.sets.slots region storage.id (storage.startsAt region)
      ctx.model.time.share := by
  have hat := fun {e} => constraintAt_level (e := e) hc hregions hyears hslices hr ho
  constructor
  case sites =>
    intro index
    rw [exists_levelConstraint_iff hc hregions hyears hslices]
    constructor
    · rintro ⟨_, -, _, -, slot, hs, h⟩
      simp only [Slot.key, List.cons.injEq] at h
      exact ⟨slot, hs, h.2.2⟩
    · rintro ⟨slot, hs, rfl⟩
      exact ⟨region, hr, storage, ho, slot, hs, rfl⟩
  case carries =>
    rintro ⟨previous, slot⟩ he
    refine ⟨_, hat he, carries_levelConstraint region storage ?_⟩
    rintro before rfl
    rw [withPrevious_eq] at he
    exact ne_of_mem_precededBy (IndexSets.nodup_slots hyears hslices) (by rintro _ ⟨⟩) he
  case balances =>
    intro assignment hholds
    refine ⟨_, List.getLast?_eq_some_getLast hne, ?_⟩
    let level : Slot → R := fun slot =>
      assignment ⟨"StorageLevel", slot.key region storage.id⟩
    let gain : Slot → R := fun slot =>
      ctx.model.time.share slot * slot.netRate assignment region storage.id
    have hlink : ∀ e ∈ precededBy none ctx.sets.slots,
        level e.2 = (e.1.map level).getD (storage.startsAt region) + gain e.2 := by
      intro e he
      rw [← withPrevious_eq] at he
      have hslot : e.2 ∈ ctx.sets.slots := by
        rw [← map_snd_withPrevious ctx.sets.slots]
        exact List.mem_map_of_mem he
      exact (holds_levelConstraint_iff region storage).1 (hholds e.2 hslot _ (hat he))
    have hchain := level_of_chain level gain none hlink
    rw [Option.or_none, List.getLast?_eq_some_getLast hne] at hchain
    exact hchain

/-- **The levels of a storage form one chain in order of time.** A model with distinct timeslices
compiles to a problem in which the constraints on the level of a storage in a region link the
slots of the model in their order, the years increasing and the timeslices of a year as they are
listed: the first one has the initial level on its right, any other one the level of the slot
before on its left. An assignment that satisfies them ends with the initial level and the net
charges of all slots. -/
theorem compile_chains_levels {definition root : Node} {time : TimeStructure R}
    {members : MemberSets} {tolerance bigM : R} {model : EnergyModel R} {sets : IndexSets}
    (ht : TimeStructure.ofNode definition = .ok time)
    (hb : buildModel root time members tolerance = .ok model)
    (hs : deriveSets model = .ok sets) (hslices : model.time.timeslices.Nodup) :
    sets.years = model.time.years.map yearLabel ∧ model.time.years.Pairwise (· < ·) ∧
      sets.timeslices = model.time.timeslices ∧
      ∃ problem, compile model sets bigM = .ok problem ∧
        ∀ region ∈ sets.regions, ∀ storage ∈ model.storage,
          problem.ChainsLevels sets.slots region storage.id (storage.startsAt region)
            model.time.share := by
  have hc := sound_of_stages ht hb hs bigM
  have hincrease := pairwise_lt_years hb
  have htime := (checked_of_buildModel hb).1
  have hyearsNe : model.time.years ≠ [] := htime ▸ TimeStructure.years_ne_nil ht
  have hslicesNe : model.time.timeslices ≠ [] := htime ▸ TimeStructure.timeslices_ne_nil ht
  obtain rfl := (deriveSets_eq_ok_iff.1 hs).1
  have hsorted := mergeSort_years hincrease
  have hyears : (IndexSets.ofModel model).years = model.time.years.map yearLabel :=
    congrArg (List.map yearLabel) hsorted
  refine ⟨hyears, hincrease, rfl, _, compile_of_sound hc (lt_irrefl 0), ?_⟩
  intro region hr storage ho
  have hnodup : (IndexSets.ofModel model).years.Nodup := by
    rw [hyears]
    have hn : model.time.years.Nodup := hincrease.imp fun h => Int.ne_of_lt h
    exact hn.map yearLabel_injective
  have hne : (IndexSets.ofModel model).slots ≠ [] := by
    apply IndexSets.slots_ne_nil _ hslicesNe
    rw [hyears]
    exact fun h => hyearsNe (List.map_eq_nil_iff.1 h)
  exact chainsLevels_of_sound hc (nodup_sortedDistinct _) hnodup hslices hne hr ho

end

/-- An island with a battery that is charged with three units at first, over the day and the night
of a year. -/
def Exact.island : Node :=
  .mapping [
    ("id", .plain "plan"),
    ("time_definition", .mapping [
      ("years", .sequence [.plain "2020"]),
      ("timeslices", .sequence [.plain "day", .plain "night"])]),
    ("regions", .sequence [.mapping [("id", .plain "island")]]),
    ("commodities", .sequence [.mapping [("id", .plain "power")]]),
    ("impacts", .sequence [.mapping [("id", .plain "smoke")]]),
    ("technologies", .sequence [.mapping [
      ("id", .plain "panel"),
      ("operating_modes", .sequence [.mapping [
        ("id", .plain "shine"),
        ("output_activity_ratio", .mapping [("power", .plain "1")]),
        ("to_storage", .mapping [("battery", .plain "true")]),
        ("from_storage", .mapping [("battery", .plain "true")])]])]]),
    ("storage", .sequence [.mapping [
      ("id", .plain "battery"),
      ("capex", .plain "5"),
      ("operating_life", .plain "10"),
      ("initial_level", .plain "3")]])]

/-- The level of the battery goes from day to night. -/
theorem compile_chains_levels_island :
    ∃ (definition root : Node) (time : TimeStructure Rat) (members : MemberSets)
      (tolerance : Rat) (model : EnergyModel Rat) (sets : IndexSets),
      TimeStructure.ofNode definition = .ok time ∧
      buildModel root time members tolerance = .ok model ∧ deriveSets model = .ok sets ∧
      model.time.timeslices.Nodup ∧
      sets.slots = [⟨"day", "2020"⟩, ⟨"night", "2020"⟩] ∧
      ∃ storage ∈ model.storage, storage.startsAt "island" = 3 ∧
        ∃ problem, compile model sets 1000 = .ok problem ∧
          problem.ChainsLevels sets.slots "island" storage.id 3 model.time.share := by
  have haccepts : Exact.accepts Exact.noVariables .standard Exact.island (fun model sets =>
      decide (model.time.timeslices.Nodup ∧ "island" ∈ sets.regions ∧
        sets.slots = [⟨"day", "2020"⟩, ⟨"night", "2020"⟩] ∧
        ∃ storage ∈ model.storage, storage.startsAt "island" = 3)) = true := by decide +kernel
  obtain ⟨options, root, resolved, expanded, model, sets, -, -, he, hb, hs, htest⟩ :=
    Exact.exists_of_accepts haccepts
  obtain ⟨hslices, hr, hslots, storage, ho, hstart⟩ := of_decide_eq_true htest
  have ht := ofNode_of_expandModel he
  obtain ⟨-, -, -, problem, hp, hchains⟩ := compile_chains_levels ht hb hs hslices
  have hchain := hchains "island" hr storage ho
  rw [hstart] at hchain
  exact ⟨_, _, _, _, _, model, sets, ht, hb, hs, hslices, hslots, storage, ho, hstart, problem,
    hp, hchain⟩

end EnergyPlan
