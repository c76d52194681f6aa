/-
# Where a list of constraints has its indexes

A piece of work covers certain indexes if it lists one constraint at each of them, none at
any other, and no two at one index: nothing that it lists is ever overwritten. What a loop
covers is the union of what its rows cover, if an index tells which row it is from; what a
choice covers is what the chosen branch does.

Key definitions: `Covers`, `Context.technologyYears`, `Context.storageSlices`,
`Context.Orderly`.
Key theorems: `Covers.gather`, `Covers.each`, `covers_loops₃`, `covers_lookup?`,
`covers_technologyYears`, `covers_storageSlices`.
-/
import EnergyPlan.Proofs.Fit.Basic
import Mathlib.Data.List.Nodup

namespace EnergyPlan

open Noted

/-- A flag that is off unless it is given is on exactly if it is given as on. -/
theorem getD_false_iff {o : Option Bool} : o.getD false = true ↔ o = some true := by
  cases o <;> simp

variable {R : Type}

/-- A list of constraints has exactly one at each index that a condition picks. -/
def Covers (r : Lookup (List (Constraint R))) (p : Key → Prop) : Prop :=
  (r.value.map Constraint.index).Nodup ∧ ∀ i, i ∈ r.value.map Constraint.index ↔ p i

section

variable {r s : Lookup (List (Constraint R))} {p q : Key → Prop}

theorem Covers.congr (h : Covers r p) (hpq : ∀ i, p i ↔ q i) : Covers r q :=
  ⟨h.1, fun i => (h.2 i).trans (hpq i)⟩

theorem covers_none (h : r.value = []) : Covers r fun _ => False := by
  constructor
  · rw [h]
    exact List.nodup_nil
  · intro i
    rw [h]
    exact iff_of_false List.not_mem_nil id

theorem covers_one {c : Constraint R} {key : Key} (h : r.value = [c]) (hk : c.index = key) :
    Covers r (· = key) := by
  constructor
  · rw [h]
    exact List.nodup_singleton _
  · intro i
    rw [h, List.map_singleton, hk, List.mem_singleton]

/-- Only the value of a step plays a part in what the next one covers. -/
theorem covers_bind {α : Type} {a : Lookup α} {f : α → Lookup (List (Constraint R))}
    (h : Covers (f a.value) p) : Covers (a >>= f) p := h

theorem covers_if {c : Prop} [Decidable c] (hr : Covers r p) (hs : s.value = []) :
    Covers (if c then r else s) fun i => c ∧ p i := by
  by_cases h : c
  · rw [if_pos h]
    exact hr.congr fun i => (and_iff_right h).symm
  · rw [if_neg h]
    exact (covers_none hs).congr fun i => ⟨False.elim, fun hi => h hi.1⟩

theorem covers_unless {c : Prop} [Decidable c] (hs : s.value = []) (hr : Covers r p) :
    Covers (if c then s else r) fun i => ¬ c ∧ p i := by
  by_cases h : c
  · rw [if_pos h]
    exact (covers_none hs).congr fun i => ⟨False.elim, fun hi => hi.1 h⟩
  · rw [if_neg h]
    exact hr.congr fun i => (and_iff_right h).symm

/-- What depends on a value that may be missing covers nothing where it is missing. -/
theorem covers_option {α : Type} {o : Lookup (Option α)}
    {f : Option α → Lookup (List (Constraint R))} (hn : (f none).value = [])
    (hs : ∀ a, Covers (f (some a)) p) :
    Covers (o >>= f) fun i => o.value.isSome = true ∧ p i := by
  show Covers (f o.value) _
  cases o.value with
  | none => exact (covers_none hn).congr fun i => ⟨False.elim, fun h => by cases h.1⟩
  | some a => exact (hs a).congr fun i => (and_iff_right rfl).symm

theorem covers_lookup? {α : Type} {t : Tensor α} {key : Key}
    {f : Option α → Lookup (List (Constraint R))} (hn : (f none).value = [])
    (hs : ∀ a, Covers (f (some a)) p) :
    Covers (t.lookup? key >>= f) fun i => (t.find? key).isSome = true ∧ p i :=
  covers_option hn hs

/-- What depends on a value that should be missing covers nothing where it is there. -/
theorem covers_absent? {α : Type} {t : Tensor α} {key : Key}
    {f : Option α → Lookup (List (Constraint R))} (hs : ∀ a, (f (some a)).value = [])
    (hn : Covers (f none) p) :
    Covers (t.lookup? key >>= f) fun i => t.find? key = none ∧ p i := by
  show Covers (f (t.find? key)) _
  cases t.find? key with
  | none => exact hn.congr fun i => (and_iff_right rfl).symm
  | some a => exact (covers_none (hs a)).congr fun i => ⟨False.elim, fun h => by cases h.1⟩

end

/-! ### Loops -/

section

variable {α κ : Type}

theorem mem_map_index_gather {f : α → Lookup (List (Constraint R))} {as : List α} {i : Key} :
    i ∈ (gather f as).value.map Constraint.index ↔
      ∃ a ∈ as, i ∈ (f a).value.map Constraint.index := by
  rw [value_gather, List.map_flatMap, List.mem_flatMap]

/-- A loop covers what its rows cover, if an index tells which row it is from. -/
theorem Covers.gather {f : α → Lookup (List (Constraint R))} {as : List α}
    {p : α → Key → Prop} {label : α → κ} (read : Key → κ) (hn : (as.map label).Nodup)
    (h : ∀ a ∈ as, Covers (f a) (p a)) (hread : ∀ a ∈ as, ∀ i, p a i → read i = label a) :
    Covers (Noted.gather f as) fun i => ∃ a ∈ as, p a i := by
  constructor
  · rw [value_gather, List.map_flatMap, List.nodup_flatMap]
    refine ⟨fun a ha => (h a ha).1, ?_⟩
    have hne : as.Pairwise fun a b => label a ≠ label b := List.pairwise_map.1 hn
    refine hne.imp_of_mem fun {a b} ha hb hab => ?_
    apply List.disjoint_left.2
    intro i hi hi'
    have hia := hread a ha i (((h a ha).2 i).1 hi)
    have hib := hread b hb i (((h b hb).2 i).1 hi')
    exact hab (hia.symm.trans hib)
  · intro i
    rw [mem_map_index_gather]
    exact exists_congr fun a => and_congr_right fun ha => (h a ha).2 i

/-- A loop with one constraint for each element covers their indexes. -/
theorem Covers.each {f : α → Lookup (Constraint R)} {as : List α} {key : α → Key}
    {label : α → κ} (read : Key → κ) (hn : (as.map label).Nodup)
    (h : ∀ a ∈ as, (f a).value.index = key a) (hread : ∀ a ∈ as, read (key a) = label a) :
    Covers (Noted.each f as) fun i => ∃ a ∈ as, i = key a := by
  have hkeys : (Noted.each f as).value.map Constraint.index = as.map key := by
    rw [value_each, List.map_map]
    exact List.map_congr_left h
  have hlabels : as.map (read ∘ key) = as.map label := List.map_congr_left hread
  constructor
  · rw [hkeys]
    apply List.Nodup.of_map read
    rw [List.map_map, hlabels]
    exact hn
  · intro i
    rw [hkeys, List.mem_map]
    exact exists_congr fun a => and_congr_right fun _ => eq_comm

/-- Two loops, one inside the other. -/
theorem covers_loops₂ {β : Type} {as : List α} {bs : List β} {la : α → String}
    {lb : β → String} {rows : α → β → Lookup (List (Constraint R))}
    {p : α → β → Key → Prop} (read read' : Key → String) (ha : (as.map la).Nodup)
    (hb : (bs.map lb).Nodup) (h : ∀ a ∈ as, ∀ b ∈ bs, Covers (rows a b) (p a b))
    (hat : ∀ a b i, p a b i → read i = la a ∧ read' i = lb b) :
    Covers (gather (fun a => gather (rows a) bs) as) fun i => ∃ a ∈ as, ∃ b ∈ bs, p a b i := by
  refine .gather read ha (fun a hma => ?_) ?_
  · exact .gather read' hb (h a hma) fun b _ i hi => (hat a b i hi).2
  · rintro a - i ⟨b, -, hi⟩
    exact (hat a b i hi).1

/-- Three loops, each inside the one before. -/
theorem covers_loops₃ {β γ : Type} {as : List α} {bs : List β} {cs : List γ}
    {la : α → String} {lb : β → String} {lc : γ → String}
    {rows : α → β → γ → Lookup (List (Constraint R))} {p : α → β → γ → Key → Prop}
    (read read' read'' : Key → String) (ha : (as.map la).Nodup) (hb : (bs.map lb).Nodup)
    (hc : (cs.map lc).Nodup)
    (h : ∀ a ∈ as, ∀ b ∈ bs, ∀ c ∈ cs, Covers (rows a b c) (p a b c))
    (hat : ∀ a b c i, p a b c i → read i = la a ∧ read' i = lb b ∧ read'' i = lc c) :
    Covers (gather (fun a => gather (fun b => gather (rows a b) cs) bs) as)
      fun i => ∃ a ∈ as, ∃ b ∈ bs, ∃ c ∈ cs, p a b c i := by
  refine covers_loops₂ read read' ha hb (fun a hma b hmb => ?_) ?_
  · exact .gather read'' hc (h a hma b hmb) fun c _ i hi => (hat a b c i hi).2.2
  · rintro a b i ⟨c, -, hi⟩
    exact ⟨(hat a b c i hi).1, (hat a b c i hi).2.1⟩

end

/-- The label at a position of an index. -/
def labelAt (n : Nat) (i : Key) : String := (i[n]?).getD ""

/-- The last label of an index. -/
def lastLabel (i : Key) : String := i.getLastD ""

namespace Context

variable (ctx : Context R)

/-- The indexes of a region, a technology and a year that a condition picks. -/
def technologyYears (p : String → Technology R → String → Prop) (i : Key) : Prop :=
  ∃ region ∈ ctx.sets.regions, ∃ technology ∈ ctx.model.technologies, ∃ year ∈ ctx.sets.years,
    p region technology year ∧ i = [region, technology.id, year]

/-- The indexes of a region, a storage, a timeslice and a year, the timeslices being all those
of a region, storage and year that a condition picks. -/
def storageSlices (p : String → Storage R → String → Prop) (i : Key) : Prop :=
  ∃ region ∈ ctx.sets.regions, ∃ storage ∈ ctx.model.storage, ∃ year ∈ ctx.sets.years,
    p region storage year ∧ ∃ timeslice ∈ ctx.sets.timeslices,
      i = [region, storage.id, timeslice, year]

end Context

variable [Zero R] [One R] [LT R] [DecidableLT R]

/-! ### Loops over the sets and entities -/

/-- The context of a model that was built, whose years, timeslices and members are listed
once and whose trades carry distinct commodities. -/
structure Context.Orderly (ctx : Context R) : Prop extends ctx.Sound where
  regions : ctx.sets.regions.Nodup
  years : ctx.sets.years.Nodup
  timeslices : ctx.sets.timeslices.Nodup
  seasons : ctx.sets.seasons.Nodup
  dayTypes : ctx.sets.dayTypes.Nodup
  traded : (ctx.model.trade.map (·.commodity)).Nodup

namespace Context.Orderly

variable {ctx : Context R} (hc : ctx.Orderly)

include hc

/-- The labels of the regions are the regions. -/
theorem map_regions : (ctx.sets.regions.map id).Nodup := by
  rw [List.map_id]
  exact hc.regions

theorem map_years : (ctx.sets.years.map id).Nodup := by
  rw [List.map_id]
  exact hc.years

theorem map_timeslices : (ctx.sets.timeslices.map id).Nodup := by
  rw [List.map_id]
  exact hc.timeslices

/-- A constraint for each timeslice covers the indexes with a timeslice put in. -/
theorem covers_timeslices {f : String → Lookup (Constraint R)} {key : String → Key} (n : Nat)
    (h : ∀ timeslice, (f timeslice).value.index = key timeslice)
    (hread : ∀ timeslice, labelAt n (key timeslice) = timeslice) :
    Covers (Noted.each f ctx.sets.timeslices) fun i =>
      ∃ timeslice ∈ ctx.sets.timeslices, i = key timeslice :=
  .each (labelAt n) hc.map_timeslices (fun timeslice _ => h timeslice)
    fun timeslice _ => hread timeslice

/-- The loop over regions, technologies and years; the technology is at a position `n`. -/
theorem covers_perTechnologyYear
    {rows : String → Technology R → String → Lookup (List (Constraint R))}
    {p : String → Technology R → String → Key → Prop} (n : Nat)
    (h : ∀ region ∈ ctx.sets.regions, ∀ technology ∈ ctx.model.technologies,
      ∀ year ∈ ctx.sets.years, Covers (rows region technology year) (p region technology year))
    (hat : ∀ region technology year i, p region technology year i →
      labelAt 0 i = region ∧ labelAt n i = technology.id ∧ lastLabel i = year) :
    Covers (ctx.perTechnologyYear rows) fun i => ∃ region ∈ ctx.sets.regions,
      ∃ technology ∈ ctx.model.technologies, ∃ year ∈ ctx.sets.years,
        p region technology year i :=
  covers_loops₃ (labelAt 0) (labelAt n) lastLabel hc.map_regions hc.distinct.technologies
    hc.map_years h hat

/-- The loop with at most one constraint for each region, technology and year. -/
theorem covers_technologyYears
    {rows : String → Technology R → String → Lookup (List (Constraint R))}
    {p : String → Technology R → String → Prop}
    (h : ∀ region ∈ ctx.sets.regions, ∀ technology ∈ ctx.model.technologies,
      ∀ year ∈ ctx.sets.years, Covers (rows region technology year) fun i =>
        p region technology year ∧ i = [region, technology.id, year]) :
    Covers (ctx.perTechnologyYear rows) (ctx.technologyYears p) := by
  apply hc.covers_perTechnologyYear 1 h
  rintro region technology year i ⟨-, rfl⟩
  exact ⟨rfl, rfl, rfl⟩

/-- The loop over regions, storages and years; the storage is at position 1. -/
theorem covers_perStorageYear
    {rows : String → Storage R → String → Lookup (List (Constraint R))}
    {p : String → Storage R → String → Key → Prop}
    (h : ∀ region ∈ ctx.sets.regions, ∀ storage ∈ ctx.model.storage,
      ∀ year ∈ ctx.sets.years, Covers (rows region storage year) (p region storage year))
    (hat : ∀ region storage year i, p region storage year i →
      labelAt 0 i = region ∧ labelAt 1 i = storage.id ∧ lastLabel i = year) :
    Covers (perStorageYear ctx rows) fun i => ∃ region ∈ ctx.sets.regions,
      ∃ storage ∈ ctx.model.storage, ∃ year ∈ ctx.sets.years, p region storage year i :=
  covers_loops₃ (labelAt 0) (labelAt 1) lastLabel hc.map_regions hc.distinct.storage
    hc.map_years h hat

/-- The loop with a constraint for each timeslice, for some regions, storages and years. -/
theorem covers_storageSlices
    {rows : String → Storage R → String → Lookup (List (Constraint R))}
    {p : String → Storage R → String → Prop}
    (h : ∀ region ∈ ctx.sets.regions, ∀ storage ∈ ctx.model.storage,
      ∀ year ∈ ctx.sets.years, Covers (rows region storage year) fun i =>
        p region storage year ∧ ∃ timeslice ∈ ctx.sets.timeslices,
          i = [region, storage.id, timeslice, year]) :
    Covers (perStorageYear ctx rows) (ctx.storageSlices p) := by
  apply hc.covers_perStorageYear h
  rintro region storage year i ⟨-, timeslice, -, rfl⟩
  exact ⟨rfl, rfl, rfl⟩

/-- The loop over regions, commodities and years; the commodity is at a position `n`. -/
theorem covers_perCommodityYear
    {rows : String → Commodity R → String → Lookup (List (Constraint R))}
    {p : String → Commodity R → String → Key → Prop} (n : Nat)
    (h : ∀ region ∈ ctx.sets.regions, ∀ commodity ∈ ctx.model.commodities,
      ∀ year ∈ ctx.sets.years, Covers (rows region commodity year) (p region commodity year))
    (hat : ∀ region commodity year i, p region commodity year i →
      labelAt 0 i = region ∧ labelAt n i = commodity.id ∧ lastLabel i = year) :
    Covers (perCommodityYear ctx rows) fun i => ∃ region ∈ ctx.sets.regions,
      ∃ commodity ∈ ctx.model.commodities, ∃ year ∈ ctx.sets.years,
        p region commodity year i :=
  covers_loops₃ (labelAt 0) (labelAt n) lastLabel hc.map_regions hc.distinct.commodities
    hc.map_years h hat

end Context.Orderly

end EnergyPlan
