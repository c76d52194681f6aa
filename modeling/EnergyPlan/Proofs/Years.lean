/-
# Years and their labels

A label of a year reads back as the year, so distinct years have distinct labels. Years in
which nothing is wrong increase, and a year has one before it exactly if some year of the
model is earlier.

Key theorems: `yearOf_yearLabel`, `nodup_numberedLabels`, `mergeSort_years`,
`pairwise_lt_of_checkYears`, `getElem?_successors_iff`, `previousYear_eq_some_iff`,
`isSome_previousYear_iff`.
-/
import EnergyPlan.Time.Definition
import Mathlib.Data.List.Nodup

namespace EnergyPlan

open Decimal

/-! ### Labels -/

/-- The label of a year names the year. -/
theorem yearOf_yearLabel (year : Int) : yearOf (yearLabel year) = year := by
  have hread : readInt (yearLabel year).toList = some year := readInt_toString year
  rw [yearOf, hread]
  rfl

theorem yearLabel_injective : Function.Injective yearLabel :=
  Function.LeftInverse.injective yearOf_yearLabel

/-- Numbered labels are distinct. -/
theorem nodup_numberedLabels (initial : String) (count : Nat) :
    (numberedLabels initial count).Nodup := by
  refine List.Nodup.map (fun i j h => ?_) List.nodup_range
  have hrepr : (toString (i + 1) : String) = toString (j + 1) := by
    apply String.toList_inj.1
    have hl := congrArg String.toList h
    simp only [String.toList_append] at hl
    exact List.append_cancel_left hl
  have hlabel : yearLabel (Int.ofNat (i + 1)) = yearLabel (Int.ofNat (j + 1)) := hrepr
  have := Int.ofNat.inj (yearLabel_injective hlabel)
  omega

/-! ### The order of the years -/

/-- Years that increase are sorted already. -/
theorem mergeSort_years {years : List Int} (h : years.Pairwise (· < ·)) :
    years.mergeSort (· ≤ ·) = years :=
  List.mergeSort_of_pairwise (h.imp fun hab => decide_eq_true (Int.le_of_lt hab))

namespace TimeStructure

/-- Years in which nothing is wrong increase. -/
theorem pairwise_lt_of_checkYears {years : List Int} (h : checkYears years = []) :
    years.Pairwise (· < ·) := by
  rw [← List.isChain_iff_pairwise]
  induction years with
  | nil => exact .nil
  | cons a rest ih =>
    cases rest with
    | nil => exact .singleton a
    | cons b rest =>
      rw [checkYears, List.append_eq_nil_iff] at h
      refine .cons_cons ?_ (ih h.2)
      by_contra hab
      rw [if_pos (Int.not_lt.1 hab)] at h
      cases h.1

end TimeStructure

/-! ### The year before a year -/

theorem getElem?_foldl_insert_pair {links : List (Int × Int)}
    (hn : (links.map Prod.fst).Nodup) (table : Std.ExtTreeMap Int Int) {a b : Int}
    (hempty : ∀ link ∈ links, table[link.1]? = none) :
    (links.foldl (fun next (a, b) => next.insert a b) table)[a]? = some b ↔
      (a, b) ∈ links ∨ table[a]? = some b := by
  induction links generalizing table with
  | nil => simp
  | cons link rest ih =>
    rw [List.map_cons, List.nodup_cons] at hn
    have hkept : ∀ l ∈ rest, (table.insert link.1 link.2)[l.1]? = none := by
      intro l hl
      have hne : link.1 ≠ l.1 := fun he => hn.1 (he ▸ List.mem_map_of_mem hl)
      rw [Std.ExtTreeMap.getElem?_insert, if_neg fun he => hne (Std.compare_eq_iff_eq.1 he)]
      exact hempty l (List.mem_cons_of_mem link hl)
    have hhere : (table.insert link.1 link.2)[a]? = some b ↔
        (a, b) = link ∨ table[a]? = some b := by
      by_cases he : link.1 = a
      · subst he
        rw [Std.ExtTreeMap.getElem?_insert_self, hempty link List.mem_cons_self,
          or_iff_left (by simp), Option.some_inj, Prod.ext_iff]
        exact ⟨fun h => ⟨rfl, h.symm⟩, fun h => h.2.symm⟩
      · rw [Std.ExtTreeMap.getElem?_insert, if_neg fun h => he (Std.compare_eq_iff_eq.1 h)]
        refine (or_iff_right fun h => he ?_).symm
        rw [← h]
    rw [List.foldl_cons, ih hn.2 _ hkept, hhere, List.mem_cons, ← or_assoc,
      or_comm (a := (a, b) ∈ rest)]

theorem nodup_map_fst_zip_tail {entries : List Int} (h : entries.Nodup) :
    ((entries.zip entries.tail).map Prod.fst).Nodup := by
  induction entries with
  | nil => exact .nil
  | cons a rest ih =>
    cases rest with
    | nil => exact .nil
    | cons b rest =>
      rw [List.nodup_cons] at h
      refine List.nodup_cons.2 ⟨fun hm => h.1 ?_, ih h.2⟩
      obtain ⟨link, hl, rfl⟩ := List.mem_map.1 hm
      exact (List.of_mem_zip hl).1

/-- What follows an entry of a list without repetitions is the entry after it. -/
theorem getElem?_successors_iff {entries : List Int} (h : entries.Nodup) {a b : Int} :
    (successors entries)[a]? = some b ↔ (a, b) ∈ entries.zip entries.tail := by
  rw [successors, getElem?_foldl_insert_pair (nodup_map_fst_zip_tail h) ∅ (by simp)]
  simp

/-- An entry of an increasing list has one before it exactly if an earlier one is there. -/
theorem mem_tail_iff {entries : List Int} (h : entries.Pairwise (· < ·)) {a : Int} :
    a ∈ entries.tail ↔ a ∈ entries ∧ ∃ b ∈ entries, b < a := by
  cases entries with
  | nil => simp
  | cons first rest =>
    have hfirst := (List.pairwise_cons.1 h).1
    constructor
    · exact fun ha => ⟨List.mem_cons_of_mem first ha, first, List.mem_cons_self, hfirst a ha⟩
    · rintro ⟨ha, b, hb, hlt⟩
      rcases List.mem_cons.1 ha with rfl | ha
      · rcases List.mem_cons.1 hb with rfl | hb
        · omega
        · have := hfirst b hb
          omega
      · exact ha

namespace TimeStructure

variable {R : Type} {time : TimeStructure R}

/-- The year before a year is the one that the year follows in the list of the years. -/
theorem previousYear_eq_some_iff
    (hnext : time.nextYear = successors (time.years.mergeSort (· ≤ ·)))
    (hyears : time.years.Pairwise (· < ·)) {year previous : Int} :
    time.previousYear year = some previous ↔
      (previous, year) ∈ time.years.zip time.years.tail := by
  have hsorted := mergeSort_years hyears
  have hn : time.years.Nodup := hyears.imp fun {a b} hab => Int.ne_of_lt hab
  have hlink : ∀ {link : Int × Int}, link ∈ time.nextYear.toList ↔
      link ∈ time.years.zip time.years.tail := by
    rintro ⟨a, b⟩
    rw [hnext, hsorted, Std.ExtTreeMap.mem_toList_iff_getElem?_eq_some]
    exact getElem?_successors_iff hn
  constructor
  · intro h
    obtain ⟨link, hfind, rfl⟩ := Option.map_eq_some_iff.1 h
    have hfound := List.find?_some hfind
    obtain rfl : link.2 = year := beq_iff_eq.1 hfound
    exact hlink.1 (List.mem_of_find?_eq_some hfind)
  · intro h
    have hsome : (time.nextYear.toList.find? fun link => link.2 == year).isSome = true :=
      List.find?_isSome.2 ⟨_, hlink.2 h, beq_self_eq_true year⟩
    obtain ⟨link, hfind⟩ := Option.isSome_iff_exists.1 hsome
    have hfound := List.find?_some hfind
    have hyear : link.2 = year := beq_iff_eq.1 hfound
    -- a year follows only one year, since it is listed once
    have hsnd : ((time.years.zip time.years.tail).map Prod.snd).Nodup := by
      rw [List.map_snd_zip (by rw [List.length_tail]; omega)]
      exact hn.sublist (List.tail_sublist _)
    have hsame : link = (previous, year) :=
      List.inj_on_of_nodup_map hsnd (hlink.1 (List.mem_of_find?_eq_some hfind)) h hyear
    rw [previousYear, hfind, hsame]
    rfl

/-- A year of a model has one before it exactly if some year of the model is earlier. -/
theorem isSome_previousYear_iff (hnext : time.nextYear = successors (time.years.mergeSort (· ≤ ·)))
    (hyears : time.years.Pairwise (· < ·)) {year : Int} (hy : year ∈ time.years) :
    (time.previousYear year).isSome = true ↔ ∃ earlier ∈ time.years, earlier < year := by
  have htail : year ∈ time.years.tail ↔ ∃ a, (a, year) ∈ time.years.zip time.years.tail := by
    have hsnd : (time.years.zip time.years.tail).map Prod.snd = time.years.tail :=
      List.map_snd_zip (by rw [List.length_tail]; omega)
    constructor
    · intro hm
      rw [← hsnd] at hm
      obtain ⟨⟨a, b⟩, ha, rfl⟩ := List.mem_map.1 hm
      exact ⟨a, ha⟩
    · exact fun ⟨a, ha⟩ => (List.of_mem_zip ha).2
  rw [Option.isSome_iff_exists]
  simp only [previousYear_eq_some_iff hnext hyears]
  exact htail.symm.trans ((mem_tail_iff hyears).trans (and_iff_right hy))

/-- The year before a year is one of the model. -/
theorem mem_of_previousYear (hnext : time.nextYear = successors (time.years.mergeSort (· ≤ ·)))
    (hn : time.years.Nodup) {year previous : Int}
    (h : time.previousYear year = some previous) : previous ∈ time.years := by
  obtain ⟨link, hl, rfl⟩ := Option.map_eq_some_iff.1 h
  have hm : (link.1, link.2) ∈ time.nextYear.toList := List.mem_of_find?_eq_some hl
  rw [hnext, Std.ExtTreeMap.mem_toList_iff_getElem?_eq_some] at hm
  have hsorted : (time.years.mergeSort (· ≤ ·)).Nodup :=
    (List.mergeSort_perm _ _).nodup_iff.2 hn
  exact List.mem_mergeSort.1 (List.of_mem_zip ((getElem?_successors_iff hsorted).1 hm)).1

end TimeStructure

end EnergyPlan
