/-
# One chronology for all that a model is made of

The years of a model stand in three places: in the time structure as they were given, in the
links from each year to the next, and in the index sets as labels. Storage walks along the
labels, growth follows the links back, and discounting counts from the first and the last year
given. The order of labels is that of their years and not that of their texts (as text, 100
would be before 5 and -1 before -2), so once the given years increase, which is what a time
structure is checked for, all of these tell the same story.

Key definitions: `TimeStructure.Chronology`.
Key theorems: `previousYear_getElem_succ`, `previousYear_firstYear`, `isGreatest_getElem`,
`withPrevious_yearLabels`, `chronology_of_check`.
-/
import EnergyPlan.Program.Store
import EnergyPlan.Proofs.Exact
import EnergyPlan.Proofs.References
import EnergyPlan.Proofs.Timing

namespace EnergyPlan

open Config

/-! ### The years of an increasing list -/

/-- In an increasing list the entry before an entry is the greatest one below it. -/
theorem isGreatest_getElem {years : List Int} (h : years.Pairwise (· < ·)) {i : Nat}
    (hi : i + 1 < years.length) :
    IsGreatest {year | year ∈ years ∧ year < years[i + 1]} years[i] := by
  have hlt := List.pairwise_iff_getElem.1 h
  constructor
  · exact ⟨List.getElem_mem _, hlt i (i + 1) _ hi (by omega)⟩
  · rintro year ⟨hm, hbelow⟩
    obtain ⟨j, hj, rfl⟩ := List.getElem_of_mem hm
    -- an entry after the one before is not below the next
    by_contra hnot
    by_cases hji : j ≤ i
    · rcases Nat.lt_or_eq_of_le hji with hji | rfl
      · have := hlt j i hj (by omega) hji
        omega
      · omega
    · by_cases heq : j = i + 1
      · subst heq
        omega
      · have := hlt (i + 1) j hi hj (by omega)
        omega

namespace TimeStructure

variable {R : Type} {time : TimeStructure R}

theorem head?_years (hne : time.years ≠ []) : time.years.head? = some time.firstYear := by
  obtain ⟨first, rest, hsplit⟩ := List.exists_cons_of_ne_nil hne
  simp [firstYear, hsplit]

theorem getLast?_years (hne : time.years ≠ []) : time.years.getLast? = some time.lastYear := by
  rw [lastYear, List.getLastD_eq_getLast?, List.getLast?_eq_some_getLast hne, Option.getD_some]

section

variable (hnext : time.nextYear = successors (time.years.mergeSort (· ≤ ·)))
  (hyears : time.years.Pairwise (· < ·))

include hnext hyears

/-- The year before each later year is the one just before it in the list. -/
theorem previousYear_getElem_succ {i : Nat} (hi : i + 1 < time.years.length) :
    time.previousYear time.years[i + 1] = some time.years[i] := by
  rw [previousYear_eq_some_iff hnext hyears, List.mem_iff_getElem]
  have hlength : i < (time.years.zip time.years.tail).length := by
    rw [List.length_zip, List.length_tail]
    omega
  exact ⟨i, hlength, by simp⟩

/-- No year is before the first one. -/
theorem previousYear_firstYear (hne : time.years ≠ []) :
    time.previousYear time.firstYear = none := by
  have hfirst := List.mem_of_mem_head? (head?_years hne)
  rw [← Option.not_isSome_iff_eq_none, isSome_previousYear_iff hnext hyears hfirst]
  rintro ⟨earlier, hm, hlt⟩
  obtain ⟨first, rest, hsplit⟩ := List.exists_cons_of_ne_nil hne
  have heq : time.firstYear = first := by simp [firstYear, hsplit]
  rw [hsplit] at hm hyears
  rcases List.mem_cons.1 hm with rfl | hm
  · omega
  · have := (List.pairwise_cons.1 hyears).1 earlier hm
    omega

/-- Along the labels, the label before each is that of the year before its year. -/
theorem withPrevious_yearLabels (hne : time.years ≠ []) :
    withPrevious time.yearLabels = time.yearLabels.map fun label =>
      ((time.previousYear (yearOf label)).map yearLabel, label) := by
  apply List.ext_getElem
  · simp [withPrevious]
  · intro i _ hi
    rw [List.length_map, yearLabels, List.length_map] at hi
    cases i with
    | zero =>
      have hfirst : time.years[0] = time.firstYear := by
        apply Option.some.inj
        rw [← List.getElem?_eq_getElem hi, ← List.head?_eq_getElem?, head?_years hne]
      simp [withPrevious, yearLabels, yearOf_yearLabel, hfirst,
        previousYear_firstYear hnext hyears hne]
    | succ i =>
      simp [withPrevious, yearLabels, yearOf_yearLabel, previousYear_getElem_succ hnext hyears hi]

end

/-- All parts of a model tell the years in the same order. -/
structure Chronology (time : TimeStructure R) (sets : IndexSets) : Prop where
  /-- The labels of the sets are those of the years in the given order. -/
  labels : sets.years = time.yearLabels
  /-- A label reads back as its year. -/
  read : sets.years.map yearOf = time.years
  /-- The first year of the time structure has the first label. -/
  first : sets.years.head? = some (yearLabel time.firstYear)
  /-- The last year of the time structure has the last label. -/
  last : sets.years.getLast? = some (yearLabel time.lastYear)
  /-- No year is before the first one. -/
  start : time.previousYear time.firstYear = none
  /-- The year before a later one is just before it in the list, and the greatest one below it. -/
  previous : ∀ i (hi : i + 1 < time.years.length),
    time.previousYear time.years[i + 1] = some time.years[i] ∧
      IsGreatest {year | year ∈ time.years ∧ year < time.years[i + 1]} time.years[i]
  /-- Walking along the labels is following the years back. -/
  along : withPrevious sets.years = sets.years.map fun label =>
    ((time.previousYear (yearOf label)).map yearLabel, label)

/-- **All components share one chronology.** A time structure that was read and in which nothing is
wrong, and the sets of any model over it, tell the years in one order. -/
theorem chronology_of_check [Zero R] [One R] [Add R] [Sub R] [Div R] [Neg R] [LT R] [DecidableLT R]
    [Scalar R] {definition : Node} {tolerance : R} {model : EnergyModel R} {sets : IndexSets}
    (ht : ofNode definition = .ok time) (hcheck : time.check tolerance = [])
    (hmodel : model.time = time) (hs : deriveSets model = .ok sets) : time.Chronology sets := by
  have hnext := nextYear_eq ht
  have hne := years_ne_nil ht
  have hyears : time.years.Pairwise (· < ·) := by
    simp only [check, List.append_eq_nil_iff] at hcheck
    exact pairwise_lt_of_checkYears hcheck.1.1.1.1
  have hlabels : sets.years = time.yearLabels := by
    rw [← (deriveSets_eq_ok_iff.1 hs).1, IndexSets.ofModel, hmodel, mergeSort_years hyears,
      yearLabels]
  constructor
  case labels => exact hlabels
  case read => simp [hlabels, yearLabels, Function.comp_def, yearOf_yearLabel]
  case first => rw [hlabels, yearLabels, List.head?_map, head?_years hne, Option.map_some]
  case last => rw [hlabels, yearLabels, List.getLast?_map, getLast?_years hne, Option.map_some]
  case start => exact previousYear_firstYear hnext hyears hne
  case previous =>
    exact fun i hi => ⟨previousYear_getElem_succ hnext hyears hi, isGreatest_getElem hyears hi⟩
  case along =>
    rw [hlabels]
    exact withPrevious_yearLabels hnext hyears hne

/-- Four years whose labels would stand in another order as text. -/
def unevenYears : Node :=
  .mapping [("years", .sequence [.plain "-20", .plain "-3", .plain "5", .plain "100"])]

/-- Before the year 5 is the year -3, and nothing is before the year -20. -/
theorem chronology_of_check_uneven :
    ∃ (time : TimeStructure Rat) (model : EnergyModel Rat) (sets : IndexSets),
      ofNode unevenYears = .ok time ∧ time.check 0 = [] ∧ model.time = time ∧
      deriveSets model = .ok sets ∧ time.Chronology sets ∧
      sets.years = ["-20", "-3", "5", "100"] ∧ time.previousYear 5 = some (-3) ∧
      time.previousYear (-20) = none := by
  have hany : (ofNode (R := Rat) unevenYears).toOption.any (fun time =>
      decide (time.check 0 = [] ∧ time.years = [-20, -3, 5, 100])) = true := by decide +kernel
  obtain ⟨time, ht, htest⟩ := Exact.exists_ok_of_any hany
  obtain ⟨hcheck, hyears⟩ := of_decide_eq_true htest
  have hs : deriveSets { time := time : EnergyModel Rat } = .ok (.ofModel { time := time }) := rfl
  have hshared : time.Chronology (.ofModel { time := time }) := chronology_of_check ht hcheck rfl hs
  refine ⟨time, { time := time }, _, ht, hcheck, rfl, hs, hshared, ?_, ?_, ?_⟩
  · rw [hshared.labels, yearLabels, hyears]
    decide +kernel
  · simpa [hyears] using (hshared.previous 1 (by simp [hyears])).1
  · simpa [firstYear, hyears] using hshared.start

end TimeStructure

end EnergyPlan
