/-
# What the shares of a year add up to

A time structure in which nothing is wrong has shares between zero and one, and over all
labels that have a share of a model year they add up to one within the tolerance. A label
need not be a timeslice: a share that is given under another label is kept and counted, and
the timeslices take so much less of the year. So the timeslices share each year among them
exactly if no other label has a share.

Key definitions: `TimeStructure.splitTotal`, `TimeStructure.strayTotal`,
`TimeStructure.Distributed`.
Key theorems: `length_of_find?_yearSplit`, `yearTotal_eq`, `shares_of_check`.
-/
import EnergyPlan.Proofs.Exact
import EnergyPlan.Proofs.Timing

namespace EnergyPlan.TimeStructure

open Config Fields

/-! ### Keys of shares -/

section

variable {R : Type}

/-- Whether every key of a tensor has as many labels as the tensor has dimensions. -/
def KeysFit (t : Tensor R) : Prop :=
  ∀ key value, t.find? key = some value → key.length = t.dimensions.length

theorem keysFit_empty (dimensions : List Dimension) :
    KeysFit (Tensor.empty dimensions : Tensor R) := by
  intro key value h
  rw [Tensor.find?, Tensor.empty, Std.ExtTreeMap.getElem?_empty] at h
  cases h

theorem KeysFit.insert {t : Tensor R} (h : KeysFit t) {key : Key}
    (hk : key.length = t.dimensions.length) (value : R) : KeysFit (t.insert key value) := by
  intro k v hv
  rw [Tensor.find?_insert] at hv
  by_cases hkey : key = k
  · rw [← hkey]
    exact hk
  · rw [if_neg hkey] at hv
    exact h k v hv

/-- A fold whose steps keep the dimensions, and write under keys that fit, leaves a tensor whose
keys fit. -/
theorem keysFit_foldl {α : Type} {step : Tensor R → α → Tensor R} {items : List α}
    {t : Tensor R} (h : KeysFit t)
    (hstep : ∀ u, u.dimensions = t.dimensions → KeysFit u → ∀ a ∈ items,
      KeysFit (step u a) ∧ (step u a).dimensions = t.dimensions) :
    KeysFit (items.foldl step t) := by
  induction items generalizing t with
  | nil => exact h
  | cons a rest ih =>
    obtain ⟨hfit, hdim⟩ := hstep t rfl h a List.mem_cons_self
    apply ih hfit
    intro u hu hfit' b hb
    rw [hdim] at hu ⊢
    exact hstep u hu hfit' b (List.mem_cons_of_mem a hb)

theorem length_of_mem_combined {labels : List (List String)} {key : Key}
    (h : key ∈ labels.foldr (fun here keys => here.flatMap fun label => keys.map (label :: ·))
      [[]]) : key.length = labels.length := by
  induction labels generalizing key with
  | nil => rw [List.mem_singleton.1 h]; rfl
  | cons here rest ih =>
    obtain ⟨label, -, hl⟩ := List.mem_flatMap.1 h
    obtain ⟨below, hb, rfl⟩ := List.mem_map.1 hl
    rw [List.length_cons, List.length_cons, ih hb]

theorem keysFit_uniform {dimensions : List Dimension} {labels : List (List String)}
    (hl : labels.length = dimensions.length) (value : R) :
    KeysFit (uniform dimensions labels value) := by
  unfold uniform
  apply keysFit_foldl (keysFit_empty dimensions)
  intro u hu hfit key hk
  have hlen : key.length = u.dimensions.length := by
    rw [length_of_mem_combined hk, hl, hu]
    rfl
  exact ⟨hfit.insert hlen value, hu⟩

variable [Scalar R]

theorem keysFit_readLeaves (path : String) (dimensions : List Dimension) (expanded : Node) :
    KeysFit (readLeaves path dimensions expanded : Reading (Tensor R)).value := by
  rw [readLeaves, Noted.value_foldlM]
  apply keysFit_foldl (keysFit_empty dimensions)
  intro u hu hfit leaf _
  dsimp only
  split
  · next hlen _ =>
    have hlen : leaf.1.length = u.dimensions.length := by
      rw [hu]
      exact of_decide_eq_true hlen
    exact ⟨hfit.insert hlen _, hu⟩
  · exact ⟨hfit, hu⟩

theorem keysFit_readShares {definition : Node} {sets : MemberSets} {field : String}
    {dimensions : List Dimension} {standard : Tensor R} {shares : Reading (Tensor R)}
    (hs : KeysFit standard)
    (h : readShares definition sets field dimensions standard = .ok shares) :
    KeysFit shares.value := by
  unfold readShares at h
  split at h
  · cases h
    exact hs
  · obtain ⟨expanded, -, h⟩ := bind_eq_ok h
    cases h
    exact keysFit_readLeaves (timePath field) dimensions expanded

/-- A share is given under a label and a year. -/
theorem length_of_find?_yearSplit [One R] [Div R] {definition : Node} {time : TimeStructure R}
    (h : ofNode definition = .ok time) {key : Key} {share : R}
    (hk : time.yearSplit.find? key = some share) : key.length = 2 := by
  obtain ⟨elements, years, slicing, tensors, -, ht, hc, -⟩ := ofNode_eq_ok h
  obtain ⟨yearSplit, hy, ht⟩ := bind_eq_ok ht
  obtain ⟨daySplit, -, ht⟩ := bind_eq_ok ht
  obtain ⟨days, -, ht⟩ := bind_eq_ok ht
  cases ht
  have hsplit : yearSplit.value = time.yearSplit :=
    congrArg Prod.fst (Noted.checked_eq_ok_iff.1 hc).2
  have hfit : KeysFit time.yearSplit := by
    rw [← hsplit]
    exact keysFit_readShares (keysFit_uniform rfl _) hy
  rw [hfit key share hk, dimensions_yearSplit h]
  rfl

end

/-! ### The total of a year -/

section

variable {R : Type}

/-- The shares of a year, under whatever labels. -/
def sharesOf (time : TimeStructure R) (year : String) : List (Key × R) :=
  time.yearSplit.entries.filter fun (key, _) => key[1]? == some year

/-- Whether a share is given under a timeslice. -/
def ofTimeslice (time : TimeStructure R) (entry : Key × R) : Bool :=
  entry.1.head?.any fun slice => time.timeslices.contains slice

variable {time : TimeStructure R} {year : String}

theorem mem_sharesOf {key : Key} {share : R} : (key, share) ∈ time.sharesOf year ↔
    time.yearSplit.find? key = some share ∧ key[1]? = some year := by
  rw [sharesOf, List.mem_filter, beq_iff_eq]
  exact and_congr_left' Std.ExtTreeMap.mem_toList_iff_getElem?_eq_some

theorem nodup_sharesOf : (time.sharesOf year).Nodup := by
  have hkeys : time.yearSplit.entries.Nodup :=
    Std.ExtTreeMap.distinct_keys_toList.imp fun {a b} hne hab =>
      hne (Std.compare_eq_iff_eq.2 (congrArg Prod.fst hab))
  exact hkeys.filter _

variable [AddCommMonoid R]

/-- What the timeslices take of a year; one without a share takes nothing. -/
def splitTotal (time : TimeStructure R) (year : String) : R :=
  ∑ slice ∈ time.timeslices.toFinset, (time.yearSplit.find? [slice, year]).getD 0

/-- What labels that are no timeslices take of a year. -/
def strayTotal (time : TimeStructure R) (year : String) : R :=
  (((time.sharesOf year).filter fun entry => !time.ofTimeslice entry).map Prod.snd).sum

/-- The shares of the timeslices, one for each timeslice that has one. -/
theorem sum_ofTimeslice
    (hkeys : ∀ key share, time.yearSplit.find? key = some share → key.length = 2) :
    (((time.sharesOf year).filter time.ofTimeslice).map Prod.snd).sum =
      time.splitTotal year := by
  classical
  -- an entry of the year is determined by its label
  have hentry : ∀ entry ∈ ((time.sharesOf year).filter time.ofTimeslice).toFinset,
      ∃ slice ∈ time.timeslices, entry.1 = [slice, year] ∧
        time.yearSplit.find? [slice, year] = some entry.2 := by
    intro entry he
    obtain ⟨hm, hslice⟩ := List.mem_filter.1 (List.mem_toFinset.1 he)
    obtain ⟨key, share⟩ := entry
    obtain ⟨hfind, hyear⟩ := mem_sharesOf.1 hm
    obtain ⟨slice, label, rfl⟩ := List.length_eq_two.1 (hkeys key share hfind)
    obtain rfl : label = year := Option.some_inj.1 hyear
    exact ⟨slice, by simpa [ofTimeslice] using hslice, rfl, hfind⟩
  have hhead : ∀ slice : String, ([slice, year] : Key).headD "" = slice := fun _ => rfl
  rw [splitTotal, ← List.sum_toFinset Prod.snd (nodup_sharesOf.filter _)]
  apply Finset.sum_of_injOn fun entry => entry.1.headD ""
  case he =>
    intro a ha b hb hab
    obtain ⟨slice, -, hka, hfa⟩ := hentry a ha
    obtain ⟨slice', -, hkb, hfb⟩ := hentry b hb
    dsimp only at hab
    rw [hka, hkb, hhead, hhead] at hab
    subst hab
    exact Prod.ext (hka.trans hkb.symm) (Option.some_inj.1 (hfa.symm.trans hfb))
  case hest =>
    intro a ha
    obtain ⟨slice, hs, hk, -⟩ := hentry a ha
    show a.1.headD "" ∈ _
    rw [hk, hhead, Finset.mem_coe, List.mem_toFinset]
    exact hs
  case h' =>
    intro slice hs hno
    cases hfind : time.yearSplit.find? [slice, year] with
    | none => rfl
    | some share =>
      refine absurd ⟨([slice, year], share), ?_, rfl⟩ hno
      rw [Finset.mem_coe, List.mem_toFinset, List.mem_filter]
      refine ⟨mem_sharesOf.2 ⟨hfind, rfl⟩, ?_⟩
      simpa [ofTimeslice] using hs
  case h =>
    intro entry he
    obtain ⟨slice, -, hk, hfind⟩ := hentry entry he
    rw [hk, hhead, hfind]
    rfl

/-- The checked total of a year is what its timeslices take of it, and what other labels take. -/
theorem yearTotal_eq
    (hkeys : ∀ key share, time.yearSplit.find? key = some share → key.length = 2) :
    time.yearTotal year = time.splitTotal year + time.strayTotal year := by
  have hsplit := (List.filter_append_perm time.ofTimeslice (time.sharesOf year)).map Prod.snd
  calc time.yearTotal year
      = ((time.sharesOf year).map Prod.snd).sum := by
        rw [List.sum_eq_foldl, List.foldl_map]
        rfl
    _ = (((time.sharesOf year).filter time.ofTimeslice).map Prod.snd).sum +
          time.strayTotal year := by
        rw [← hsplit.sum_eq, List.map_append, List.sum_append]
        rfl
    _ = time.splitTotal year + time.strayTotal year := by rw [sum_ofTimeslice hkeys]

/-- Without a share under another label nothing is taken by other labels. -/
theorem strayTotal_eq_zero (h : ∀ key share, time.yearSplit.find? key = some share →
      ∃ slice ∈ time.timeslices, ∃ year ∈ time.yearLabels, key = [slice, year])
    (year : String) : time.strayTotal year = 0 := by
  have hnone : (time.sharesOf year).filter (fun entry => !time.ofTimeslice entry) = [] := by
    rw [List.filter_eq_nil_iff]
    intro entry he
    obtain ⟨slice, hs, label, -, hk⟩ := h entry.1 entry.2 (mem_sharesOf.1 he).1
    simp [ofTimeslice, hk, hs]
  rw [strayTotal, hnone]
  rfl

end

/-! ### Accepted shares -/

variable {R : Type} [Field R] [LinearOrder R]

/-- Whether the timeslices share each year among them: a share is that of a timeslice in a year of
the model, and those of a year add up to one within a tolerance. -/
def Distributed (time : TimeStructure R) (tolerance : R) : Prop :=
  (∀ key share, time.yearSplit.find? key = some share →
    ∃ slice ∈ time.timeslices, ∃ year ∈ time.yearLabels, key = [slice, year]) ∧
  ∀ year ∈ time.yearLabels, |time.splitTotal year - 1| ≤ tolerance

theorem magnitude_eq_abs [IsStrictOrderedRing R] (x : R) : magnitude x = |x| := by
  unfold magnitude
  by_cases hx : x < 0
  · rw [if_pos hx, abs_of_neg hx]
  · rw [if_neg hx, abs_of_nonneg (not_lt.1 hx)]

variable {time : TimeStructure R} {tolerance : R}

variable [Scalar R]

/-- In a time structure without violations every share is a fraction. -/
theorem fraction_of_check (h : time.check tolerance = []) {key : Key} {share : R}
    (hk : time.yearSplit.find? key = some share) : 0 ≤ share ∧ share ≤ 1 := by
  simp only [check, List.append_eq_nil_iff] at h
  obtain ⟨⟨⟨⟨-, hentries⟩, -⟩, -⟩, -⟩ := h
  have hmem : (key, share) ∈ time.yearSplit.entries :=
    Std.ExtTreeMap.mem_toList_iff_getElem?_eq_some.2 hk
  have hinside := List.filterMap_eq_nil_iff.1 hentries _ hmem
  by_cases hout : outsideUnit share
  · dsimp only at hinside
    rw [if_pos hout] at hinside
    cases hinside
  · rw [outsideUnit, Bool.or_eq_true, decide_eq_true_eq, decide_eq_true_eq, not_or, not_lt,
      not_lt] at hout
    exact hout

variable [IsStrictOrderedRing R]

/-- In a time structure without violations the checked total of every year is near one. -/
theorem yearTotal_of_check (h : time.check tolerance = []) {year : String}
    (hy : year ∈ time.yearLabels) : |time.yearTotal year - 1| ≤ tolerance := by
  simp only [check, List.append_eq_nil_iff] at h
  obtain ⟨⟨⟨-, htotals⟩, -⟩, -⟩ := h
  have hnear := List.filterMap_eq_nil_iff.1 htotals year hy
  by_cases hfar : tolerance < magnitude (time.yearTotal year - 1)
  · dsimp only at hnear
    rw [if_pos hfar] at hnear
    cases hnear
  · rw [← magnitude_eq_abs]
    exact not_lt.1 hfar

/-- **Accepted shares add up over all labels.** In a time structure that was read and has no
violations, each share is a fraction given under one label and one year; what the timeslices
and the other labels take of a model year is the whole year within the tolerance; and the
timeslices share the years among them exactly if every share is that of a timeslice in a
year of the model. -/
theorem shares_of_check {definition : Node} (h : ofNode definition = .ok time)
    (hc : time.check tolerance = []) :
    (∀ key share, time.yearSplit.find? key = some share →
      key.length = 2 ∧ 0 ≤ share ∧ share ≤ 1) ∧
    (∀ year ∈ time.yearLabels, 0 ≤ time.strayTotal year ∧
      |time.splitTotal year + time.strayTotal year - 1| ≤ tolerance) ∧
    (time.Distributed tolerance ↔ ∀ key share, time.yearSplit.find? key = some share →
      ∃ slice ∈ time.timeslices, ∃ year ∈ time.yearLabels, key = [slice, year]) := by
  have hkeys : ∀ key share, time.yearSplit.find? key = some share → key.length = 2 :=
    fun key share hk => length_of_find?_yearSplit h hk
  have hnear : ∀ year ∈ time.yearLabels,
      |time.splitTotal year + time.strayTotal year - 1| ≤ tolerance := by
    intro year hy
    rw [← yearTotal_eq hkeys]
    exact yearTotal_of_check hc hy
  refine ⟨fun key share hk => ⟨hkeys key share hk, fraction_of_check hc hk⟩, ?_, ?_⟩
  · intro year hy
    refine ⟨List.sum_nonneg fun share hs => ?_, hnear year hy⟩
    obtain ⟨entry, he, rfl⟩ := List.mem_map.1 hs
    exact (fraction_of_check hc (mem_sharesOf.1 (List.mem_filter.1 he).1).1).1
  · constructor
    · exact fun hd => hd.1
    · intro hlabels
      refine ⟨hlabels, fun year hy => ?_⟩
      have hyear := hnear year hy
      rw [strayTotal_eq_zero hlabels, add_zero] at hyear
      exact hyear

/-- A year of two timeslices; one half of it is summer, the other half is under a label. -/
def halves (label : String) : Node :=
  .mapping [
    ("years", .sequence [.plain "2020"]),
    ("timeslices", .sequence [.plain "summer", .plain "winter"]),
    ("year_split", .mapping [
      ("summer", .mapping [("2020", .plain "0.5")]),
      (label, .mapping [("2020", .plain "0.5")])])]

/-- Two timeslices with a half each share the year among them. -/
theorem shares_of_check_sample :
    ∃ (time : TimeStructure Rat) (tolerance : Rat), ofNode (halves "winter") = .ok time ∧
      time.check tolerance = [] ∧ time.strayTotal "2020" = 0 ∧
      |time.splitTotal "2020" + time.strayTotal "2020" - 1| ≤ tolerance := by
  have hany : (ofNode (R := Rat) (halves "winter")).toOption.any (fun time =>
      decide (time.check (1 / 1000000 : Rat) = [] ∧ "2020" ∈ time.yearLabels ∧
        time.strayTotal "2020" = 0)) = true := by decide +kernel
  obtain ⟨time, h, htest⟩ := Exact.exists_ok_of_any hany
  obtain ⟨hc, hy, hstray⟩ := of_decide_eq_true htest
  obtain ⟨-, htotals, -⟩ := shares_of_check h hc
  exact ⟨time, _, h, hc, hstray, (htotals "2020" hy).2⟩

/-- A share under a mistyped label is accepted, and the timeslices are left with half a year. -/
theorem not_distributed_mistyped :
    ∃ time : TimeStructure Rat, ofNode (halves "wintre") = .ok time ∧
      time.check (1 / 1000000) = [] ∧ time.timeslices = ["summer", "winter"] ∧
      time.yearSplit.find? ["wintre", "2020"] = some (1 / 2) ∧
      time.splitTotal "2020" = 1 / 2 ∧ ¬ time.Distributed (1 / 1000000) := by
  have hany : (ofNode (R := Rat) (halves "wintre")).toOption.any (fun time =>
      decide (time.check (1 / 1000000 : Rat) = [] ∧ time.timeslices = ["summer", "winter"] ∧
        time.yearSplit.find? ["wintre", "2020"] = some (1 / 2) ∧
        time.splitTotal "2020" = 1 / 2)) = true := by decide +kernel
  obtain ⟨time, h, htest⟩ := Exact.exists_ok_of_any hany
  obtain ⟨hc, hslices, hfind, htotal⟩ := of_decide_eq_true htest
  refine ⟨time, h, hc, hslices, hfind, htotal, fun hd => ?_⟩
  obtain ⟨slice, hs, label, -, hk⟩ := hd.1 _ _ hfind
  obtain rfl : "wintre" = slice := (List.cons.inj hk).1
  rw [hslices] at hs
  exact absurd hs (by decide)

end EnergyPlan.TimeStructure
