/-
# What a time structure is read from

A time structure that was read came from years and a slicing in which nothing was wrong,
and from shares over them (`ofNode_eq_ok`). It has a year and a timeslice. Its shares are over
the dimensions that they are looked up with, and no member of a part occurs twice in it.

Key theorems: `ofNode_eq_ok`, `nextYear_eq`, `years_ne_nil`, `timeslices_ne_nil`,
`nodup_parts`, `dimensions_yearSplit`.
-/
import EnergyPlan.Proofs.Outcomes
import EnergyPlan.Proofs.Shape
import EnergyPlan.Proofs.Years

namespace EnergyPlan

open Config Text Fields

variable {R : Type} [Scalar R]

namespace TimeStructure

/-- The parts that a time structure was read from. -/
theorem ofNode_eq_ok [One R] [Div R] {definition : Node} {time : TimeStructure R}
    (h : ofNode definition = .ok time) :
    ∃ elements years slicing tensors,
      (readYearsAndSlicing R definition elements).checked = .ok (years, slicing) ∧
      readTensors definition (years.map yearLabel) slicing = .ok tensors ∧
      tensors.checked = .ok (time.yearSplit, time.daySplit, time.daysInDayType) ∧
      time.years = years ∧ time.timeslices = slicing.timeslices ∧
      time.seasons = slicing.seasons ∧ time.dayTypes = slicing.dayTypes ∧
      time.brackets = slicing.brackets ∧
      time.nextYear = successors (years.mergeSort (· ≤ ·)) ∧ elements ≠ [] := by
  unfold ofNode at h
  split at h
  · cases h
  · dsimp only at h
    split at h
    · cases h
    · next hne =>
      obtain ⟨⟨years, slicing⟩, hy, h⟩ := bind_eq_ok h
      obtain ⟨tensors, ht, h⟩ := bind_eq_ok h
      obtain ⟨⟨yearSplit, daySplit, days⟩, hs, h⟩ := bind_eq_ok h
      cases h
      exact ⟨_, years, slicing, tensors, eq_ok_of_mapError hy, eq_ok_of_mapError ht,
        eq_ok_of_mapError hs, rfl, rfl, rfl, rfl, rfl, rfl, fun h => hne (h ▸ rfl)⟩

theorem nextYear_eq [One R] [Div R] {definition : Node} {time : TimeStructure R}
    (h : ofNode definition = .ok time) :
    time.nextYear = successors (time.years.mergeSort (· ≤ ·)) := by
  obtain ⟨elements, years, slicing, tensors, -, -, -, hyears, -, -, -, -, hnext, -⟩ :=
    ofNode_eq_ok h
  rw [hyears, hnext]

/-! ### The years and the timeslices -/

/-- A year that nothing is wrong with was read. -/
theorem isSome_readYear {node : Node} (h : (readYear R node).notes = []) :
    (readYear R node).value.isSome = true := by
  unfold readYear at h ⊢
  dsimp only at h ⊢
  split
  · next hn =>
    rw [hn] at h
    cases h
  · next text hn =>
    rw [hn] at h
    dsimp only at h
    split
    · next hw =>
      rw [hw] at h
      cases h
    · next year hw =>
      rw [hw] at h
      dsimp only at h
      split
      · rfl
      · next hrange =>
        rw [if_neg hrange] at h
        cases h

/-- A time structure that was read has a year. -/
theorem years_ne_nil [One R] [Div R] {definition : Node} {time : TimeStructure R}
    (h : ofNode definition = .ok time) : time.years ≠ [] := by
  obtain ⟨elements, years, slicing, tensors, hc, -, -, hyears, -, -, -, -, -, hne⟩ :=
    ofNode_eq_ok h
  obtain ⟨hnotes, hvalue⟩ := Noted.checked_eq_ok_iff.1 hc
  obtain ⟨node, rest, rfl⟩ := List.exists_cons_of_ne_nil hne
  have hfirst : (readYear R node).notes = [] :=
    (List.append_eq_nil_iff.1 (List.append_eq_nil_iff.1 hnotes).1).1
  obtain ⟨year, hy⟩ := Option.isSome_iff_exists.1 (isSome_readYear hfirst)
  have hread : year ∈ (readYearsAndSlicing R definition (node :: rest)).value.1 :=
    List.mem_filterMap.2 ⟨some year, List.mem_cons.2 (.inl hy.symm), rfl⟩
  rw [hvalue, ← hyears] at hread
  exact List.ne_nil_of_mem hread

/-- A time structure that was read has a timeslice. -/
theorem timeslices_ne_nil [One R] [Div R] {definition : Node} {time : TimeStructure R}
    (h : ofNode definition = .ok time) : time.timeslices ≠ [] := by
  obtain ⟨elements, years, slicing, tensors, hc, -, -, -, hslices, -⟩ := ofNode_eq_ok h
  obtain ⟨hnotes, hvalue⟩ := Noted.checked_eq_ok_iff.1 hc
  have hreported := (List.append_eq_nil_iff.1 (List.append_eq_nil_iff.1
    (List.append_eq_nil_iff.1 hnotes).2).2).1
  have hslicing : (readSlicing definition).value = slicing := congrArg Prod.snd hvalue
  intro hempty
  rw [hslicing, ← hslices, hempty] at hreported
  cases hreported

/-! ### The members of the parts -/

omit [Scalar R]

/-- Labels are read into a list without repetitions, whatever is wrong with them. -/
theorem nodup_readLabels {path : String} {nodes : List Node} {labels : List String}
    (h : labels.Nodup) : ∀ members ∈ (readLabels path labels nodes).value, members.Nodup := by
  induction nodes generalizing labels with
  | nil =>
    intro members hm
    cases hm
    exact h
  | cons node rest ih =>
    intro members hm
    unfold readLabels at hm
    split at hm
    · cases hm
    · next label _ =>
      split at hm
      · exact ih h members hm
      · next hnew =>
        have happend : appendNew labels label = labels ++ [label] := if_neg hnew
        refine ih ?_ members hm
        rw [← happend]
        exact nodup_appendNew h

theorem nodup_readPart {definition : Node} {field initial : String} :
    ∀ members ∈ (readPart definition field initial).value, members.Nodup := by
  intro members hm
  unfold readPart at hm
  split at hm
  · cases hm
  · split at hm
    · split at hm
      · cases hm
        exact nodup_numberedLabels ..
      · cases hm
    · cases hm
  · exact nodup_readLabels .nil members hm
  · cases hm

theorem nodup_getD {listed : Option (List String)} {standard : List String}
    (h : ∀ members ∈ listed, members.Nodup) (hs : standard.Nodup) :
    (listed.getD standard).Nodup := by
  cases listed with
  | none => exact hs
  | some members => exact h members rfl

theorem nodup_foldl_appendNew {texts seen : List String} (h : seen.Nodup) :
    (texts.foldl appendNew seen).Nodup := by
  induction texts generalizing seen with
  | nil => exact h
  | cons s rest ih => exact ih (nodup_appendNew h)

/-- The members of a part are distinct if the listed ones are. -/
theorem nodup_derivePart {timeslices : List String} {part : TimePart} {given : GivenPart}
    (h : ∀ members ∈ given.listed, members.Nodup) :
    (derivePart timeslices part given).value.members.Nodup := by
  unfold derivePart
  split
  · exact nodup_getD h (nodup_foldl_appendNew .nil)
  · dsimp only
    split
    · exact .nil
    · exact nodup_getD h (List.nodup_singleton _)

theorem nodup_readSlicing (definition : Node) :
    (readSlicing definition).value.seasons.members.Nodup ∧
      (readSlicing definition).value.dayTypes.members.Nodup ∧
      (readSlicing definition).value.brackets.members.Nodup := by
  unfold readSlicing
  simp only [Noted.value_bind]
  split
  · exact ⟨nodup_derivePart nodup_readPart, nodup_derivePart nodup_readPart,
      nodup_derivePart nodup_readPart⟩
  · exact ⟨nodup_getD nodup_readPart (List.nodup_singleton _),
      nodup_getD nodup_readPart (List.nodup_singleton _),
      nodup_getD nodup_readPart (List.nodup_singleton _)⟩

variable [Scalar R]

/-- No season, no day type and no time bracket occurs twice. -/
theorem nodup_parts [One R] [Div R] {definition : Node} {time : TimeStructure R}
    (h : ofNode definition = .ok time) :
    time.seasons.members.Nodup ∧ time.dayTypes.members.Nodup ∧ time.brackets.members.Nodup := by
  obtain ⟨elements, years, slicing, tensors, hc, -, -, -, -, hseasons, hdays, hbrackets, -⟩ :=
    ofNode_eq_ok h
  have hslicing : (readSlicing definition).value = slicing :=
    congrArg Prod.snd (Noted.checked_eq_ok_iff.1 hc).2
  rw [hseasons, hdays, hbrackets, ← hslicing]
  exact nodup_readSlicing definition

/-! ### Shares -/

theorem dimensions_readLeaves (path : String) (dimensions : List Dimension) (expanded : Node) :
    (readLeaves (R := R) path dimensions expanded).value.dimensions = dimensions := by
  rw [readLeaves, Noted.value_foldlM]
  refine (dimensions_foldl (fun t leaf => ?_) _ _).trans rfl
  dsimp only
  split <;> rfl

omit [Scalar R] in
theorem dimensions_uniform (dimensions : List Dimension) (labels : List (List String)) (value : R) :
    (uniform dimensions labels value).dimensions = dimensions := by
  have hi : ∀ (t : Tensor R) (key : Key), (t.insert key value).dimensions = t.dimensions :=
    fun _ _ => rfl
  exact dimensions_foldl hi _ _

theorem dimensions_readShares {definition : Node} {sets : MemberSets} {field : String}
    {dimensions : List Dimension} {standard : Tensor R} {shares : Reading (Tensor R)}
    (hs : standard.dimensions = dimensions)
    (h : readShares definition sets field dimensions standard = .ok shares) :
    shares.value.dimensions = dimensions := by
  unfold readShares at h
  split at h
  · cases h
    exact hs
  · obtain ⟨expanded, -, h⟩ := bind_eq_ok h
    cases h
    exact dimensions_readLeaves ..

theorem dimensions_yearSplit [One R] [Div R] {definition : Node} {time : TimeStructure R}
    (h : ofNode definition = .ok time) : time.yearSplit.dimensions = [.timeslice, .year] := by
  obtain ⟨elements, years, slicing, tensors, -, ht, hc, -⟩ := ofNode_eq_ok h
  obtain ⟨yearSplit, hy, ht⟩ := bind_eq_ok ht
  obtain ⟨daySplit, -, ht⟩ := bind_eq_ok ht
  obtain ⟨days, -, ht⟩ := bind_eq_ok ht
  cases ht
  have hv := (Noted.checked_eq_ok_iff.1 hc).2
  have hsplit : yearSplit.value = time.yearSplit := congrArg Prod.fst hv
  rw [← hsplit]
  exact dimensions_readShares (dimensions_uniform ..) hy

end TimeStructure

end EnergyPlan
