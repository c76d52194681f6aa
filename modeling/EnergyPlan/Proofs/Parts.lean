/-
# The parts divide the year

However a time definition says what the seasons, day types and brackets are, each timeslice lies in
a listed member of each of them. Where a mapping names the member, nothing is wrong with the
definition only if every timeslice is mapped, and to a member that is listed if members are; where
a part is not divided, its one member has all timeslices; and where timeslices are combined from
the members, each lies in those that it was combined from.

The table of a part has no other keys: a mapping is read as far as its timeslices are known, and
otherwise there is an entry for each timeslice.

Key definitions: `Part.Divides`, `Part.Assigns`.
Key theorems: `divides_derivePart`, `divides_combinedPart`, `divides_parts`,
`known_parts`.
-/
import EnergyPlan.Proofs.Timing
import EnergyPlan.Proofs.Yields
import Mathlib.Data.List.Induction

namespace EnergyPlan

open Config Text

/-- Each of some timeslices lies in a member of a part. -/
def Part.Divides (part : Part) (timeslices : List String) : Prop :=
  ∀ timeslice ∈ timeslices, ∃ member ∈ part.members, part.memberOf[timeslice]? = some member

/-- A part has members, none of them twice, and its table maps some timeslices and nothing else,
each to a member. -/
structure Part.Assigns (part : Part) (timeslices : List String) : Prop where
  members_ne_nil : part.members ≠ []
  members_nodup : part.members.Nodup
  mem_memberOf : ∀ slice, slice ∈ part.memberOf ↔ slice ∈ timeslices
  mem_members : ∀ slice member : String, part.memberOf[slice]? = some member →
    member ∈ part.members

/-- A part that divides some timeslices assigns them if its table has no other keys. -/
theorem Part.Divides.assigns {part : Part} {timeslices : List String}
    (h : part.Divides timeslices) (hne : timeslices ≠ []) (hn : part.members.Nodup)
    (hkeys : ∀ slice ∈ part.memberOf, slice ∈ timeslices) : part.Assigns timeslices where
  members_ne_nil := by
    obtain ⟨slice, hslice⟩ := List.exists_mem_of_ne_nil _ hne
    obtain ⟨member, hmember, -⟩ := h slice hslice
    exact List.ne_nil_of_mem hmember
  members_nodup := hn
  mem_memberOf slice := by
    refine ⟨hkeys slice, fun hslice => ?_⟩
    obtain ⟨member, -, hfound⟩ := h slice hslice
    exact Std.ExtTreeMap.mem_iff_isSome_getElem?.2 (Option.isSome_of_eq_some hfound)
  mem_members slice member hfound := by
    have hslice : slice ∈ part.memberOf :=
      Std.ExtTreeMap.mem_iff_isSome_getElem?.2 (Option.isSome_of_eq_some hfound)
    obtain ⟨member', hmember', hfound'⟩ := h slice (hkeys slice hslice)
    rw [hfound, Option.some.injEq] at hfound'
    rwa [hfound']

namespace TimeStructure

/-! ### Tables of members -/

theorem getElem?_insert_string {table : Std.ExtTreeMap String String} {key k value : String} :
    (table.insert key value)[k]? = if key = k then some value else table[k]? := by
  rw [Std.ExtTreeMap.getElem?_insert]
  by_cases h : key = k
  · rw [if_pos h, if_pos (Std.compare_eq_iff_eq.2 h)]
  · rw [if_neg h, if_neg fun hc => h (Std.compare_eq_iff_eq.1 hc)]

section

variable {α : Type} (key value : α → String)

/-- The table with a value under the key of each element; of several elements with one key the last
one counts. -/
abbrev tableOf (as : List α) : Std.ExtTreeMap String String :=
  as.foldl (fun table a => table.insert (key a) (value a)) ∅

theorem getElem?_tableOf (as : List α) (k : String) :
    (tableOf key value as)[k]? = (as.reverse.find? fun a => key a == k).map value := by
  induction as using List.reverseRecOn with
  | nil => exact Std.ExtTreeMap.getElem?_empty
  | append_singleton as last ih =>
    rw [tableOf, List.foldl_append, List.foldl_cons, List.foldl_nil, getElem?_insert_string,
      List.reverse_append, List.reverse_singleton, List.singleton_append, List.find?_cons]
    by_cases hkey : key last = k
    · rw [if_pos hkey, beq_iff_eq.2 hkey, Option.map_some]
    · rw [if_neg hkey, beq_false_of_ne hkey]
      exact ih

/-- Under the key of an element there is what was put there for some element with that key. -/
theorem exists_of_mem_tableOf {as : List α} {a : α} (ha : a ∈ as) :
    ∃ b ∈ as, key b = key a ∧ (tableOf key value as)[key a]? = some (value b) := by
  have hsome : (as.reverse.find? fun b => key b == key a).isSome = true :=
    List.find?_isSome.2 ⟨a, List.mem_reverse.2 ha, beq_self_eq_true (key a)⟩
  obtain ⟨b, hb⟩ := Option.isSome_iff_exists.1 hsome
  refine ⟨b, List.mem_reverse.1 (List.mem_of_find?_eq_some hb), ?_, ?_⟩
  · exact beq_iff_eq.1 (List.find?_some (p := fun b => key b == key a) hb)
  · rw [getElem?_tableOf, hb, Option.map_some]

/-- Nothing is put under other keys. -/
theorem mem_of_mem_tableOf {as : List α} {k : String} (h : k ∈ tableOf key value as) :
    k ∈ as.map key := by
  rw [Std.ExtTreeMap.mem_iff_isSome_getElem?, getElem?_tableOf, Option.isSome_map,
    List.find?_isSome] at h
  obtain ⟨a, ha, hk⟩ := h
  exact List.mem_map.2 ⟨a, List.mem_reverse.1 ha, beq_iff_eq.1 hk⟩

end

/-! ### The members are listed -/

/-- A list of labels is not empty if there was one before or there is one to read. -/
theorem readLabels_ne_nil {path : String} {nodes : List Node} {labels : List String}
    (h : labels ≠ [] ∨ nodes ≠ []) :
    ∀ members ∈ (readLabels path labels nodes).value, members ≠ [] := by
  induction nodes generalizing labels with
  | nil =>
    rintro members ⟨⟩
    exact h.resolve_right fun hn => hn rfl
  | cons node rest ih =>
    intro members hm
    unfold readLabels at hm
    split at hm
    · cases hm
    · next label _ =>
      split at hm
      · next hold => exact ih (.inl (List.ne_nil_of_mem hold)) members hm
      · exact ih (.inl (List.concat_ne_nil _ _)) members hm

theorem readPart_ne_nil {definition : Node} {field initial : String} :
    ∀ members ∈ (readPart definition field initial).value, members ≠ [] := by
  intro members hm
  unfold readPart at hm
  split at hm
  · cases hm
  · split at hm
    · next count _ =>
      split at hm
      · next hcount =>
        cases hm
        have hpositive : 1 ≤ count.toInt := Int64.le_iff_toInt_le.1 hcount
        have hlength : (numberedLabels initial count.toInt.toNat).length = count.toInt.toNat := by
          rw [numberedLabels, List.length_map, List.length_range]
        exact List.ne_nil_of_length_pos (by omega)
      · cases hm
    · cases hm
  · exact readLabels_ne_nil (.inr (List.cons_ne_nil _ _)) members hm
  · cases hm

theorem getD_ne_nil {listed : Option (List String)} (h : ∀ members ∈ listed, members ≠ []) :
    listed.getD [soleMember] ≠ [] := by
  cases listed with
  | none => exact List.cons_ne_nil _ _
  | some members => exact h members rfl

/-! ### Work that noted nothing -/

section

variable {ε α β : Type}

theorem notes_forM {f : α → Noted ε Unit} {as : List α} :
    (as.forM f).notes = as.flatMap fun a => (f a).notes := by
  induction as with
  | nil => rfl
  | cons a rest ih =>
    rw [List.flatMap_cons, ← ih]
    rfl

/-- A property that the steps keep which note nothing holds after a fold that noted nothing. -/
theorem foldlM_keeps_silently {f : β → α → Noted ε β} {as : List α} {b : β} {P : β → Prop}
    (hb : P b) (h : ∀ b, P b → ∀ a ∈ as, (f b a).notes = [] → P (f b a).value)
    (hn : (as.foldlM f b).notes = []) : P (as.foldlM f b).value := by
  induction as generalizing b with
  | nil => exact hb
  | cons a rest ih =>
    rw [List.foldlM_cons] at hn ⊢
    rw [Noted.notes_bind, List.append_eq_nil_iff] at hn
    refine ih (h b hb a List.mem_cons_self hn.1) ?_ hn.2
    exact fun b' hb' a' ha' => h b' hb' a' (List.mem_cons_of_mem a ha')

theorem notes_reportIf {condition : Bool} {path problem : String} :
    (Reading.reportIf condition path problem).notes = [] ↔ condition = false := by
  cases condition <;> simp [Reading.reportIf, Reading.report, Noted.note]

end

/-! ### Timeslices that are given -/

/-- A table maps to labels that a mapping names, which are listed if labels are. -/
def Names (listed : Option (List String)) (mapping : List (String × String))
    (memberOf : Std.ExtTreeMap String String) : Prop :=
  ∀ slice member : String, memberOf[slice]? = some member →
    member ∈ mapping.map (·.2) ∧ ∀ labels ∈ listed, member ∈ labels

theorem names_assignMembers {part : TimePart} {timeslices : List String}
    {listed : Option (List String)} {mapping : List (String × String)}
    (hn : (assignMembers part timeslices listed mapping).notes = []) :
    Names listed mapping (assignMembers part timeslices listed mapping).value := by
  refine foldlM_keeps_silently (P := Names listed mapping) ?_ ?_ hn
  · intro slice member h
    simp at h
  · rintro memberOf hmembers ⟨key, label⟩ hentry hsilent
    dsimp only at hsilent ⊢
    by_cases hknown : key ∉ timeslices
    · rw [if_pos hknown]
      exact hmembers
    · rw [if_neg hknown] at hsilent ⊢
      rw [Noted.notes_bind, List.append_eq_nil_iff, notes_reportIf] at hsilent
      intro slice member h
      rw [Noted.value_bind, Noted.value_pure, getElem?_insert_string] at h
      split at h
      · cases h
        refine ⟨List.mem_map.2 ⟨(key, label), hentry, rfl⟩, ?_⟩
        rintro labels rfl
        have hlabel : labels.contains label = true := by simpa using hsilent.1
        exact List.contains_iff_mem.1 hlabel
      · exact hmembers slice member h

/-- A part of given timeslices that nothing is wrong with divides them. -/
theorem divides_derivePart {timeslices : List String} {part : TimePart} {given : GivenPart}
    (hlisted : ∀ members ∈ given.listed, members ≠ [])
    (hn : (derivePart timeslices part given).notes = []) :
    (derivePart timeslices part given).value.Divides timeslices := by
  unfold derivePart at hn ⊢
  cases hmapping : given.mapping with
  | some mapping =>
    simp only [hmapping, Noted.notes_bind, List.append_eq_nil_iff, notes_forM,
      List.flatMap_eq_nil_iff, notes_reportIf] at hn
    simp only [Noted.value_bind, Noted.value_pure]
    intro slice hslice
    have hmapped : slice ∈ (assignMembers part timeslices given.listed mapping).value := by
      simpa using hn.2.1 slice hslice
    obtain ⟨member, hmember⟩ :=
      Option.isSome_iff_exists.1 (Std.ExtTreeMap.mem_iff_isSome_getElem?.1 hmapped)
    obtain ⟨hnamed, hin⟩ := names_assignMembers hn.1 slice member hmember
    refine ⟨member, ?_, hmember⟩
    cases hgiven : given.listed with
    | none =>
      show member ∈ (mapping.map (·.2)).foldl appendNew []
      exact mem_foldl_appendNew.2 (.inl hnamed)
    | some labels => exact hin labels hgiven
  | none =>
    simp only [hmapping] at hn
    dsimp only
    split at hn
    · cases hn
    · next hfew =>
      rw [if_neg hfew]
      have hne := getD_ne_nil hlisted
      intro slice hslice
      obtain ⟨b, -, -, hfound⟩ := exists_of_mem_tableOf (fun slice => slice)
        (fun _ => (given.listed.getD [soleMember]).headD soleMember) hslice
      refine ⟨_, ?_, hfound⟩
      obtain ⟨first, rest, hcons⟩ := List.exists_cons_of_ne_nil hne
      show _ ∈ given.listed.getD [soleMember]
      rw [hcons]
      exact List.mem_cons_self

/-! ### Timeslices that are combined -/

theorem divides_combinedPart {listed : Option (List String)} {member : Combination → String}
    {all : List Combination} (h : ∀ c ∈ all, member c ∈ listed.getD [soleMember]) :
    (combinedPart listed member all).Divides (all.map (·.slice)) := by
  intro slice hslice
  obtain ⟨c, hc, rfl⟩ := List.mem_map.1 hslice
  obtain ⟨b, hb, -, hfound⟩ :=
    exists_of_mem_tableOf Combination.slice member hc
  exact ⟨member b, h b hb, hfound⟩

theorem mem_combinations {seasons dayTypes brackets : Option (List String)} {c : Combination}
    (h : c ∈ combinations seasons dayTypes brackets) :
    c.season ∈ seasons.getD [soleMember] ∧ c.dayType ∈ dayTypes.getD [soleMember] ∧
      c.bracket ∈ brackets.getD [soleMember] := by
  obtain ⟨season, hs, h⟩ := List.mem_flatMap.1 h
  obtain ⟨dayType, hd, h⟩ := List.mem_flatMap.1 h
  obtain ⟨bracket, hb, rfl⟩ := List.mem_map.1 h
  exact ⟨hs, hd, hb⟩

/-! ### No other keys -/

/-- A mapping is read as far as its timeslices are known. -/
theorem known_assignMembers {part : TimePart} {timeslices : List String}
    {listed : Option (List String)} {mapping : List (String × String)} :
    ∀ slice ∈ (assignMembers part timeslices listed mapping).value, slice ∈ timeslices := by
  unfold assignMembers
  rw [Noted.value_foldlM]
  refine List.foldlRecOn (motive := fun memberOf : Std.ExtTreeMap String String =>
    ∀ slice ∈ memberOf, slice ∈ timeslices) mapping _ ?_ ?_
  · intro slice hslice
    exact absurd hslice Std.ExtTreeMap.not_mem_empty
  · rintro memberOf hknown ⟨key, label⟩ -
    dsimp only
    by_cases hkey : key ∉ timeslices
    · rw [if_pos hkey]
      exact hknown
    · rw [if_neg hkey]
      intro slice hslice
      rcases Std.ExtTreeMap.mem_insert.1 hslice with heq | hslice
      · rw [← Std.compare_eq_iff_eq.1 heq]
        exact not_not.1 hkey
      · exact hknown slice hslice

theorem known_derivePart {timeslices : List String} {part : TimePart} {given : GivenPart} :
    ∀ slice ∈ (derivePart timeslices part given).value.memberOf, slice ∈ timeslices := by
  unfold derivePart
  cases given.mapping with
  | some mapping => exact known_assignMembers
  | none =>
    dsimp only
    split
    · intro slice hslice
      exact absurd hslice Std.ExtTreeMap.not_mem_empty
    · intro slice hslice
      have hmapped : slice ∈ timeslices.map fun slice => slice := mem_of_mem_tableOf _ _ hslice
      rwa [List.map_id'] at hmapped

theorem known_combinedPart {listed : Option (List String)} {member : Combination → String}
    {all : List Combination} :
    ∀ slice ∈ (combinedPart listed member all).memberOf, slice ∈ all.map (·.slice) :=
  fun _ hslice => mem_of_mem_tableOf _ _ hslice

/-- The table of a part has no keys but the timeslices. -/
theorem known_readSlicing (definition : Node) :
    let slicing := (readSlicing definition).value
    (∀ slice ∈ slicing.seasons.memberOf, slice ∈ slicing.timeslices) ∧
      (∀ slice ∈ slicing.dayTypes.memberOf, slice ∈ slicing.timeslices) ∧
      ∀ slice ∈ slicing.brackets.memberOf, slice ∈ slicing.timeslices := by
  unfold readSlicing
  simp only [Noted.value_bind]
  split
  · exact ⟨known_derivePart, known_derivePart, known_derivePart⟩
  · exact ⟨known_combinedPart, known_combinedPart, known_combinedPart⟩

/-! ### The parts of a time structure -/

theorem divides_readSlicing {definition : Node} (hn : (readSlicing definition).notes = []) :
    (readSlicing definition).value.seasons.Divides (readSlicing definition).value.timeslices ∧
      (readSlicing definition).value.dayTypes.Divides
        (readSlicing definition).value.timeslices ∧
      (readSlicing definition).value.brackets.Divides
        (readSlicing definition).value.timeslices := by
  unfold readSlicing at hn ⊢
  simp only [Noted.value_bind, Noted.notes_bind, List.append_eq_nil_iff] at hn ⊢
  obtain ⟨-, -, -, -, -, -, hn⟩ := hn
  split
  · next hgiven =>
    rw [if_pos hgiven] at hn
    simp only [Noted.notes_bind, List.append_eq_nil_iff] at hn
    exact ⟨divides_derivePart readPart_ne_nil hn.2.1,
      divides_derivePart readPart_ne_nil hn.2.2.1,
      divides_derivePart readPart_ne_nil hn.2.2.2.1⟩
  · exact ⟨divides_combinedPart fun c hc => (mem_combinations hc).1,
      divides_combinedPart fun c hc => (mem_combinations hc).2.1,
      divides_combinedPart fun c hc => (mem_combinations hc).2.2⟩

/-- Each timeslice of a time structure lies in a season, a day type and a time bracket of it. -/
theorem divides_parts {R : Type} [Scalar R] [One R] [Div R] {definition : Node}
    {time : TimeStructure R} (h : ofNode definition = .ok time) :
    time.seasons.Divides time.timeslices ∧ time.dayTypes.Divides time.timeslices ∧
      time.brackets.Divides time.timeslices := by
  obtain ⟨elements, years, slicing, tensors, hc, -, -, -, hslices, hseasons, hdays, hbrackets, -⟩ :=
    ofNode_eq_ok h
  obtain ⟨hnotes, hvalue⟩ := Noted.checked_eq_ok_iff.1 hc
  have hsilent : (readSlicing definition).notes = [] :=
    (List.append_eq_nil_iff.1 (List.append_eq_nil_iff.1 hnotes).2).1
  have hslicing : (readSlicing definition).value = slicing := congrArg Prod.snd hvalue
  rw [hslices, hseasons, hdays, hbrackets, ← hslicing]
  exact divides_readSlicing hsilent

theorem known_parts {R : Type} [Scalar R] [One R] [Div R] {definition : Node}
    {time : TimeStructure R} (h : ofNode definition = .ok time) :
    (∀ slice ∈ time.seasons.memberOf, slice ∈ time.timeslices) ∧
      (∀ slice ∈ time.dayTypes.memberOf, slice ∈ time.timeslices) ∧
      ∀ slice ∈ time.brackets.memberOf, slice ∈ time.timeslices := by
  obtain ⟨elements, years, slicing, tensors, hc, -, -, -, hslices, hseasons, hdays, hbrackets, -⟩ :=
    ofNode_eq_ok h
  have hslicing : (readSlicing definition).value = slicing :=
    congrArg Prod.snd (Noted.checked_eq_ok_iff.1 hc).2
  rw [hslices, hseasons, hdays, hbrackets, ← hslicing]
  exact known_readSlicing definition

end TimeStructure

end EnergyPlan
