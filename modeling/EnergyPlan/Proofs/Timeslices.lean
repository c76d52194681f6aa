/-
# The timeslices of a year

However a time definition cuts the year, there are timeslices, and every part has members and a
table that assigns one of them to each timeslice and to nothing else.

Timeslices that are given are distinct: a list is read without repetitions, and so are the keys of
mappings. Timeslices that are combined are called by the members that they are combined from, with a
dash between them. If two parts have labels with a dash, a name can be that of two combinations:
`winter` and `peak-day` are called like `winter-peak` and `day`. Then one timeslice stands for both,
twice among the timeslices, and the tables know the later combination alone. If no more than one part
has such labels, a name is read from both of its ends and tells what it was combined from.

Key definitions: `Combines`, `Combination.name`, `Slicing.part`, `Slicing.OneForEach`.
Key theorems: `assigns_parts`, `dashed_inj`, `mem_combinations_iff`, `nodup_iff_oneForEach`,
`slicing_cases`, `distinct_timeslices`.
-/
import EnergyPlan.Proofs.Exact
import EnergyPlan.Proofs.Parts

namespace EnergyPlan

open Config Text

/-! ### Names with dashes -/

/-- Labels with dashes between them. -/
def dashed (labels : List (List Char)) : List Char := ['-'].intercalate labels

theorem dashed_cons_cons (first next : List Char) (more : List (List Char)) :
    dashed (first :: next :: more) = first ++ '-' :: dashed (next :: more) := by
  rw [dashed, List.intercalate_cons_cons, List.append_assoc]
  rfl

theorem dashed_concat (first last : List Char) (more : List (List Char)) :
    dashed (first :: (more ++ [last])) = dashed (first :: more) ++ '-' :: last := by
  induction more generalizing first with
  | nil =>
    rw [List.nil_append, dashed_cons_cons]
    simp [dashed]
  | cons next more ih =>
    rw [List.cons_append, dashed_cons_cons, ih, dashed_cons_cons, List.append_assoc,
      List.cons_append]

/-- What stands before the first dash is read back. -/
theorem append_dash_inj {x x' rest rest' : List Char} (hx : '-' ∉ x) (hx' : '-' ∉ x')
    (h : x ++ '-' :: rest = x' ++ '-' :: rest') : x = x' ∧ rest = rest' := by
  induction x generalizing x' with
  | nil =>
    cases x' with
    | nil => exact ⟨rfl, (List.cons.inj h).2⟩
    | cons c x' =>
      obtain rfl : '-' = c := (List.cons.inj h).1
      exact absurd List.mem_cons_self hx'
  | cons c x ih =>
    cases x' with
    | nil =>
      obtain rfl : c = '-' := (List.cons.inj h).1
      exact absurd List.mem_cons_self hx
    | cons c' x' =>
      obtain ⟨rfl, htail⟩ : c = c' ∧ x ++ '-' :: rest = x' ++ '-' :: rest' := List.cons.inj h
      rw [List.mem_cons, not_or] at hx hx'
      obtain ⟨rfl, hrest⟩ := ih hx.2 hx'.2 htail
      exact ⟨rfl, hrest⟩

/-- What stands after the last dash is read back. -/
theorem dash_append_inj {x x' front front' : List Char} (hx : '-' ∉ x) (hx' : '-' ∉ x')
    (h : front ++ '-' :: x = front' ++ '-' :: x') : front = front' ∧ x = x' := by
  have hreversed := congrArg List.reverse h
  simp only [List.reverse_append, List.reverse_cons, List.append_assoc, List.singleton_append]
    at hreversed
  have hplain : '-' ∉ x.reverse := fun hm => hx (List.mem_reverse.1 hm)
  have hplain' : '-' ∉ x'.reverse := fun hm => hx' (List.mem_reverse.1 hm)
  obtain ⟨hlast, hfront⟩ := append_dash_inj hplain hplain' hreversed
  exact ⟨List.reverse_injective hfront, List.reverse_injective hlast⟩

/-- Neither of two labels has a dash. -/
def Plain (labels : List Char × List Char) : Prop := '-' ∉ labels.1 ∧ '-' ∉ labels.2

/-- Labels of which the first alone may have dashes are read back, from the last one on. -/
theorem dashed_inj_of_plain {first first' : List Char} {ps : List (List Char × List Char)}
    (hps : ∀ p ∈ ps, Plain p)
    (h : dashed (first :: ps.map Prod.fst) = dashed (first' :: ps.map Prod.snd)) :
    first :: ps.map Prod.fst = first' :: ps.map Prod.snd := by
  induction ps using List.reverseRecOn with
  | nil => simpa [dashed] using h
  | append_singleton ps last ih =>
    have hlast := hps last (List.mem_append_right _ List.mem_cons_self)
    rw [List.map_append, List.map_append, List.map_singleton, List.map_singleton, dashed_concat,
      dashed_concat] at h
    obtain ⟨hfront, hsame⟩ := dash_append_inj hlast.1 hlast.2 h
    have hothers := ih (fun p hp => hps p (List.mem_append_left _ hp)) hfront
    rw [List.map_append, List.map_append, List.map_singleton, List.map_singleton, ← List.cons_append,
      ← List.cons_append, hothers, hsame]

/-- **Labels are read back** from a name if of any two of them one has no dash: as long as the first
one has none it ends at the first dash, and otherwise no other one has a dash. -/
theorem dashed_inj {ps : List (List Char × List Char)}
    (hps : ps.Pairwise fun p q => Plain p ∨ Plain q)
    (h : dashed (ps.map Prod.fst) = dashed (ps.map Prod.snd)) :
    ps.map Prod.fst = ps.map Prod.snd := by
  induction ps with
  | nil => rfl
  | cons p ps ih =>
    obtain ⟨hfirst, hrest⟩ := List.pairwise_cons.1 hps
    by_cases hp : Plain p
    · cases ps with
      | nil => simpa [dashed] using h
      | cons q ps =>
        simp only [List.map_cons, dashed_cons_cons] at h
        obtain ⟨hsame, hothers⟩ := append_dash_inj hp.1 hp.2 h
        have hread : (q :: ps).map Prod.fst = (q :: ps).map Prod.snd := ih hrest hothers
        exact congrArg₂ List.cons hsame hread
    · exact dashed_inj_of_plain (fun q hq => (hfirst q hq).resolve_left hp) h

/-! ### Combinations -/

/-- The parts, in the order in which they are named. -/
def TimePart.all : List TimePart := [.season, .dayType, .bracket]

namespace Combination

/-- The member of a part that a combination has. -/
def member (c : Combination) : TimePart → String
  | .season => c.season
  | .dayType => c.dayType
  | .bracket => c.bracket

/-- What a combination is called if some of the parts are listed. -/
def name (listed : TimePart → Option (List String)) (c : Combination) : String :=
  let labels := (TimePart.all.filter fun part => (listed part).isSome).map c.member
  if labels.isEmpty then soleMember else join "-" labels

end Combination

variable {listed : TimePart → Option (List String)}

/-- The combinations of the members of the parts, some of which are listed. -/
def allCombinations (listed : TimePart → Option (List String)) : List Combination :=
  combinations (listed .season) (listed .dayType) (listed .bracket)

theorem allCombinations_eq : allCombinations listed =
    ((listed .season).getD [soleMember] ×ˢ ((listed .dayType).getD [soleMember] ×ˢ
      (listed .bracket).getD [soleMember])).map fun (season, dayType, bracket) =>
        ⟨Combination.name listed ⟨"", season, dayType, bracket⟩, season, dayType, bracket⟩ := by
  have hname : ∀ season dayType bracket,
      Combination.name listed ⟨"", season, dayType, bracket⟩ =
        let labels := (if (listed .season).isSome then [season] else []) ++
          (if (listed .dayType).isSome then [dayType] else []) ++
          (if (listed .bracket).isSome then [bracket] else [])
        if labels.isEmpty then soleMember else join "-" labels := by
    intro season dayType bracket
    simp only [Combination.name, TimePart.all, List.filter_cons, List.filter_nil]
    cases (listed .season).isSome <;> cases (listed .dayType).isSome <;>
      cases (listed .bracket).isSome <;> rfl
  simp only [allCombinations, combinations, SProd.sprod, List.product, List.map_flatMap,
    List.map_map, hname]
  rfl

/-- The combinations have a member of each part and are called by their members. -/
theorem mem_combinations_iff {c : Combination} : c ∈ allCombinations listed ↔
    (∀ part, c.member part ∈ (listed part).getD [soleMember]) ∧ c.slice = c.name listed := by
  rw [allCombinations_eq, List.mem_map]
  constructor
  · rintro ⟨⟨season, dayType, bracket⟩, hm, rfl⟩
    rw [List.mem_product, List.mem_product] at hm
    refine ⟨fun part => ?_, rfl⟩
    cases part with
    | season => exact hm.1
    | dayType => exact hm.2.1
    | bracket => exact hm.2.2
  · rintro ⟨hm, hslice⟩
    refine ⟨(c.season, c.dayType, c.bracket), ?_, ?_⟩
    · rw [List.mem_product, List.mem_product]
      exact ⟨hm .season, hm .dayType, hm .bracket⟩
    · obtain ⟨slice, season, dayType, bracket⟩ := c
      exact congrArg (Combination.mk · season dayType bracket) hslice.symm

/-- A combination is known by its members. -/
theorem eq_of_member_eq {c c' : Combination} (hc : c ∈ allCombinations listed)
    (hc' : c' ∈ allCombinations listed) (h : ∀ part, c.member part = c'.member part) :
    c = c' := by
  obtain ⟨slice, season, dayType, bracket⟩ := c
  obtain ⟨slice', season', dayType', bracket'⟩ := c'
  obtain rfl : season = season' := h .season
  obtain rfl : dayType = dayType' := h .dayType
  obtain rfl : bracket = bracket' := h .bracket
  exact congrArg (Combination.mk · season dayType bracket)
    ((mem_combinations_iff.1 hc).2.trans (mem_combinations_iff.1 hc').2.symm)

theorem nodup_allCombinations (h : ∀ part, ∀ members ∈ listed part, members.Nodup) :
    (allCombinations listed).Nodup := by
  have hmembers : ∀ part, ((listed part).getD [soleMember]).Nodup := fun part =>
    TimeStructure.nodup_getD (h part) (List.nodup_singleton _)
  rw [allCombinations_eq]
  refine ((hmembers .season).product ((hmembers .dayType).product (hmembers .bracket))).map ?_
  rintro ⟨season, dayType, bracket⟩ ⟨season', dayType', bracket'⟩ heq
  obtain ⟨-, rfl, rfl, rfl⟩ := Combination.mk.inj heq
  rfl

/-- If no more than one part has labels with a dash, combinations are known by their names. -/
theorem eq_of_slice_eq (dashes : TimePart)
    (hplain : ∀ part, part ≠ dashes → ∀ label ∈ (listed part).getD [soleMember],
      '-' ∉ label.toList)
    {c c' : Combination} (hc : c ∈ allCombinations listed) (hc' : c' ∈ allCombinations listed)
    (h : c.slice = c'.slice) : c = c' := by
  obtain ⟨hm, hslice⟩ := mem_combinations_iff.1 hc
  obtain ⟨hm', hslice'⟩ := mem_combinations_iff.1 hc'
  rw [hslice, hslice', Combination.name, Combination.name] at h
  generalize hparts : (TimePart.all.filter fun part => (listed part).isSome) = parts at h
  have hsame : parts.map c.member = parts.map c'.member := by
    by_cases hnone : parts = []
    · rw [hnone]
      rfl
    · rw [if_neg (by simpa using hnone), if_neg (by simpa using hnone)] at h
      let ps := parts.map fun part => ((c.member part).toList, (c'.member part).toList)
      have hps : ps.Pairwise fun p q => Plain p ∨ Plain q := by
        have honce : parts.Nodup := by
          rw [← hparts]
          exact List.Nodup.filter _ (by decide)
        refine List.pairwise_map.2 (honce.imp fun {part other} hne => ?_)
        by_cases hpart : part = dashes
        · have hother : other ≠ dashes := fun heq => hne (hpart.trans heq.symm)
          exact .inr ⟨hplain other hother _ (hm other), hplain other hother _ (hm' other)⟩
        · exact .inl ⟨hplain part hpart _ (hm part), hplain part hpart _ (hm' part)⟩
      have htext : dashed (ps.map Prod.fst) = dashed (ps.map Prod.snd) := by
        have hlist := congrArg String.toList h
        simp only [join, String.toList_intercalate, List.map_map] at hlist
        simpa [dashed, ps, Function.comp_def] using hlist
      have hread := dashed_inj hps htext
      simp only [ps, List.map_map] at hread
      rw [List.map_inj_left] at hread ⊢
      exact fun part hpart => String.toList_inj.1 (hread part hpart)
  -- a part that is not listed has one member
  refine eq_of_member_eq hc hc' fun part => ?_
  cases hgiven : listed part with
  | none =>
    have hsole := hm part
    have hsole' := hm' part
    rw [hgiven, Option.getD_none, List.mem_singleton] at hsole hsole'
    rw [hsole, hsole']
  | some members =>
    have hpart : part ∈ parts := by
      rw [← hparts, List.mem_filter, hgiven]
      exact ⟨by cases part <;> decide, rfl⟩
    exact List.map_inj_left.1 hsame part hpart

/-! ### What the tables know -/

/-- How a year is cut if its timeslices are combined. -/
def combinedSlicing (listed : TimePart → Option (List String)) : Slicing where
  timeslices := (allCombinations listed).map (·.slice)
  seasons := combinedPart (listed .season) (·.season) (allCombinations listed)
  dayTypes := combinedPart (listed .dayType) (·.dayType) (allCombinations listed)
  brackets := combinedPart (listed .bracket) (·.bracket) (allCombinations listed)

/-- A part of a year. -/
def Slicing.part (slicing : Slicing) : TimePart → Part
  | .season => slicing.seasons
  | .dayType => slicing.dayTypes
  | .bracket => slicing.brackets

/-- For each choice of a member of every part there is exactly one timeslice that lies in all of
them. -/
def Slicing.OneForEach (slicing : Slicing) : Prop :=
  ∀ chosen : TimePart → String, (∀ part, chosen part ∈ (slicing.part part).members) →
    ∃! slice, slice ∈ slicing.timeslices ∧
      ∀ part, (slicing.part part).memberOf[slice]? = some (chosen part)

theorem part_combinedSlicing (part : TimePart) : (combinedSlicing listed).part part =
    combinedPart (listed part) (·.member part) (allCombinations listed) := by
  cases part <;> rfl

/-- The tables know one and the same combination for a timeslice. -/
theorem exists_known {slice : String} (h : slice ∈ (combinedSlicing listed).timeslices) :
    ∃ c ∈ allCombinations listed, c.slice = slice ∧ ∀ part,
      ((combinedSlicing listed).part part).memberOf[slice]? = some (c.member part) := by
  obtain ⟨a, ha, rfl⟩ := List.mem_map.1 h
  have hsome : ((allCombinations listed).reverse.find? fun c => c.slice == a.slice).isSome =
      true :=
    List.find?_isSome.2 ⟨a, List.mem_reverse.2 ha, beq_self_eq_true a.slice⟩
  obtain ⟨c, hc⟩ := Option.isSome_iff_exists.1 hsome
  have hslice : (c.slice == a.slice) = true :=
    List.find?_some (p := fun c : Combination => c.slice == a.slice) hc
  refine ⟨c, List.mem_reverse.1 (List.mem_of_find?_eq_some hc), beq_iff_eq.1 hslice,
    fun part => ?_⟩
  rw [part_combinedSlicing]
  exact (TimeStructure.getElem?_tableOf _ _ _ _).trans (by rw [hc, Option.map_some])

/-- **Combined timeslices are distinct exactly if there is one for each combination**: the tables
know one combination for each name. -/
theorem nodup_iff_oneForEach (h : ∀ part, ∀ members ∈ listed part, members.Nodup) :
    (combinedSlicing listed).timeslices.Nodup ↔ (combinedSlicing listed).OneForEach := by
  constructor
  · intro hn chosen hchosen
    let c : Combination := ⟨Combination.name listed ⟨"", chosen .season, chosen .dayType,
      chosen .bracket⟩, chosen .season, chosen .dayType, chosen .bracket⟩
    have hmember : ∀ part, c.member part = chosen part := fun part => by cases part <;> rfl
    have hc : c ∈ allCombinations listed := by
      refine mem_combinations_iff.2 ⟨fun part => ?_, rfl⟩
      rw [hmember]
      have hpart := hchosen part
      rwa [part_combinedSlicing] at hpart
    have hslice : c.slice ∈ (combinedSlicing listed).timeslices := List.mem_map.2 ⟨c, hc, rfl⟩
    obtain ⟨b, hb, hname, hknown⟩ := exists_known hslice
    obtain rfl : b = c := List.inj_on_of_nodup_map hn hb hc hname
    refine ⟨c.slice, ⟨hslice, fun part => by rw [hknown, hmember]⟩, ?_⟩
    rintro slice ⟨hs, hlies⟩
    obtain ⟨b', hb', rfl, hknown'⟩ := exists_known hs
    refine congrArg Combination.slice (eq_of_member_eq hb' hc fun part => ?_)
    rw [hmember, ← Option.some.injEq, ← hknown' part, hlies part]
  · intro hone
    -- what the tables know for the name of a combination is that combination
    have hself : ∀ c ∈ allCombinations listed, ∀ part,
        ((combinedSlicing listed).part part).memberOf[c.slice]? = some (c.member part) := by
      intro c hc part
      obtain ⟨slice, ⟨hs, hlies⟩, -⟩ := hone c.member fun part => by
        rw [part_combinedSlicing]
        exact (mem_combinations_iff.1 hc).1 part
      obtain ⟨b, hb, rfl, hknown⟩ := exists_known hs
      obtain rfl : b = c := eq_of_member_eq hb hc fun part => by
        rw [← Option.some.injEq, ← hknown part, hlies part]
      exact hlies part
    refine List.Nodup.map_on (fun c hc c' hc' hslice => ?_) (nodup_allCombinations h)
    refine eq_of_member_eq hc hc' fun part => ?_
    rw [← Option.some.injEq, ← hself c hc part, hslice, hself c' hc' part]

/-! ### What a time definition says -/

/-- Whether timeslices are combined from the parts: a time definition neither gives them nor maps
them to a part. -/
def Combines (definition : Node) : Prop :=
  definition.entry? "timeslices" = none ∧
    ∀ part : TimePart, definition.given? part.mappingField = none

namespace TimeStructure

theorem isSome_readMapping {definition : Node} {field : String}
    (hn : (readMapping definition field).notes = []) :
    (readMapping definition field).value.isSome = (definition.given? field).isSome := by
  unfold readMapping at hn ⊢
  cases hgiven : definition.given? field with
  | none => rfl
  | some value =>
    rw [hgiven] at hn
    cases value with
    | mapping entries => rfl
    | _ => cases hn

/-- Given timeslices are distinct. -/
theorem nodup_givenTimeslices (definition : Node)
    (mappings : List (Option (List (String × String)))) :
    (givenTimeslices definition mappings).value.Nodup := by
  unfold givenTimeslices
  split
  · exact nodup_getD nodup_readPart .nil
  · exact nodup_foldl_appendNew .nil

/-- The timeslices are given and distinct, or combined from the parts. -/
theorem slicing_cases {definition : Node} (hn : (readSlicing definition).notes = []) :
    ¬ Combines definition ∧ (readSlicing definition).value.timeslices.Nodup ∨
      Combines definition ∧ ∃ listed : TimePart → Option (List String),
        (∀ part, ∀ members ∈ listed part, members.Nodup) ∧
        (readSlicing definition).value = combinedSlicing listed := by
  unfold readSlicing at hn ⊢
  simp only [Noted.value_bind, Noted.notes_bind, List.append_eq_nil_iff] at hn ⊢
  obtain ⟨-, -, -, hseason, hdayType, hbracket, -⟩ := hn
  have hcond : ((definition.entry? "timeslices").isSome ||
      (readMapping definition TimePart.season.mappingField).value.isSome ||
      (readMapping definition TimePart.dayType.mappingField).value.isSome ||
      (readMapping definition TimePart.bracket.mappingField).value.isSome) = false ↔
      Combines definition := by
    rw [isSome_readMapping hseason, isSome_readMapping hdayType, isSome_readMapping hbracket]
    simp only [Bool.or_eq_false_iff, Option.isSome_eq_false_iff, Option.isNone_iff_eq_none,
      Combines]
    constructor
    · rintro ⟨⟨⟨hslices, hs⟩, hd⟩, hb⟩
      exact ⟨hslices, fun part => by cases part <;> assumption⟩
    · rintro ⟨hslices, hmapped⟩
      exact ⟨⟨⟨hslices, hmapped .season⟩, hmapped .dayType⟩, hmapped .bracket⟩
  split
  · next hgiven =>
    refine .inl ⟨fun hcombines => ?_, nodup_givenTimeslices _ _⟩
    rw [hcond.2 hcombines] at hgiven
    cases hgiven
  · next hnone =>
    refine .inr ⟨hcond.1 (Bool.not_eq_true _ ▸ hnone), ?_⟩
    exact ⟨fun part => (readPart definition part.listField part.initial).value,
      fun part => nodup_readPart, rfl⟩

/-- How a year is cut, as a time structure has it. -/
def slicing {R : Type} (time : TimeStructure R) : Slicing :=
  ⟨time.timeslices, time.seasons, time.dayTypes, time.brackets⟩

theorem slicing_eq {R : Type} [Scalar R] [One R] [Div R] {definition : Node}
    {time : TimeStructure R} (h : ofNode definition = .ok time) :
    (readSlicing definition).notes = [] ∧ (readSlicing definition).value = time.slicing := by
  obtain ⟨elements, years, slicing, tensors, hc, -, -, -, hslices, hseasons, hdays, hbrackets, -⟩ :=
    ofNode_eq_ok h
  obtain ⟨hnotes, hvalue⟩ := Noted.checked_eq_ok_iff.1 hc
  refine ⟨(List.append_eq_nil_iff.1 (List.append_eq_nil_iff.1 hnotes).2).1, ?_⟩
  rw [TimeStructure.slicing, hslices, hseasons, hdays, hbrackets]
  exact congrArg Prod.snd hvalue

/-- **Every timeslice has one season, one day type and one time bracket.** A time structure that
was read has timeslices, seasons, day types and time brackets; no member of a part occurs twice;
and the table of each part has exactly the timeslices as its keys, each with a member. -/
theorem assigns_parts {R : Type} [Scalar R] [One R] [Div R] {definition : Node}
    {time : TimeStructure R} (h : ofNode definition = .ok time) :
    time.timeslices ≠ [] ∧ time.seasons.Assigns time.timeslices ∧
      time.dayTypes.Assigns time.timeslices ∧ time.brackets.Assigns time.timeslices := by
  have hne := timeslices_ne_nil h
  obtain ⟨hseasons, hdays, hbrackets⟩ := divides_parts h
  obtain ⟨hseasonsOnce, hdaysOnce, hbracketsOnce⟩ := nodup_parts h
  obtain ⟨hseasonsKnown, hdaysKnown, hbracketsKnown⟩ := known_parts h
  exact ⟨hne, hseasons.assigns hne hseasonsOnce hseasonsKnown,
    hdays.assigns hne hdaysOnce hdaysKnown, hbrackets.assigns hne hbracketsOnce hbracketsKnown⟩

/-- Timeslices that a mapping to listed seasons names and a list of brackets with one member, the
day types left out. -/
def mixedParts : Node :=
  .mapping [
    ("years", .sequence [.plain "2020"]),
    ("seasons", .sequence [.plain "winter", .plain "spring", .plain "summer"]),
    ("daily_time_brackets", .plain "1"),
    ("timeslice_in_season",
      .mapping [("hot", .plain "summer"), ("cold", .plain "winter"), ("warm", .plain "summer")])]

/-- The timeslices of the mapping are the keys of every part, that of the left out one too. -/
theorem assigns_parts_mixed :
    ∃ time : TimeStructure Rat, ofNode mixedParts = .ok time ∧
      time.timeslices = ["hot", "cold", "warm"] ∧
      time.seasons.members = ["winter", "spring", "summer"] ∧ time.dayTypes.members = ["1"] ∧
      time.brackets.members = ["h1"] ∧ time.seasons.Assigns time.timeslices ∧
      time.dayTypes.Assigns time.timeslices ∧ time.brackets.Assigns time.timeslices := by
  have hany : (ofNode (R := Rat) mixedParts).toOption.any (fun time =>
      decide (time.timeslices = ["hot", "cold", "warm"] ∧
        time.seasons.members = ["winter", "spring", "summer"] ∧ time.dayTypes.members = ["1"] ∧
        time.brackets.members = ["h1"])) = true := by decide +kernel
  obtain ⟨time, h, htest⟩ := Exact.exists_ok_of_any hany
  obtain ⟨hslices, hseasons, hdays, hbrackets⟩ := of_decide_eq_true htest
  exact ⟨time, h, hslices, hseasons, hdays, hbrackets, (assigns_parts h).2⟩

/-- **Timeslices are distinct unless two combinations have one name.** Timeslices that are given
are distinct. Timeslices that are combined from the parts are distinct exactly if for each choice of
a season, a day type and a time bracket there is exactly one timeslice that lies in them; they are
if no more than one part has labels with a dash. -/
theorem distinct_timeslices {R : Type} [Scalar R] [One R] [Div R] {definition : Node}
    {time : TimeStructure R} (h : ofNode definition = .ok time) :
    (¬ Combines definition → time.timeslices.Nodup) ∧
      (Combines definition →
        (time.timeslices.Nodup ↔ time.slicing.OneForEach) ∧
        ((∃ dashes : TimePart, ∀ part, part ≠ dashes →
            ∀ label ∈ (time.slicing.part part).members, '-' ∉ label.toList) →
          time.timeslices.Nodup)) := by
  obtain ⟨hn, hslicing⟩ := slicing_eq h
  rcases slicing_cases hn with ⟨hgiven, hdistinct⟩ | ⟨hcombines, listed, honce, hcombined⟩
  · rw [hslicing] at hdistinct
    exact ⟨fun _ => hdistinct, fun hcombines => absurd hcombines hgiven⟩
  · rw [hslicing] at hcombined
    refine ⟨fun hgiven => absurd hcombines hgiven, fun _ => ?_⟩
    have hslices : time.timeslices = (combinedSlicing listed).timeslices :=
      congrArg Slicing.timeslices hcombined
    rw [hslices, hcombined]
    refine ⟨nodup_iff_oneForEach honce, ?_⟩
    rintro ⟨dashes, hplain⟩
    refine List.Nodup.map_on (fun c hc c' hc' => ?_) (nodup_allCombinations honce)
    refine eq_of_slice_eq dashes (fun part hpart label hlabel => ?_) hc hc'
    refine hplain part hpart label ?_
    rwa [part_combinedSlicing]

/-- The timeslices of two seasons and two day types. -/
def crossed (seasons dayTypes : List String) : Node :=
  .mapping [
    ("years", .sequence [.plain "2020"]),
    ("seasons", .sequence (seasons.map Node.plain)),
    ("day_types", .sequence (dayTypes.map Node.plain))]

/-- Dashes in the names of seasons alone leave one timeslice for each combination. -/
theorem distinct_timeslices_seasons :
    ∃ time : TimeStructure Rat,
      ofNode (crossed ["early-winter", "late-winter"] ["weekday", "weekend"]) = .ok time ∧
      time.timeslices = ["early-winter-weekday", "early-winter-weekend", "late-winter-weekday",
        "late-winter-weekend"] ∧
      time.timeslices.Nodup ∧ time.slicing.OneForEach := by
  have hany : (ofNode (R := Rat)
      (crossed ["early-winter", "late-winter"] ["weekday", "weekend"])).toOption.any (fun time =>
      decide (time.timeslices = ["early-winter-weekday", "early-winter-weekend",
          "late-winter-weekday", "late-winter-weekend"] ∧
        time.dayTypes.members = ["weekday", "weekend"] ∧
        time.brackets.members = ["1"])) = true := by decide +kernel
  obtain ⟨time, h, htest⟩ := Exact.exists_ok_of_any hany
  obtain ⟨hslices, hdays, hbrackets⟩ := of_decide_eq_true htest
  have hcombines : Combines (crossed ["early-winter", "late-winter"] ["weekday", "weekend"]) :=
    ⟨rfl, fun part => by cases part <;> rfl⟩
  obtain ⟨hiff, hdistinct⟩ := (distinct_timeslices h).2 hcombines
  have hn : time.timeslices.Nodup := by
    refine hdistinct ⟨.season, fun part hpart label hlabel => ?_⟩
    cases part with
    | season => exact absurd rfl hpart
    | dayType =>
      rw [slicing, Slicing.part, hdays] at hlabel
      revert label
      decide
    | bracket =>
      rw [slicing, Slicing.part, hbrackets] at hlabel
      revert label
      decide
  exact ⟨time, h, hslices, hn, hiff.1 hn⟩

/-- Two combinations are called alike: a peak day in winter and a day at the peak of winter. One
timeslice stands for both and occurs twice, and no timeslice lies in the first one. -/
theorem not_distinct_dashed :
    ∃ time : TimeStructure Rat,
      ofNode (crossed ["winter", "winter-peak"] ["peak-day", "day"]) = .ok time ∧
      Combines (crossed ["winter", "winter-peak"] ["peak-day", "day"]) ∧
      time.timeslices =
        ["winter-peak-day", "winter-day", "winter-peak-peak-day", "winter-peak-day"] ∧
      ¬ time.timeslices.Nodup ∧
      "winter" ∈ time.seasons.members ∧ "peak-day" ∈ time.dayTypes.members ∧
      ¬ ∃ slice ∈ time.timeslices, time.seasons.memberOf[slice]? = some "winter" ∧
        time.dayTypes.memberOf[slice]? = some "peak-day" := by
  have hany : (ofNode (R := Rat)
      (crossed ["winter", "winter-peak"] ["peak-day", "day"])).toOption.any (fun time =>
      decide (time.timeslices =
          ["winter-peak-day", "winter-day", "winter-peak-peak-day", "winter-peak-day"] ∧
        ¬ time.timeslices.Nodup ∧
        "winter" ∈ time.seasons.members ∧ "peak-day" ∈ time.dayTypes.members ∧
        ¬ ∃ slice ∈ time.timeslices, time.seasons.memberOf[slice]? = some "winter" ∧
          time.dayTypes.memberOf[slice]? = some "peak-day")) = true := by decide +kernel
  obtain ⟨time, h, htest⟩ := Exact.exists_ok_of_any hany
  exact ⟨time, h, ⟨rfl, fun part => by cases part <;> rfl⟩, of_decide_eq_true htest⟩

end TimeStructure

end EnergyPlan
