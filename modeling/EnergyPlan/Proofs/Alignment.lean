/-
# Where inference and expansion align a field alike

Inference aligns a field over the members gathered before it, expansion over all of them.
Inference then adds the keys of every level to the dimension it gave the level, so over all
members that dimension accepts the level whatever made inference choose it, and expansion
gives the level to the first free dimension that accepts it. The two therefore agree exactly
as long as no free dimension before the inferred one comes to have all keys of a level.

It can come to have them: a key that stands for a commodity in one field and is mistaken for
a region in a later one becomes a region, and takes the level of the first field with it.

Key definitions: `LevelsWithin`, `Overtaken`.
Key theorems: `choose_eq_iff`, `chooseAll_eq_iff`, `levelsWithin_inferSets`,
`inferSets_aligns_iff`.
-/
import EnergyPlan.Proofs.Exact
import EnergyPlan.Proofs.Shorthand.Declared

namespace EnergyPlan

open Config Text

theorem MemberSets.mem_inferAll {sets : MemberSets} {d : Dimension} {members : List String}
    {member : String} (h : member ∈ members) : member ∈ (sets.inferAll d members).members d := by
  induction members generalizing sets with
  | nil => cases h
  | cons first rest ih =>
    rcases List.mem_cons.1 h with rfl | hrest
    · refine (grows_inferAll (sets.infer d member) d rest).members d ?_
      rw [members_infer, if_pos rfl]
      exact mem_appendNew.2 (Or.inr rfl)
    · exact ih hrest

namespace Fields

variable {sets sets' : MemberSets} {dimensions : List Dimension} {path : String} {value : Node}

/-- The keys of each level are members of the dimension at the position of the level. -/
def LevelsWithin (sets : MemberSets) (dimensions : List Dimension)
    (aligned : List (Nat × List String)) : Prop :=
  ∀ level ∈ aligned, ∀ d, dimensions[level.1]? = some d → ∀ key ∈ level.2, key ∈ sets.members d

/-- At some level a dimension before that of the level is neither in `taken` nor taken by a level
before, and all keys of the level are its members. -/
def OvertakenAfter (sets : MemberSets) (dimensions : List Dimension) (taken : List Nat)
    (aligned : List (Nat × List String)) : Prop :=
  ∃ above p keys below, aligned = above ++ (p, keys) :: below ∧
    ∃ q < p, q ∉ taken ∧ q ∉ above.map Prod.fst ∧
      ∃ d, dimensions[q]? = some d ∧ ∀ key ∈ keys, key ∈ sets.members d

/-- At some level a dimension before that of the level is free, and all keys of the level are its
members. -/
def Overtaken (sets : MemberSets) (dimensions : List Dimension)
    (aligned : List (Nat × List String)) : Prop :=
  OvertakenAfter sets dimensions [] aligned

/-! ### One level -/

/-- A free position whose dimension has all keys is chosen exactly if none before it is free and
has them all. -/
theorem choose_eq_iff {taken : List Nat} {keys : List String} {p : Nat} {d : Dimension}
    (hfree : p ∉ taken) (hd : dimensions[p]? = some d)
    (hkeys : ∀ key ∈ keys, key ∈ sets.members d) :
    choose sets dimensions taken keys = some p ↔
      ¬ ∃ q < p, q ∉ taken ∧ ∃ d', dimensions[q]? = some d' ∧
        ∀ key ∈ keys, key ∈ sets.members d' := by
  obtain ⟨r, hr⟩ : ∃ r, firstFree dimensions taken (fun d => keys.all (sets.contains d)) = some r :=
    exists_firstFree hfree hd (all_contains_iff.2 hkeys)
  obtain ⟨hrfree, ⟨dr, hdr, hall⟩, hbefore⟩ := firstFree_eq_some_iff.1 hr
  rw [choose_of_firstFree hr, Option.some.injEq]
  constructor
  · rintro rfl ⟨q, hq, hqfree, d', hd', hk⟩
    exact Bool.eq_false_iff.1 (hbefore q hq hqfree d' hd') (all_contains_iff.2 hk)
  · intro hnone
    -- the first position that accepts the keys is not after this one, which accepts them
    have hle : r ≤ p := by
      by_contra hlt
      exact Bool.eq_false_iff.1 (hbefore p (by omega) hfree d hd) (all_contains_iff.2 hkeys)
    by_contra hne
    exact hnone ⟨r, by omega, hrfree, dr, hdr, all_contains_iff.1 hall⟩

/-! ### All levels -/

theorem overtakenAfter_cons {taken : List Nat} {p : Nat} {keys : List String}
    {rest : List (Nat × List String)} :
    OvertakenAfter sets dimensions taken ((p, keys) :: rest) ↔
      (∃ q < p, q ∉ taken ∧ ∃ d, dimensions[q]? = some d ∧ ∀ key ∈ keys, key ∈ sets.members d) ∨
        OvertakenAfter sets dimensions (p :: taken) rest := by
  constructor
  · rintro ⟨above, p', keys', below, hsplit, q, hq, hfree, habove, haccepts⟩
    cases above with
    | nil =>
      obtain ⟨⟨rfl, rfl⟩, rfl⟩ : (p = p' ∧ keys = keys') ∧ rest = below := by simpa using hsplit
      exact Or.inl ⟨q, hq, hfree, haccepts⟩
    | cons level above =>
      rw [List.cons_append, List.cons.injEq] at hsplit
      obtain ⟨rfl, rfl⟩ := hsplit
      rw [List.map_cons, List.mem_cons, not_or] at habove
      refine Or.inr ⟨above, p', keys', below, rfl, q, hq, ?_, habove.2, haccepts⟩
      rw [List.mem_cons, not_or]
      exact ⟨habove.1, hfree⟩
  · rintro (⟨q, hq, hfree, haccepts⟩ |
      ⟨above, p', keys', below, rfl, q, hq, hfree, habove, haccepts⟩)
    · exact ⟨[], p, keys, rest, rfl, q, hq, hfree, nofun, haccepts⟩
    · rw [List.mem_cons, not_or] at hfree
      refine ⟨(p, keys) :: above, p', keys', below, rfl, q, hq, hfree.2, ?_, haccepts⟩
      rw [List.map_cons, List.mem_cons, not_or]
      exact ⟨hfree.1, habove⟩

/-- **Levels are aligned as before exactly if none is overtaken**, over members that have the keys
of each level where it was aligned before. -/
theorem chooseAll_eq_iff {levels : List (List String)} {taken ps : List Nat}
    (h : chooseAll sets dimensions taken levels = some ps)
    (hwithin : LevelsWithin sets' dimensions (ps.zip levels)) :
    chooseAll sets' dimensions taken levels = some ps ↔
      ¬ OvertakenAfter sets' dimensions taken (ps.zip levels) := by
  induction levels generalizing taken ps with
  | nil =>
    cases h
    refine iff_of_true rfl ?_
    rintro ⟨above, p, keys, below, hsplit, -⟩
    simp at hsplit
  | cons keys rest ih =>
    simp only [chooseAll, Option.bind_eq_bind, Option.bind_eq_some_iff, Option.pure_def,
      Option.some.injEq] at h ⊢
    obtain ⟨p, hp, qs, hqs, rfl⟩ := h
    obtain ⟨hlt, hfree⟩ := choose_eq_some hp
    have hd := List.getElem?_eq_getElem hlt
    rw [List.zip_cons_cons] at hwithin ⊢
    have hkeys := hwithin (p, keys) List.mem_cons_self _ hd
    have hrest := ih hqs fun level hl => hwithin level (List.mem_cons_of_mem _ hl)
    rw [overtakenAfter_cons, not_or, ← hrest, ← choose_eq_iff hfree hd hkeys]
    constructor
    · rintro ⟨p', hp', qs', hqs', heq⟩
      obtain ⟨rfl, rfl⟩ := List.cons.inj heq
      exact ⟨hp', hqs'⟩
    · rintro ⟨hp', hqs'⟩
      exact ⟨p, hp', qs, hqs', rfl⟩

theorem chooseAll_of_alignLevels {positions : List Nat}
    (h : alignLevels sets dimensions path value = .ok positions) :
    chooseAll sets dimensions [] (levelKeys value) = some positions := by
  simp only [alignLevels] at h
  split at h
  · next ps hps =>
    cases h
    exact hps
  · cases h

/-! ### What inference adds -/

theorem LevelsWithin.mono {aligned : List (Nat × List String)}
    (hmembers : ∀ d, sets.members d ⊆ sets'.members d) (h : LevelsWithin sets dimensions aligned) :
    LevelsWithin sets' dimensions aligned :=
  fun level hl d hd key hk => hmembers d (h level hl d hd key hk)

/-- Inference makes the keys of every level members of its dimension. -/
theorem levelsWithin_inferLevels (dimensions : List Dimension) (sets : MemberSets)
    (aligned : List (Nat × List String)) :
    LevelsWithin (inferLevels dimensions sets aligned) dimensions aligned := by
  induction aligned generalizing sets with
  | nil => exact fun level hl => nomatch hl
  | cons level rest ih =>
    obtain ⟨p, keys⟩ := level
    intro level hl d hd key hk
    rw [inferLevels_cons]
    rcases List.mem_cons.1 hl with rfl | hl
    · rw [hd]
      exact (grows_inferLevels _ _ _).members d (MemberSets.mem_inferAll hk)
    · exact ih _ level hl d hd key hk

theorem foldlM_append_cons_eq_ok {ε α β : Type} {f : β → α → Except ε β} {b r : β} {a : α}
    {before after : List α} (h : (before ++ a :: after).foldlM f b = .ok r) :
    ∃ mid next, before.foldlM f b = .ok mid ∧ f mid a = .ok next ∧
      after.foldlM f next = .ok r := by
  rw [List.foldlM_append] at h
  cases hmid : before.foldlM f b with
  | error e =>
    rw [hmid] at h
    cases h
  | ok mid =>
    rw [hmid] at h
    change (a :: after).foldlM f mid = .ok r at h
    rw [List.foldlM_cons] at h
    cases hnext : f mid a with
    | error e =>
      rw [hnext] at h
      cases h
    | ok next =>
      rw [hnext] at h
      exact ⟨mid, next, rfl, hnext, h⟩

variable {R : Type} {root : Node} {time : TimeStructure R}

/-- A field that is a mapping is aligned over the members gathered before it, and its keys are
members in the end where they were aligned. -/
theorem levelsWithin_inferSets (h : inferSets root time = .ok sets) {before after : List FieldSite}
    {site : FieldSite} (hsites : fieldSites root = before ++ site :: after)
    (hm : site.value.isMapping = true) :
    ∃ gathered used, before.foldlM inferField (declareIdentifiers root time.sets) = .ok gathered ∧
      alignLevels gathered site.spec.dimensions site.path site.value = .ok used ∧
      LevelsWithin sets site.spec.dimensions (used.zip (levelKeys site.value)) := by
  rw [inferSets, hsites] at h
  cases hfold : (before ++ site :: after).foldlM inferField
      (declareIdentifiers root time.sets) with
  | error e =>
    rw [hfold] at h
    cases h
  | ok last =>
    rw [hfold] at h
    cases h
    obtain ⟨gathered, next, hg, hn, hlast⟩ := foldlM_append_cons_eq_ok hfold
    obtain ⟨used, hu, rfl⟩ := inferField_mapping hm hn
    have hgrows := (grows_foldlM_inferField hlast).trans (grows_shareRegions last)
    exact ⟨gathered, used, hg, hu, (levelsWithin_inferLevels _ _ _).mono hgrows.members⟩

/-- **A field is aligned alike exactly if no level of it is overtaken.** Its keys are members in
the end where inference aligned them; expansion aligns it as inference did exactly if at no level
a free dimension before the inferred one has got all keys, and then the keys are members where
expansion aligns them too. -/
theorem inferSets_aligns_iff (h : inferSets root time = .ok sets) {before after : List FieldSite}
    {site : FieldSite} (hsites : fieldSites root = before ++ site :: after)
    (hm : site.value.isMapping = true) :
    ∃ gathered used final,
      before.foldlM inferField (declareIdentifiers root time.sets) = .ok gathered ∧
      alignLevels gathered site.spec.dimensions site.path site.value = .ok used ∧
      alignLevels sets site.spec.dimensions site.path site.value = .ok final ∧
      LevelsWithin sets site.spec.dimensions (used.zip (levelKeys site.value)) ∧
      (final = used ↔ ¬ Overtaken sets site.spec.dimensions (used.zip (levelKeys site.value))) ∧
      (final = used →
        LevelsWithin sets site.spec.dimensions (final.zip (levelKeys site.value))) := by
  obtain ⟨gathered, used, hg, hu, hwithin⟩ := levelsWithin_inferSets h hsites hm
  obtain ⟨final, hf⟩ := exists_alignLevels sets hu
  refine ⟨gathered, used, final, hg, hu, hf, hwithin, ?_, fun heq => heq ▸ hwithin⟩
  rw [Overtaken, ← chooseAll_eq_iff (chooseAll_of_alignLevels hu) hwithin,
    chooseAll_of_alignLevels hf, Option.some.injEq]

/-! ### A commodity mistaken for a region -/

/-- A mill whose output is given by commodity and region, and a discount rate that has, without a
value, a commodity among the regions. -/
def sampleMill : Node :=
  .mapping [
    ("id", .plain "plan"),
    ("time_definition", .mapping [("years", .sequence [.plain "2020"])]),
    ("regions", .sequence [.mapping [("id", .plain "north")]]),
    ("commodities", .sequence [.mapping [("id", .plain "electricity")]]),
    ("impacts", .sequence [.mapping [("id", .plain "co2")]]),
    ("technologies", .sequence [.mapping [
      ("id", .plain "mill"),
      ("operating_modes", .sequence [.mapping [
        ("id", .plain "run"),
        ("output_activity_ratio", .mapping [
          ("electricity", .mapping [("north", .plain "1")])])]])]]),
    ("discount_rate", .mapping [("north", .plain "0.05"), ("electricity", .null)])]

/-- The time structure of the mill. -/
def sampleMillTime : Except TimeError (TimeStructure Rat) :=
  TimeStructure.ofNode ((sampleMill.entry? "time_definition").getD .null)

/-- A test that the two fields of the mill pass is a test of all its fields. -/
theorem exists_sites_of_any {p : FieldSite → FieldSite → Bool}
    (h : ((fieldSites sampleMill)[0]?.any fun first =>
      (fieldSites sampleMill)[1]?.any (p first)) = true) :
    ∃ first last, fieldSites sampleMill = [first, last] ∧ p first last = true := by
  have hlength : (fieldSites sampleMill).length = 2 := by decide +kernel
  obtain ⟨first, last, hsites⟩ := List.length_eq_two.1 hlength
  rw [hsites] at h
  exact ⟨first, last, hsites, h⟩

/-- The discount rate of the mill is aligned alike, and its mistaken key becomes a region. -/
theorem inferSets_aligns_iff_mill :
    ∃ (time : TimeStructure Rat) (sets gathered : MemberSets) (first last : FieldSite)
      (used final : List Nat),
      sampleMillTime = .ok time ∧ inferSets sampleMill time = .ok sets ∧
      fieldSites sampleMill = [first] ++ last :: [] ∧ last.value.isMapping = true ∧
      [first].foldlM inferField (declareIdentifiers sampleMill time.sets) = .ok gathered ∧
      alignLevels gathered last.spec.dimensions last.path last.value = .ok used ∧
      alignLevels sets last.spec.dimensions last.path last.value = .ok final ∧
      final = used ∧ ¬ Overtaken sets last.spec.dimensions (used.zip (levelKeys last.value)) ∧
      LevelsWithin sets last.spec.dimensions (final.zip (levelKeys last.value)) ∧
      "electricity" ∈ sets.members .region := by
  have hany : sampleMillTime.toOption.any (fun time =>
      (inferSets sampleMill time).toOption.any fun sets =>
        (fieldSites sampleMill)[0]?.any fun first => (fieldSites sampleMill)[1]?.any fun last =>
          ([first].foldlM inferField (declareIdentifiers sampleMill time.sets)).toOption.any
            fun gathered =>
              decide (last.value.isMapping = true ∧
                (alignLevels gathered last.spec.dimensions last.path last.value).toOption =
                  (alignLevels sets last.spec.dimensions last.path last.value).toOption ∧
                "electricity" ∈ sets.members .region)) = true := by decide +kernel
  obtain ⟨time, ht, hany⟩ := Exact.exists_ok_of_any hany
  obtain ⟨sets, h, hany⟩ := Exact.exists_ok_of_any hany
  obtain ⟨first, last, hsites, hany⟩ := exists_sites_of_any hany
  obtain ⟨_, hfold, htest⟩ := Exact.exists_ok_of_any hany
  obtain ⟨hm, hsame, hmember⟩ := of_decide_eq_true htest
  have hsites : fieldSites sampleMill = [first] ++ last :: [] := hsites
  obtain ⟨gathered, used, final, hg, hu, hf, -, hiff, hwithin⟩ :=
    inferSets_aligns_iff h hsites hm
  obtain rfl := Except.ok.inj (hg.symm.trans hfold)
  rw [hu, hf] at hsame
  have heq : final = used := (Option.some.inj hsame).symm
  exact ⟨time, sets, gathered, first, last, used, final, ht, h, hsites, hm, hg, hu, hf, heq,
    hiff.1 heq, hwithin heq, hmember⟩

/-- **A field can be aligned differently.** The output of the mill is aligned by commodity and
region where it is inferred, and by region and commodity where it is expanded, with a region at
the level of the commodities. -/
theorem not_aligned_alike_mill :
    ∃ (time : TimeStructure Rat) (sets gathered : MemberSets) (site last : FieldSite),
      sampleMillTime = .ok time ∧ inferSets sampleMill time = .ok sets ∧
      fieldSites sampleMill = [] ++ site :: [last] ∧ site.value.isMapping = true ∧
      [].foldlM inferField (declareIdentifiers sampleMill time.sets) = .ok gathered ∧
      alignLevels gathered site.spec.dimensions site.path site.value = .ok [1, 0] ∧
      alignLevels sets site.spec.dimensions site.path site.value = .ok [0, 1] ∧
      ¬ LevelsWithin sets site.spec.dimensions ([0, 1].zip (levelKeys site.value)) := by
  have hany : sampleMillTime.toOption.any (fun time =>
      (inferSets sampleMill time).toOption.any fun sets =>
        (fieldSites sampleMill)[0]?.any fun site => (fieldSites sampleMill)[1]?.any fun _ =>
          let gathered := declareIdentifiers sampleMill time.sets
          decide (site.value.isMapping = true ∧
            (alignLevels gathered site.spec.dimensions site.path site.value).toOption =
              some [1, 0] ∧
            (alignLevels sets site.spec.dimensions site.path site.value).toOption = some [0, 1] ∧
            levelKeys site.value = [["electricity"], ["north"]] ∧
            site.spec.dimensions[1]? = some .commodity ∧
            "north" ∉ sets.members .commodity)) = true := by decide +kernel
  obtain ⟨time, ht, hany⟩ := Exact.exists_ok_of_any hany
  obtain ⟨sets, h, hany⟩ := Exact.exists_ok_of_any hany
  obtain ⟨site, last, hsites, hany⟩ := exists_sites_of_any hany
  obtain ⟨hm, hused, hfinal, hlevels, hcommodity, hnorth⟩ := of_decide_eq_true hany
  refine ⟨time, sets, _, site, last, ht, h, hsites, hm, rfl, ?_, ?_, fun hwithin => hnorth ?_⟩
  · exact Exact.eq_ok_of_toOption hused
  · exact Exact.eq_ok_of_toOption hfinal
  · rw [hlevels] at hwithin
    exact hwithin (1, ["north"]) (by decide) .commodity hcommodity "north" (by decide)

end Fields

end EnergyPlan
