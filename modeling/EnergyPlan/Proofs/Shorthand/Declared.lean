/-
# Inference over declared keys adds nothing

Levels can be aligned over any members if there are enough dimensions for them. If the keys
of a level are declared members of the dimension that the final members align it to, fewer
members that hold the declared ones align it to the same one: the keys are members there
already, and no earlier dimension has all of them. So if all keys are declared, a field adds
no member, the inferred members are the declared ones, and all fields together leave them as
they are.

Key definitions: `freePositions`, `MemberSets.Grows`.
Key theorems: `chooseAll_isSome_iff`, `alignLevels_of_fewer`, `inferField_of_grows`,
`declared_of_inferSets`, `inferSets_of_unchanged`.
-/
import EnergyPlan.Proofs.Idempotence
import EnergyPlan.Proofs.Resolution.Standing
import EnergyPlan.Fields.Inference

namespace EnergyPlan

open Config Text Fields

/-! ### Members that are there already -/

theorem MemberTable.add_of_mem {table : MemberTable} {d : Dimension} {member : String}
    (h : member ∈ table.getD d []) : table.add d member = table := by
  have hsame : appendNew (table.getD d []) member = table.getD d [] := if_pos h
  rw [MemberTable.add, hsame]
  refine Std.ExtTreeMap.ext_getElem? fun k => ?_
  rw [Std.ExtTreeMap.getElem?_insert]
  split
  · next hk =>
    obtain rfl := Std.LawfulEqCmp.eq_of_compare hk
    rw [Std.ExtTreeMap.getD_eq_getD_getElem?] at h ⊢
    cases hget : table[d]? with
    | none =>
      rw [hget] at h
      cases h
    | some members => rfl
  · rfl

namespace MemberSets

/-- Members that are there already are not added again. -/
theorem inferAll_of_subset {sets : MemberSets} {d : Dimension} {members : List String}
    (h : ∀ member ∈ members, member ∈ sets.members d) : sets.inferAll d members = sets := by
  induction members with
  | nil => rfl
  | cons member rest ih =>
    have hfirst : sets.infer d member = sets :=
      congrArg (MemberSets.mk · sets.given)
        (MemberTable.add_of_mem (h member List.mem_cons_self))
    rw [inferAll, List.foldl_cons, hfirst]
    exact ih fun m hm => h m (List.mem_cons_of_mem _ hm)

/-- Every member is declared. -/
def AllDeclared (sets : MemberSets) : Prop := sets.known = sets.given

theorem AllDeclared.declareAll {sets : MemberSets} (h : sets.AllDeclared) (d : Dimension)
    (members : List String) : (sets.declareAll d members).AllDeclared := by
  have hsame : sets.known = sets.given := h
  rw [declareAll_eq, AllDeclared, hsame]

theorem AllDeclared.declared_eq {sets : MemberSets} (h : sets.AllDeclared) (d : Dimension) :
    sets.declared d = sets.members d := by
  rw [declared, members, show sets.known = sets.given from h]

/-- Nothing has become a member or been declared that was not before, and nothing is declared
besides. -/
structure Grows (sets sets' : MemberSets) : Prop where
  members : ∀ d, sets.members d ⊆ sets'.members d
  given : sets'.given = sets.given

theorem Grows.refl (sets : MemberSets) : Grows sets sets := ⟨fun _ _ hm => hm, rfl⟩

theorem Grows.trans {a b c : MemberSets} (h : Grows a b) (h' : Grows b c) : Grows a c :=
  ⟨fun d _ hm => h'.members d (h.members d hm), h'.given.trans h.given⟩

theorem grows_inferAll (sets : MemberSets) (d : Dimension) (members : List String) :
    Grows sets (sets.inferAll d members) := by
  induction members generalizing sets with
  | nil => exact .refl sets
  | cons member rest ih =>
    have hfirst : Grows sets (sets.infer d member) := by
      refine ⟨fun d' m hm => ?_, rfl⟩
      rw [members_infer]
      split
      · next heq =>
        subst heq
        exact mem_appendNew.2 (Or.inl hm)
      · exact hm
    exact hfirst.trans (ih _)

end MemberSets

namespace Fields

variable {sets sets' : MemberSets} {dimensions : List Dimension} {path : String} {value : Node}

/-! ### Enough dimensions -/

/-- The positions that are not taken. -/
def freePositions (dimensions : List Dimension) (taken : List Nat) : List Nat :=
  (List.range dimensions.length).filter fun p => !taken.contains p

theorem mem_freePositions {taken : List Nat} {p : Nat} :
    p ∈ freePositions dimensions taken ↔ p < dimensions.length ∧ p ∉ taken := by
  simp [freePositions]

theorem exists_choose (sets : MemberSets) {taken : List Nat} (keys : List String)
    (h : freePositions dimensions taken ≠ []) :
    ∃ p, choose sets dimensions taken keys = some p := by
  obtain ⟨q, hq⟩ := List.exists_mem_of_ne_nil _ h
  obtain ⟨hlt, hfree⟩ := mem_freePositions.1 hq
  rw [← Option.isSome_iff_exists, choose, List.findSome?_isSome_iff]
  refine ⟨fun _ => true, ?_, ?_⟩
  · rw [preferences]
    split <;> simp
  · exact Option.isSome_iff_exists.2
      (exists_firstFree hfree (List.getElem?_eq_getElem hlt) rfl)

/-- Taking a free position leaves one less. -/
theorem length_freePositions_cons {taken : List Nat} {p : Nat}
    (h : p ∈ freePositions dimensions taken) :
    (freePositions dimensions (p :: taken)).length + 1 =
      (freePositions dimensions taken).length := by
  have herase : freePositions dimensions (p :: taken) =
      (freePositions dimensions taken).erase p := by
    have hnodup : (freePositions dimensions taken).Nodup := List.nodup_range.filter _
    rw [hnodup.erase_eq_filter, freePositions, freePositions, List.filter_filter]
    refine List.filter_congr fun q _ => ?_
    rw [Bool.eq_iff_iff]
    simp
  rw [herase, List.length_erase_of_mem h]
  have hpos := List.length_pos_of_mem h
  omega

/-- **Levels are aligned exactly if there are enough positions**, whatever the members are. -/
theorem chooseAll_isSome_iff {levels : List (List String)} {taken : List Nat} :
    (∃ ps, chooseAll sets dimensions taken levels = some ps) ↔
      levels.length ≤ (freePositions dimensions taken).length := by
  induction levels generalizing taken with
  | nil => simp [chooseAll]
  | cons keys rest ih =>
    simp only [chooseAll, Option.bind_eq_bind, Option.bind_eq_some_iff, Option.pure_def,
      Option.some.injEq, List.length_cons]
    constructor
    · rintro ⟨_, p, hp, qs, hqs, _⟩
      have hlen := length_freePositions_cons (mem_freePositions.2 (choose_eq_some hp))
      have hrest := ih.1 ⟨qs, hqs⟩
      omega
    · intro hle
      have hne : freePositions dimensions taken ≠ [] := by
        intro hnil
        rw [hnil] at hle
        cases hle
      obtain ⟨p, hp⟩ := exists_choose sets keys hne
      have hlen := length_freePositions_cons (mem_freePositions.2 (choose_eq_some hp))
      have hle' : rest.length ≤ (freePositions dimensions (p :: taken)).length := by omega
      obtain ⟨qs, hqs⟩ := ih.2 hle'
      exact ⟨_, p, hp, qs, hqs, rfl⟩

/-- What is aligned over some members is aligned over all. -/
theorem exists_alignLevels (sets' : MemberSets) {positions : List Nat}
    (h : alignLevels sets dimensions path value = .ok positions) :
    ∃ positions', alignLevels sets' dimensions path value = .ok positions' := by
  simp only [alignLevels] at h ⊢
  split at h
  · next ps hps =>
    have henough := chooseAll_isSome_iff.1 ⟨ps, hps⟩
    obtain ⟨qs, hqs⟩ : ∃ qs, chooseAll sets' dimensions [] (levelKeys value) = some qs :=
      chooseAll_isSome_iff.2 henough
    exact ⟨qs, by rw [hqs]⟩
  · cases h

/-! ### The same alignment over fewer members -/

theorem all_contains_iff {d : Dimension} {keys : List String} :
    keys.all (sets.contains d) = true ↔ ∀ key ∈ keys, key ∈ sets.members d := by
  simp [MemberSets.contains]

/-- Some keys have a dimension that has them all and that no fewer members take from them. -/
theorem choose_of_fewer {taken : List Nat} {keys : List String} {p : Nat} {d : Dimension}
    (hmembers : ∀ d, sets.members d ⊆ sets'.members d)
    (hp : choose sets' dimensions taken keys = some p) (hd : dimensions[p]? = some d)
    (hkeys : ∀ key ∈ keys, key ∈ sets.members d) : choose sets dimensions taken keys = some p := by
  have hfree := (choose_eq_some hp).2
  -- the more members accept this dimension, so they choose the first that they accept
  have hkeys' : keys.all (sets'.contains d) = true :=
    all_contains_iff.2 fun key hk => hmembers d (hkeys key hk)
  obtain ⟨q, hq⟩ : ∃ q,
      firstFree dimensions taken (fun d => keys.all (sets'.contains d)) = some q :=
    exists_firstFree hfree hd hkeys'
  obtain rfl : q = p := Option.some.inj ((choose_of_firstFree hq).symm.trans hp)
  obtain ⟨-, -, hbefore⟩ := firstFree_eq_some_iff.1 hq
  refine choose_of_firstFree (firstFree_eq_some_iff.2
    ⟨hfree, ⟨d, hd, all_contains_iff.2 hkeys⟩, fun j hj hjfree dj hdj => ?_⟩)
  -- what the fewer accept, the more accept as well
  refine Bool.eq_false_iff.2 fun hall => Bool.eq_false_iff.1 (hbefore j hj hjfree dj hdj) ?_
  exact all_contains_iff.2 fun key hk => hmembers dj (all_contains_iff.1 hall key hk)

theorem chooseAll_of_fewer {levels : List (List String)} {taken ps : List Nat}
    (hmembers : ∀ d, sets.members d ⊆ sets'.members d)
    (h : chooseAll sets' dimensions taken levels = some ps)
    (hkeys : ∀ (level p : Nat) (keys : List String) (d : Dimension), ps[level]? = some p →
      levels[level]? = some keys → dimensions[p]? = some d → ∀ key ∈ keys, key ∈ sets.members d) :
    chooseAll sets dimensions taken levels = some ps := by
  induction levels generalizing taken ps with
  | nil => exact h
  | cons keys rest ih =>
    simp only [chooseAll, Option.bind_eq_bind, Option.bind_eq_some_iff, Option.pure_def,
      Option.some.injEq] at h ⊢
    obtain ⟨p, hp, qs, hqs, rfl⟩ := h
    have hd := List.getElem?_eq_getElem (choose_eq_some hp).1
    refine ⟨p, choose_of_fewer hmembers hp hd (hkeys 0 p keys _ rfl rfl hd), qs, ?_, rfl⟩
    exact ih hqs fun level q keys' d hq hk hdq => hkeys (level + 1) q keys' d hq hk hdq

/-- **A value whose keys are members already** is aligned as it is over more members. -/
theorem alignLevels_of_fewer {positions : List Nat} {known : Dimension → List String}
    (hmembers : ∀ d, sets.members d ⊆ sets'.members d) (hknown : ∀ d, known d ⊆ sets.members d)
    (hkeys : KeysIn known sets' dimensions value)
    (h : alignLevels sets' dimensions path value = .ok positions) :
    alignLevels sets dimensions path value = .ok positions := by
  have hall := hkeys path positions h
  simp only [alignLevels] at h ⊢
  split at h
  · next ps hps =>
    cases h
    rw [chooseAll_of_fewer hmembers hps fun level p keys d hp hk hd key hkey =>
      hknown d (hall level p keys d hp hk hd key hkey)]
  · cases h

/-! ### Fields that add nothing -/

theorem inferLevels_cons (dimensions : List Dimension) (sets : MemberSets) (p : Nat)
    (keys : List String) (rest : List (Nat × List String)) :
    inferLevels dimensions sets ((p, keys) :: rest) =
      inferLevels dimensions
        (match dimensions[p]? with
          | some dimension => sets.inferAll dimension keys
          | none => sets) rest := rfl

theorem inferLevels_of_members {levels : List (Nat × List String)}
    (h : ∀ level ∈ levels, ∀ d, dimensions[level.1]? = some d →
      ∀ key ∈ level.2, key ∈ sets.members d) : inferLevels dimensions sets levels = sets := by
  induction levels with
  | nil => rfl
  | cons level rest ih =>
    obtain ⟨p, keys⟩ := level
    have hrest := ih fun l hl => h l (List.mem_cons_of_mem _ hl)
    rw [inferLevels_cons]
    cases hd : dimensions[p]? with
    | none => exact hrest
    | some d =>
      have hkeys := h (p, keys) List.mem_cons_self d hd
      simp only [MemberSets.inferAll_of_subset hkeys]
      exact hrest

/-- A field whose keys are members adds nothing. -/
theorem inferField_of_keysIn {site : FieldSite}
    (hkeys : KeysIn sets.members sets site.spec.dimensions site.value)
    (h : site.value.isMapping = true →
      ∃ positions, alignLevels sets site.spec.dimensions site.path site.value = .ok positions) :
    inferField sets site = .ok sets := by
  rw [inferField]
  by_cases hm : site.value.isMapping = true
  · obtain ⟨positions, hp⟩ := h hm
    have hall := hkeys site.path positions hp
    have hadds : inferLevels site.spec.dimensions sets (positions.zip (levelKeys site.value)) =
        sets := by
      refine inferLevels_of_members fun level hl d hd key hk => ?_
      obtain ⟨i, hi⟩ := List.getElem?_of_mem hl
      obtain ⟨hpos, hlevel⟩ := List.getElem?_zip_eq_some.1 hi
      exact hall i level.1 level.2 d hpos hlevel hd key hk
    simp only [hm, hp, hadds, Bool.not_true, Bool.false_eq_true, if_false, bind, Except.bind]
    rfl
  · simp only [Bool.eq_false_iff.2 hm, Bool.not_false, if_true]
    rfl

theorem grows_inferLevels (dimensions : List Dimension) (sets : MemberSets)
    (levels : List (Nat × List String)) :
    MemberSets.Grows sets (inferLevels dimensions sets levels) := by
  induction levels generalizing sets with
  | nil => exact .refl sets
  | cons level rest ih =>
    obtain ⟨p, keys⟩ := level
    rw [inferLevels_cons]
    cases dimensions[p]? with
    | none => exact ih sets
    | some d => exact (MemberSets.grows_inferAll sets d keys).trans (ih _)

/-- A mapping adds the keys of its levels, each where the level is aligned. -/
theorem inferField_mapping {site : FieldSite} (hm : site.value.isMapping = true)
    (h : inferField sets site = .ok sets') :
    ∃ positions, alignLevels sets site.spec.dimensions site.path site.value = .ok positions ∧
      sets' = inferLevels site.spec.dimensions sets (positions.zip (levelKeys site.value)) := by
  rw [inferField, hm] at h
  cases ha : alignLevels sets site.spec.dimensions site.path site.value with
  | error e =>
    simp only [ha, bind, Except.bind] at h
    cases h
  | ok positions =>
    rw [ha] at h
    cases h
    exact ⟨positions, rfl, rfl⟩

theorem grows_inferField {site : FieldSite} (h : inferField sets site = .ok sets') :
    MemberSets.Grows sets sets' := by
  by_cases hm : site.value.isMapping = true
  · obtain ⟨positions, -, rfl⟩ := inferField_mapping hm h
    exact grows_inferLevels _ _ _
  · rw [inferField, Bool.eq_false_iff.2 hm] at h
    cases h
    exact .refl _

/-! ### All fields together -/

theorem allDeclared_declareIdentifiers (root : Node) (h : sets.AllDeclared) :
    (declareIdentifiers root sets).AllDeclared := by
  have hall : ∀ (ids : List (Dimension × List String)) (sets : MemberSets), sets.AllDeclared →
      (ids.foldl (fun sets id => sets.declareAll id.1 id.2) sets).AllDeclared := by
    intro ids
    induction ids with
    | nil => exact fun sets h => h
    | cons id rest ih => exact fun sets h => ih _ (h.declareAll id.1 id.2)
  exact hall _ _ h

theorem allDeclared_sets {R : Type} (time : TimeStructure R) : time.sets.AllDeclared := by
  have hempty : MemberSets.empty.AllDeclared := rfl
  exact ((((hempty.declareAll _ _).declareAll _ _).declareAll _ _).declareAll _ _).declareAll _ _

/-- Regions and destinations are declared alike, so sharing them adds none. -/
theorem shareRegions_declared {R : Type} (root : Node) (time : TimeStructure R) :
    shareRegions (declareIdentifiers root time.sets) = declareIdentifiers root time.sets := by
  set declared := declareIdentifiers root time.sets with hdeclared
  have hsame : declared.members .linkedRegion = declared.members .region := by
    simp only [hdeclared, declareIdentifiers, identifiers, List.foldl_cons, List.foldl_nil,
      TimeStructure.sets, TimeStructure.memberSets, MemberSets.members_declareAll, reduceCtorEq,
      if_false, if_true]
    rfl
  have hregion : declared.inferAll .region (declared.members .linkedRegion) = declared :=
    MemberSets.inferAll_of_subset fun m hm => hsame ▸ hm
  have hlinked : declared.inferAll .linkedRegion (declared.members .region) = declared :=
    MemberSets.inferAll_of_subset fun m hm => hsame.symm ▸ hm
  simp only [shareRegions, hregion, hlinked]

theorem grows_foldlM_inferField {sites : List FieldSite}
    (h : sites.foldlM inferField sets = .ok sets') : MemberSets.Grows sets sets' := by
  refine foldlM_keeps (P := fun s => MemberSets.Grows sets s) ?_ (.refl sets) h
  exact fun site _ before after hb hstep => hb.trans (grows_inferField hstep)

theorem grows_shareRegions (sets : MemberSets) : MemberSets.Grows sets (shareRegions sets) :=
  (MemberSets.grows_inferAll _ _ _).trans (MemberSets.grows_inferAll _ _ _)

/-- A fold that leaves a value as it is at every step leaves it as it is. -/
theorem foldlM_stays {ε α β : Type} {f : β → α → Except ε β} {b : β} {as : List α}
    (h : ∀ a ∈ as, f b a = .ok b) : as.foldlM f b = .ok b := by
  induction as with
  | nil => rfl
  | cons a rest ih =>
    rw [List.foldlM_cons, h a List.mem_cons_self]
    exact ih fun a' ha => h a' (List.mem_cons_of_mem _ ha)

/-- What every step of a fold says of what it starts from holds of the start of the fold, if the
steps leave it as it is. -/
theorem foldlM_stays_of {ε α β : Type} {f : β → α → Except ε β} {b : β} {as : List α} {r : β}
    (hstep : ∀ a ∈ as, ∀ b', f b a = .ok b' → b' = b) (h : as.foldlM f b = .ok r) :
    ∀ a ∈ as, f b a = .ok b := by
  induction as with
  | nil => exact fun a ha => nomatch ha
  | cons a rest ih =>
    rw [List.foldlM_cons] at h
    cases hf : f b a with
    | error e =>
      rw [hf] at h
      cases h
    | ok b' =>
      obtain rfl := hstep a List.mem_cons_self b' hf
      rw [hf] at h
      intro a' ha
      rcases List.mem_cons.1 ha with rfl | ha
      · exact hf
      · exact ih (fun a ha => hstep a (List.mem_cons_of_mem _ ha)) h a' ha

variable {R : Type}

/-- A field whose keys are members already adds none, wherever the members grow to. -/
theorem inferField_of_grows {start final after : MemberSets} {site : FieldSite}
    (hgrows : MemberSets.Grows start final) (hknown : ∀ d, final.declared d ⊆ start.members d)
    (hkeys : KeysIn final.declared final site.spec.dimensions site.value)
    (hafter : inferField start site = .ok after) : after = start := by
  have hstay : inferField start site = .ok start := by
    refine inferField_of_keysIn ?_ fun hm => ?_
    · intro path positions hp level p keys d hpos hlevel hd key hk
      -- the field is aligned over the first members as over the final ones
      obtain ⟨positions', hp'⟩ := exists_alignLevels final hp
      have hp₀ := alignLevels_of_fewer hgrows.members hknown hkeys hp'
      rw [hp, Except.ok.injEq] at hp₀
      subst hp₀
      exact hknown d (hkeys path positions hp' level p keys d hpos hlevel hd key hk)
    · obtain ⟨positions, hp, -⟩ := inferField_mapping hm hafter
      exact ⟨positions, hp⟩
  rw [hstay, Except.ok.injEq] at hafter
  exact hafter.symm

/-- Inference only adds members, and declares none. -/
theorem grows_inferSets {root : Node} {time : TimeStructure R}
    (h : inferSets root time = .ok sets) :
    MemberSets.Grows (declareIdentifiers root time.sets) sets := by
  rw [inferSets] at h
  cases hfold : (fieldSites root).foldlM inferField (declareIdentifiers root time.sets) with
  | error e =>
    rw [hfold] at h
    cases h
  | ok last =>
    rw [hfold] at h
    cases h
    exact (grows_foldlM_inferField hfold).trans (grows_shareRegions last)

/-- **If every key is declared, the inferred members are the declared ones**, and every field
leaves them as they are. -/
theorem declared_of_inferSets {root : Node} {time : TimeStructure R}
    (h : inferSets root time = .ok sets)
    (hkeys : ∀ site ∈ fieldSites root, KeysIn sets.declared sets site.spec.dimensions site.value) :
    sets = declareIdentifiers root time.sets ∧
      ∀ site ∈ fieldSites root, inferField sets site = .ok sets := by
  have hgrows := grows_inferSets h
  set start := declareIdentifiers root time.sets with hstart
  have hdeclared : start.AllDeclared := allDeclared_declareIdentifiers root (allDeclared_sets time)
  rw [inferSets, ← hstart] at h
  cases hfold : (fieldSites root).foldlM inferField start with
  | error e =>
    rw [hfold] at h
    cases h
  | ok last =>
    rw [hfold] at h
    cases h
    have hknown : ∀ d, (shareRegions last).declared d ⊆ start.members d := by
      intro d m hm
      rw [← hdeclared.declared_eq]
      rwa [MemberSets.declared, hgrows.given] at hm
    have hall := foldlM_stays_of
      (fun site hs _ hafter => inferField_of_grows hgrows hknown (hkeys site hs) hafter) hfold
    have hlast : last = start := by
      rw [foldlM_stays hall, Except.ok.injEq] at hfold
      exact hfold.symm
    subst hlast
    rw [hstart, shareRegions_declared, ← hstart]
    exact ⟨rfl, hall⟩

/-- Declared members that every field leaves as they are are what is inferred. -/
theorem inferSets_of_unchanged {root : Node} {time : TimeStructure R}
    (hsets : sets = declareIdentifiers root time.sets)
    (h : ∀ site ∈ fieldSites root, inferField sets site = .ok sets) :
    inferSets root time = .ok sets := by
  subst hsets
  rw [inferSets, foldlM_stays h]
  exact congrArg Except.ok (shareRegions_declared root time)

end Fields

end EnergyPlan
