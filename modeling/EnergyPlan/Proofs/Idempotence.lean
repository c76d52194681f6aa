/-
# Expansion is idempotent

The keys that the entries of a value give are keys of its levels. If they are members of the
dimensions that the levels index, the candidates at every position are members in their own
order, and each entry covers one of them: expansion leads to an expanded value, or to one
without keys that stays as it is. The second expansion aligns the levels anew, by the keys
alone, and gives the value back.

Key definitions: `KeysIn`.
Key theorems: `exists_level_of_keyAt`, `listed_of_candidates`, `expanded_of_broadcast`,
`broadcast_idempotent`.
-/
import EnergyPlan.Proofs.Calls

namespace EnergyPlan.Fields

open Config Text

variable {sets : MemberSets} {dimensions : List Dimension} {path : String} {value result : Node}

/-- The keys of every level of a value are in the list of the dimension that the level indexes. -/
def KeysIn (known : Dimension → List String) (sets : MemberSets) (dimensions : List Dimension)
    (value : Node) : Prop :=
  ∀ path positions, alignLevels sets dimensions path value = .ok positions →
    ∀ (level p : Nat) (keys : List String) (d : Dimension), positions[level]? = some p →
      (levelKeys value)[level]? = some keys → dimensions[p]? = some d →
      ∀ key ∈ keys, key ∈ known d

/-- The keys of a value can be checked: its levels are aligned in one way at most. -/
theorem keysIn_iff {known : Dimension → List String} :
    KeysIn known sets dimensions value ↔
      ((chooseAll sets dimensions [] (levelKeys value)).all fun positions =>
        (positions.zip (levelKeys value)).all fun (p, keys) =>
          (dimensions[p]?).all fun d => keys.all fun key => decide (key ∈ known d)) = true := by
  have halign : ∀ path positions, alignLevels sets dimensions path value = .ok positions ↔
      chooseAll sets dimensions [] (levelKeys value) = some positions := by
    intro path positions
    simp only [alignLevels]
    cases chooseAll sets dimensions [] (levelKeys value) <;> simp
  simp only [KeysIn, halign, Option.all_eq_true, List.all_eq_true, decide_eq_true_eq]
  constructor
  · rintro h positions hp ⟨p, keys⟩ hm d hd key hk
    obtain ⟨level, hlevel⟩ := List.getElem?_of_mem hm
    obtain ⟨hpos, hkeys⟩ := List.getElem?_zip_eq_some.1 hlevel
    exact h "" positions hp level p keys d hpos hkeys hd key hk
  · intro h path positions hp level p keys d hpos hkeys hd key hk
    have hm : (p, keys) ∈ positions.zip (levelKeys value) :=
      List.mem_of_getElem? (List.getElem?_zip_eq_some.2 ⟨hpos, hkeys⟩)
    exact h positions hp (p, keys) hm d hd key hk

instance (known : Dimension → List String) :
    Decidable (KeysIn known sets dimensions value) :=
  decidable_of_iff _ keysIn_iff.symm

/-! ### The keys of the entries -/

/-- Joining the keys of two values keeps the keys of both. -/
theorem joinLevels_left {a b : List (List String)} {i : Nat} {keys : List String}
    (h : a[i]? = some keys) : ∃ keys', (joinLevels a b)[i]? = some keys' ∧ keys ⊆ keys' := by
  induction a generalizing b i with
  | nil => cases h
  | cons first rest ih =>
    cases b with
    | nil => exact ⟨keys, h, fun _ hk => hk⟩
    | cons first' rest' =>
      cases i with
      | zero =>
        cases h
        exact ⟨_, rfl, List.subset_append_left _ _⟩
      | succ i => exact ih h

theorem joinLevels_right {a b : List (List String)} {i : Nat} {keys : List String}
    (h : b[i]? = some keys) : ∃ keys', (joinLevels a b)[i]? = some keys' ∧ keys ⊆ keys' := by
  induction a generalizing b i with
  | nil => exact ⟨keys, by rwa [joinLevels], fun _ hk => hk⟩
  | cons first rest ih =>
    cases b with
    | nil => cases h
    | cons first' rest' =>
      cases i with
      | zero =>
        cases h
        exact ⟨_, rfl, List.subset_append_right _ _⟩
      | succ i => exact ih h

mutual

/-- The keys on the way to a scalar are among the keys of their levels, wildcards aside. -/
theorem mem_levelKeys : ∀ (node : Node) (leaf : List String × Node) (level : Nat) (key : String),
    leaf ∈ node.scalars → leaf.1[level]? = some key → key ≠ wildcard →
    ∃ keys, (levelKeys node)[level]? = some keys ∧ key ∈ keys
  | .null, _, _, _, h, _, _ => by simp [Node.scalars] at h
  | .scalar tag text, leaf, level, key, h, hk, _ => by
    rw [Node.scalars, List.mem_singleton] at h
    rw [h] at hk
    cases hk
  | .sequence _, _, _, _, h, _, _ => by simp [Node.scalars] at h
  | .mapping entries, leaf, level, key, h, hk, hne => by
    rw [Node.scalars] at h
    obtain ⟨k, node, rest, he, hleaf⟩ := mem_entryLevels entries leaf h
    rw [levelKeys]
    cases level with
    | zero =>
      rw [hleaf.1, List.getElem?_cons_zero, Option.some.injEq] at hk
      subst hk
      refine ⟨_, rfl, List.mem_filter.2 ⟨List.mem_map.2 ⟨_, he, rfl⟩, bne_iff_ne.2 hne⟩⟩
    | succ level =>
      rw [hleaf.1, List.getElem?_cons_succ] at hk
      exact hleaf.2 level key hk hne

/-- A scalar below some entries is below one of them, and the keys under its own are among the
keys of the levels of all. -/
theorem mem_entryLevels : ∀ (entries : List (String × Node)) (leaf : List String × Node),
    leaf ∈ Node.entryScalars entries → ∃ k node rest, (k, node) ∈ entries ∧ leaf.1 = k :: rest ∧
      ∀ (level : Nat) key, rest[level]? = some key → key ≠ wildcard →
        ∃ keys, (entryLevels entries)[level]? = some keys ∧ key ∈ keys
  | [], _, h => by simp [Node.entryScalars] at h
  | (k, node) :: others, leaf, h => by
    rw [Node.entryScalars, List.mem_append, List.mem_map] at h
    rcases h with ⟨below, hb, rfl⟩ | h
    · refine ⟨k, node, below.1, List.mem_cons_self, rfl, fun level key hk hne => ?_⟩
      obtain ⟨keys, hkeys, hmem⟩ := mem_levelKeys node below level key hb hk hne
      obtain ⟨keys', hjoin, hsub⟩ := joinLevels_left (b := entryLevels others) hkeys
      exact ⟨keys', hjoin, hsub hmem⟩
    · obtain ⟨k', node', rest, he, hleaf, hlevels⟩ := mem_entryLevels others leaf h
      refine ⟨k', node', rest, List.mem_cons_of_mem _ he, hleaf, fun level key hk hne => ?_⟩
      obtain ⟨keys, hkeys, hmem⟩ := hlevels level key hk hne
      obtain ⟨keys', hjoin, hsub⟩ := joinLevels_right (a := levelKeys node) hkeys
      exact ⟨keys', hjoin, hsub hmem⟩

end

/-- What an entry gives at a position is a key of the level that indexes it. -/
theorem exists_level_of_keyAt {size : Nat} {positions : List Nat} {e : Entry} {p : Nat}
    {key : String} (he : e ∈ entriesAt size positions value) (hk : e.keyAt p = some key) :
    ∃ (level : Nat) (keys : List String), positions[level]? = some p ∧
      (levelKeys value)[level]? = some keys ∧ key ∈ keys := by
  obtain ⟨⟨way, leaf⟩, hleaf, rfl⟩ := List.mem_map.1 he
  have hp : p < size := by
    have hlt := Entry.keyAt_lt hk
    simpa [patternOf] using hlt
  simp only [Entry.keyAt, patternOf, List.getElem?_map, List.getElem?_range hp, Option.map_some,
    Option.join_some] at hk
  obtain ⟨given, hlook, hkey⟩ := Option.bind_eq_some_iff.1 hk
  have hne : given ≠ wildcard := by
    rintro rfl
    rw [patternKey, if_pos rfl] at hkey
    cases hkey
  rw [patternKey, if_neg hne, Option.some.injEq] at hkey
  subst hkey
  have hmem : (p, given) ∈ positions.zip way := by
    obtain ⟨before, after, heq, _⟩ := List.lookup_eq_some_iff.1 hlook
    rw [heq]
    exact List.mem_append_right _ List.mem_cons_self
  obtain ⟨level, hlevel⟩ := List.getElem?_of_mem hmem
  obtain ⟨hpos, hway⟩ := List.getElem?_zip_eq_some.1 hlevel
  obtain ⟨keys, hkeys, hin⟩ := mem_levelKeys value _ level given hleaf hway hne
  exact ⟨level, keys, hpos, hkeys, hin⟩

/-! ### What expansion leads to -/

/-- If all keys given at a position are members, the labels in reach there are some members. -/
theorem listed_of_candidates {es : List Entry} {p : Nat} {d : Dimension} {ls : List String}
    (hmembers : ∀ e ∈ es, ∀ key, e.keyAt p = some key → key ∈ sets.members d)
    (h : candidates sets path es p d = .ok ls) :
    ∃ listed : String → Bool, ls = (sets.members d).filter listed := by
  rcases candidates_of_members path hmembers with ⟨_, hopen⟩ | ⟨_, hclosed⟩
  · rw [h] at hopen
    split at hopen
    · cases hopen
    · cases hopen
      exact ⟨fun _ => true, (List.filter_true _).symm⟩
  · rw [h] at hclosed
    cases hclosed
    exact ⟨_, rfl⟩

/-- A value without a scalar expands to itself if it is null, and else to a mapping without keys. -/
theorem broadcast_of_no_scalars (hd : dimensions ≠ []) (hs : value.scalars = [])
    (h : broadcast sets dimensions path value = .ok result) :
    result = .null ∨ result = .mapping [] := by
  unfold broadcast at h
  by_cases hcond : (value.isNull || dimensions.isEmpty) = true
  · rw [if_pos hcond] at h
    cases h
    cases value with
    | null => exact Or.inl rfl
    | _ => exact absurd (List.isEmpty_iff.1 hcond) hd
  · rw [if_neg hcond] at h
    cases ha : alignLevels sets dimensions path value with
    | error e =>
      rw [ha] at h
      cases h
    | ok positions =>
      cases he : entriesOf path value positions (dimensions.map fun _ => none) with
      | error e =>
        simp only [ha, he, bind, Except.bind] at h
        cases h
      | ok es =>
        have hes := entriesOf_blank ha he
        rw [entriesAt, hs] at hes
        subst hes
        simp only [ha, he, bind, Except.bind] at h
        cases h
        exact Or.inr rfl

/-- **Expansion leads to an expanded value** if the keys given are members. -/
theorem expanded_of_broadcast (hd : dimensions ≠ [])
    (hkeys : KeysIn sets.members sets dimensions value)
    (h : broadcast sets dimensions path value = .ok result) :
    IsExpanded sets dimensions result := by
  by_cases hs : value.scalars = []
  · rcases broadcast_of_no_scalars hd hs h with hnull | hnil
    · exact Or.inl hnull
    · exact Or.inr (Or.inl hnil)
  · obtain ⟨positions, labels, ha, hlen, hc, rfl⟩ := broadcast_eq_ok hd hs h
    have hmembers : ∀ p d, dimensions[p]? = some d →
        ∀ e ∈ entriesAt dimensions.length positions value, ∀ key, e.keyAt p = some key →
          key ∈ sets.members d := by
      intro p d hp e he key hk
      obtain ⟨level, keys, hpos, hlevel, hin⟩ := exists_level_of_keyAt he hk
      exact hkeys path positions ha level p keys d hpos hlevel hp key hin
    have hne : entriesAt dimensions.length positions value ≠ [] := by
      rw [entriesAt]
      simpa using hs
    refine Or.inr (Or.inr ((ready_of_candidates hne hlen hc).full hlen fun i d ls hi hls => ?_))
    exact listed_of_candidates (hmembers i d hi) (hc i d ls hi hls)

/-- **Expansion is idempotent.** If no member of the dimensions is the wildcard and every key of a
value is a member of the dimension that its level indexes, the expansion of the value is its own
expansion. -/
theorem broadcast_idempotent (hd : dimensions ≠ [])
    (hstar : ∀ d ∈ dimensions, wildcard ∉ sets.members d)
    (hkeys : KeysIn sets.members sets dimensions value)
    (h : broadcast sets dimensions path value = .ok result) :
    ∀ path', broadcast sets dimensions path' result = .ok result :=
  broadcast_of_expanded hd hstar (expanded_of_broadcast hd hkeys h)

/-- The field with a concrete key beside wildcards expands to itself once expanded. -/
theorem broadcast_idempotent_sample :
    ∃ result, broadcast sampleSets [.region, .year] "field" sampleField = .ok result ∧
      broadcast sampleSets [.region, .year] "again" result = .ok result := by
  have hok : (broadcast sampleSets [.region, .year] "field" sampleField).isOk = true := by
    decide +kernel
  have hstar : ∀ d ∈ [Dimension.region, .year], wildcard ∉ sampleSets.members d := by
    decide +kernel
  have hkeys : KeysIn sampleSets.members sampleSets [.region, .year] sampleField := by
    decide +kernel
  cases hr : broadcast sampleSets [.region, .year] "field" sampleField with
  | error e =>
    rw [hr] at hok
    cases hok
  | ok result =>
    exact ⟨result, rfl, broadcast_idempotent (by decide) hstar hkeys hr "again"⟩

end EnergyPlan.Fields
