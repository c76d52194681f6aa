/-
# The entries of a field's value

Each scalar of a value is one entry, in document order. The levels of the value index
dimensions at distinct positions, and the pattern of an entry has the key on the way to
its scalar at the position of the key's level, or nothing where the key is the wildcard
or no level indexes the position.

Key definitions: `patternOf`, `entriesAt`.
Key theorems: `alignLevels_eq_ok`, `entriesOf_eq_ok`, `entriesOf_blank`, `keyAt_patternOf`.
-/
import EnergyPlan.Proofs.Leaves
import EnergyPlan.Fields.Broadcast

namespace EnergyPlan.Fields

open Config Text

/-- The pattern of the scalar that some keys lead to, over `size` dimensions. -/
def patternOf (size : Nat) (positions : List Nat) (keys : List String) : Pattern :=
  (List.range size).map fun p => ((positions.zip keys).lookup p).bind patternKey

/-- The entries of the scalars of a value. -/
def entriesAt (size : Nat) (positions : List Nat) (value : Node) : List Entry :=
  value.scalars.map fun (keys, leaf) => ⟨patternOf size positions keys, leaf⟩

/-! ### Levels index distinct positions -/

theorem chooseAll_eq_some {sets : MemberSets} {dimensions : List Dimension}
    {levels : List (List String)} {taken ps : List Nat}
    (h : chooseAll sets dimensions taken levels = some ps) :
    ps.length = levels.length ∧ ps.Nodup ∧ ∀ p ∈ ps, p < dimensions.length ∧ p ∉ taken := by
  induction levels generalizing taken ps with
  | nil =>
    rw [chooseAll, Option.some.injEq] at h
    subst h
    exact ⟨rfl, List.nodup_nil, fun p hp => nomatch hp⟩
  | cons keys rest ih =>
    simp only [chooseAll, Option.bind_eq_bind, Option.bind_eq_some_iff, Option.pure_def,
      Option.some.injEq] at h
    obtain ⟨p, hp, qs, hqs, rfl⟩ := h
    obtain ⟨hl, hn, hq⟩ := ih hqs
    refine ⟨?_, ?_, ?_⟩
    · rw [List.length_cons, List.length_cons, hl]
    · rw [List.nodup_cons]
      refine ⟨fun hm => ?_, hn⟩
      exact (hq p hm).2 List.mem_cons_self
    · intro q hm
      rcases List.mem_cons.1 hm with rfl | hm
      · exact choose_eq_some hp
      · exact ⟨(hq q hm).1, fun ht => (hq q hm).2 (List.mem_cons_of_mem _ ht)⟩

/-- Each level of a value gets a position of its own. -/
theorem alignLevels_eq_ok {sets : MemberSets} {dimensions : List Dimension} {path : String}
    {value : Node} {positions : List Nat}
    (h : alignLevels sets dimensions path value = .ok positions) :
    positions.length = (levelKeys value).length ∧ positions.Nodup ∧
      ∀ p ∈ positions, p < dimensions.length := by
  simp only [alignLevels] at h
  split at h
  · next ps hps =>
    cases h
    obtain ⟨hl, hn, hp⟩ := chooseAll_eq_some hps
    exact ⟨hl, hn, fun p hm => (hp p hm).1⟩
  · cases h

/-! ### Entries are the scalars -/

/-- A pattern with the keys of several levels put in at their positions. -/
def fill (pattern : Pattern) : List Nat → List String → Pattern
  | position :: positions, key :: keys =>
    fill (pattern.set position (patternKey key)) positions keys
  | _, _ => pattern

theorem length_joinLevels (a b : List (List String)) :
    (joinLevels a b).length = max a.length b.length := by
  induction a generalizing b with
  | nil => simp [joinLevels]
  | cons keys rest ih =>
    cases b with
    | nil => simp [joinLevels]
    | cons keys' rest' =>
      rw [joinLevels, List.length_cons, ih, List.length_cons, List.length_cons]
      omega

mutual

/-- The entries of a value that is no deeper than the levels are its scalars. -/
theorem entriesOf_eq_ok (path : String) : ∀ (node : Node) (positions : List Nat)
    (pattern : Pattern) (es : List Entry), (levelKeys node).length ≤ positions.length →
    entriesOf path node positions pattern = .ok es →
    es = node.scalars.map fun (keys, leaf) => ⟨fill pattern positions keys, leaf⟩
  | .null, _, _, es, _, h => by
    rw [entriesOf] at h
    cases h
    rfl
  | .scalar tag text, positions, pattern, es, _, h => by
    rw [entriesOf] at h
    cases h
    cases positions <;> rfl
  | .sequence _, _, _, es, _, h => by
    rw [entriesOf] at h
    cases h
  | .mapping entries, [], _, es, hl, _ => by
    rw [levelKeys, List.length_cons, List.length_nil] at hl
    exact absurd hl (Nat.not_succ_le_zero _)
  | .mapping entries, position :: rest, pattern, es, hl, h => by
    rw [levelKeys, List.length_cons, List.length_cons] at hl
    rw [entriesOf] at h
    rw [Node.scalars]
    exact entriesOfAll_eq_ok path entries position rest pattern es (Nat.le_of_succ_le_succ hl) h

theorem entriesOfAll_eq_ok (path : String) : ∀ (entries : List (String × Node)) (position : Nat)
    (positions : List Nat) (pattern : Pattern) (es : List Entry),
    (entryLevels entries).length ≤ positions.length →
    entriesOfAll path entries position positions pattern = .ok es →
    es = (Node.entryScalars entries).map fun (keys, leaf) =>
      ⟨fill pattern (position :: positions) keys, leaf⟩
  | [], _, _, _, es, _, h => by
    rw [entriesOfAll] at h
    cases h
    rfl
  | (key, node) :: rest, position, positions, pattern, es, hl, h => by
    rw [entryLevels, length_joinLevels] at hl
    have hnode : (levelKeys node).length ≤ positions.length := by omega
    have hrest : (entryLevels rest).length ≤ positions.length := by omega
    rw [entriesOfAll] at h
    cases hf : entriesOf path node positions (pattern.set position (patternKey key)) with
    | error e =>
      rw [hf] at h
      cases h
    | ok first =>
      cases ho : entriesOfAll path rest position positions pattern with
      | error e =>
        rw [hf, ho] at h
        cases h
      | ok others =>
        rw [hf, ho] at h
        cases h
        rw [entriesOf_eq_ok path node positions _ first hnode hf,
          entriesOfAll_eq_ok path rest position positions pattern others hrest ho,
          Node.entryScalars, List.map_append, List.map_map]
        rfl

end

/-! ### The pattern of an entry -/

theorem patternKey_injective {k k' : String} (h : patternKey k = patternKey k') : k = k' := by
  unfold patternKey at h
  by_cases hk : k = wildcard
  · by_cases hk' : k' = wildcard
    · rw [hk, hk']
    · rw [if_pos hk, if_neg hk'] at h
      cases h
  · by_cases hk' : k' = wildcard
    · rw [if_neg hk, if_pos hk'] at h
      cases h
    · rw [if_neg hk, if_neg hk'] at h
      exact Option.some.inj h

/-- The level at a place has its key looked up at the position it indexes. -/
theorem lookup_zip {positions : List Nat} (hn : positions.Nodup) {keys : List String}
    {level p : Nat} {key : String} (hp : positions[level]? = some p)
    (hk : keys[level]? = some key) : (positions.zip keys).lookup p = some key := by
  induction positions generalizing keys level with
  | nil => cases hp
  | cons q rest ih =>
    rw [List.nodup_cons] at hn
    cases keys with
    | nil => cases hk
    | cons k others =>
      rw [List.zip_cons_cons, List.lookup_cons]
      cases level with
      | zero =>
        rw [List.getElem?_cons_zero] at hp hk
        cases hp
        cases hk
        rw [beq_self_eq_true]
      | succ level =>
        rw [List.getElem?_cons_succ] at hp hk
        have hne : p ≠ q := by
          rintro rfl
          exact hn.1 (List.mem_of_getElem? hp)
        rw [beq_false_of_ne hne]
        exact ih hn.2 hp hk

theorem lookup_zip_of_not_mem {positions : List Nat} {p : Nat} (hp : p ∉ positions)
    (keys : List String) : (positions.zip keys).lookup p = none := by
  rw [List.lookup_eq_none_iff]
  intro e he
  have hm := (List.of_mem_zip he).1
  have hne : p ≠ e.1 := by
    rintro rfl
    exact hp hm
  exact bne_iff_ne.2 hne

theorem getElem?_fill {positions : List Nat} (hn : positions.Nodup) (keys : List String)
    (pattern : Pattern) (p : Nat) :
    (fill pattern positions keys)[p]? = pattern[p]?.map fun old =>
      ((positions.zip keys).lookup p).elim old patternKey := by
  induction positions generalizing keys pattern with
  | nil => simp [fill]
  | cons q rest ih =>
    rw [List.nodup_cons] at hn
    cases keys with
    | nil => simp [fill]
    | cons key others =>
      rw [fill, ih hn.2, List.zip_cons_cons, List.lookup_cons]
      by_cases h : p = q
      · subst h
        rw [lookup_zip_of_not_mem hn.1, beq_self_eq_true, List.getElem?_set_self']
        cases pattern[p]? <;> rfl
      · rw [beq_false_of_ne h, List.getElem?_set_ne (Ne.symm h)]

/-- Filling an empty pattern gives the pattern of a scalar. -/
theorem fill_blank {positions : List Nat} (hn : positions.Nodup) (keys : List String)
    (dimensions : List Dimension) :
    fill (dimensions.map fun _ => none) positions keys =
      patternOf dimensions.length positions keys := by
  apply List.ext_getElem?
  intro p
  rw [getElem?_fill hn, patternOf, List.getElem?_map, List.getElem?_map, Option.map_map]
  by_cases hp : p < dimensions.length
  · rw [List.getElem?_range hp, List.getElem?_eq_getElem hp, Option.map_some, Option.map_some]
    cases h : (positions.zip keys).lookup p with
    | none => rfl
    | some key => rfl
  · rw [List.getElem?_eq_none (by simpa using hp), List.getElem?_eq_none (by simpa using hp)]
    rfl

/-- **The entries of a value** are its scalars, each with its pattern. -/
theorem entriesOf_blank {sets : MemberSets} {dimensions : List Dimension} {path : String}
    {value : Node} {positions : List Nat} {es : List Entry}
    (ha : alignLevels sets dimensions path value = .ok positions)
    (h : entriesOf path value positions (dimensions.map fun _ => none) = .ok es) :
    es = entriesAt dimensions.length positions value := by
  obtain ⟨hl, hn, _⟩ := alignLevels_eq_ok ha
  rw [entriesOf_eq_ok path value positions _ es (Nat.le_of_eq hl.symm) h, entriesAt]
  apply List.map_congr_left
  rintro ⟨keys, leaf⟩ _
  exact congrArg (Entry.mk · leaf) (fill_blank hn keys dimensions)

theorem keyAt_patternOf {size : Nat} {positions : List Nat} (hn : positions.Nodup)
    {keys : List String} {leaf : Node} {level p : Nat} {key : String} (hp : p < size)
    (hl : positions[level]? = some p) (hk : keys[level]? = some key) :
    Entry.keyAt ⟨patternOf size positions keys, leaf⟩ p = patternKey key := by
  rw [Entry.keyAt, patternOf, List.getElem?_map, List.getElem?_range hp, Option.map_some,
    lookup_zip hn hl hk]
  rfl

/-! ### No two entries have one pattern -/

mutual

theorem length_le_of_mem_scalars : ∀ (node : Node) (leaf : List String × Node),
    leaf ∈ node.scalars → leaf.1.length ≤ (levelKeys node).length
  | .null, _, h => by simp [Node.scalars] at h
  | .scalar tag text, leaf, h => by
    rw [Node.scalars, List.mem_singleton] at h
    rw [h]
    exact Nat.zero_le _
  | .sequence _, _, h => by simp [Node.scalars] at h
  | .mapping entries, leaf, h => by
    rw [levelKeys, List.length_cons]
    exact length_le_of_mem_entryScalars entries leaf (by rwa [Node.scalars] at h)

theorem length_le_of_mem_entryScalars : ∀ (entries : List (String × Node))
    (leaf : List String × Node), leaf ∈ Node.entryScalars entries →
    leaf.1.length ≤ (entryLevels entries).length + 1
  | [], _, h => by simp [Node.entryScalars] at h
  | (key, node) :: rest, leaf, h => by
    rw [entryLevels, length_joinLevels]
    rw [Node.entryScalars, List.mem_append, List.mem_map] at h
    rcases h with ⟨below, hb, rfl⟩ | h
    · have hlen := length_le_of_mem_scalars node below hb
      rw [List.length_cons]
      omega
    · have hlen := length_le_of_mem_entryScalars rest leaf h
      omega

end

/-- Two entries differ in what they give at some position. -/
def Entry.Apart (e f : Entry) : Prop := ∃ p, e.keyAt p ≠ f.keyAt p

/-- The patterns of the entries of a value with distinct keys are pairwise different. -/
theorem pairwise_apart {sets : MemberSets} {dimensions : List Dimension} {path : String}
    {value : Node} {positions : List Nat}
    (ha : alignLevels sets dimensions path value = .ok positions) (hd : value.Distinct) :
    (entriesAt dimensions.length positions value).Pairwise Entry.Apart := by
  obtain ⟨hl, hn, hlt⟩ := alignLevels_eq_ok ha
  rw [entriesAt, List.pairwise_map]
  apply (Node.pairwise_scalars hd).imp_of_mem
  intro a b hma _ hab
  obtain ⟨level, k, k', hk, hk', hne⟩ := hab
  have hlevel : level < positions.length := by
    have hlen := length_le_of_mem_scalars value a hma
    have hin := (List.getElem?_eq_some_iff.1 hk).1
    omega
  have hp := List.getElem?_eq_getElem hlevel
  have hbound := hlt _ (List.getElem_mem hlevel)
  refine ⟨positions[level], ?_⟩
  rw [keyAt_patternOf hn hbound hp hk, keyAt_patternOf hn hbound hp hk']
  intro h
  exact hne (patternKey_injective h)

end EnergyPlan.Fields
