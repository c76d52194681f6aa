/-
# Expanding an expanded value gives it back

An expanded value is nested in the order of the field's dimensions. Each of its levels has
some members of its dimension as keys, in their own order and at least one of them, and a
scalar stands at the end of every way down. The keys of such a level are members of its
dimension, so the alignment of the levels is forced to the order of the dimensions: each
entry gives a key everywhere, and the candidates at a position are members that are given
there. Expansion then lists what is there already.

Key definitions: `Full`, `IsExpanded`, `Levelled`, `Describe`.
Key theorems: `alignLevels_of_full`, `expand_of_full`, `broadcast_of_describe`,
`broadcast_of_full`, `broadcast_of_expanded`.
-/
import EnergyPlan.Proofs.Expansion

namespace EnergyPlan.Fields

open Config Text

variable {sets : MemberSets} {dimensions : List Dimension} {path : String} {value result : Node}

/-- A value with a scalar for each of some tuples of members, nested in the order of the
dimensions; the keys of each level are in the order of the members. -/
inductive Full (sets : MemberSets) : List Dimension → Node → Prop
  | leaf (tag : Tag) (text : String) : Full sets [] (.scalar tag text)
  | level {d : Dimension} {rest : List Dimension} (chosen : String → Bool) (below : String → Node)
      (some_chosen : ∃ l ∈ sets.members d, chosen l = true)
      (full_below : ∀ l ∈ sets.members d, chosen l = true → Full sets rest (below l)) :
      Full sets (d :: rest)
        (.mapping (((sets.members d).filter chosen).map fun l => (l, below l)))

/-- What expansion leads to: a null value, a value without keys, or one with a scalar for each of
some tuples of members. -/
def IsExpanded (sets : MemberSets) (dimensions : List Dimension) (value : Node) : Prop :=
  value = .null ∨ value = .mapping [] ∨ Full sets dimensions value

/-! ### The levels of an expanded value -/

theorem forall₂_joinLevels {R : Dimension → List String → Prop}
    (hjoin : ∀ d a b, R d a → R d b → R d (a ++ b)) {ds : List Dimension}
    {a b : List (List String)} (ha : List.Forall₂ R ds a) (hb : List.Forall₂ R ds b) :
    List.Forall₂ R ds (joinLevels a b) := by
  induction ha generalizing b with
  | nil =>
    cases hb
    exact List.Forall₂.nil
  | cons h _ ih =>
    cases hb with
    | cons h' hb => exact List.Forall₂.cons (hjoin _ _ _ h h') (ih hb)

/-- Several values whose levels fit some dimensions fit them together. -/
theorem forall₂_entryLevels {R : Dimension → List String → Prop}
    (hjoin : ∀ d a b, R d a → R d b → R d (a ++ b)) {ds : List Dimension}
    {entries : List (String × Node)} (hne : entries ≠ [])
    (h : ∀ e ∈ entries, List.Forall₂ R ds (levelKeys e.2)) :
    List.Forall₂ R ds (entryLevels entries) := by
  induction entries with
  | nil => exact absurd rfl hne
  | cons e rest ih =>
    obtain ⟨key, node⟩ := e
    rw [entryLevels]
    have hnode := h _ List.mem_cons_self
    cases rest with
    | nil =>
      have hjoined : joinLevels (levelKeys node) (entryLevels []) = levelKeys node := by
        cases levelKeys node <;> rfl
      rw [hjoined]
      exact hnode
    | cons e' rest' =>
      have hrest := ih (List.cons_ne_nil _ _) fun e he => h e (List.mem_cons_of_mem _ he)
      exact forall₂_joinLevels hjoin hnode hrest

/-- Some keys are members of a dimension, and at least one is given. -/
def Fits (sets : MemberSets) (d : Dimension) (keys : List String) : Prop :=
  keys ≠ [] ∧ ∀ key ∈ keys, key ∈ sets.members d

theorem Fits.append {d : Dimension} {a b : List String} (ha : Fits sets d a)
    (hb : Fits sets d b) : Fits sets d (a ++ b) := by
  refine ⟨fun h => ha.1 (List.append_eq_nil_iff.1 h).1, fun key hk => ?_⟩
  rcases List.mem_append.1 hk with hk | hk
  · exact ha.2 key hk
  · exact hb.2 key hk

/-- Nested mappings to a depth, none of them without keys, with scalars there. -/
inductive Levelled : Nat → Node → Prop
  | leaf (tag : Tag) (text : String) : Levelled 0 (.scalar tag text)
  | level {depth : Nat} {entries : List (String × Node)} (some_key : entries ≠ [])
      (below : ∀ e ∈ entries, Levelled depth e.2) : Levelled (depth + 1) (.mapping entries)

/-- The scalars of a mapping stand below its entries. -/
theorem mem_scalars_mapping {entries : List (String × Node)} {keys : List String} {leaf : Node} :
    (keys, leaf) ∈ (Node.mapping entries).scalars ↔
      ∃ e ∈ entries, ∃ rest, keys = e.1 :: rest ∧ (rest, leaf) ∈ e.2.scalars := by
  rw [Node.scalars, Node.entryScalars_eq, List.mem_flatMap]
  refine exists_congr fun e => and_congr_right fun _ => ?_
  rw [List.mem_map]
  constructor
  · rintro ⟨⟨rest, leaf'⟩, hleaf, heq⟩
    cases heq
    exact ⟨rest, rfl, hleaf⟩
  · rintro ⟨rest, rfl, hleaf⟩
    exact ⟨(rest, leaf), hleaf, rfl⟩

namespace Levelled

variable {depth : Nat}

theorem isNull_eq_false (h : Levelled depth value) : value.isNull = false := by
  cases h <;> rfl

theorem scalars_ne_nil (h : Levelled depth value) : value.scalars ≠ [] := by
  induction h with
  | leaf tag text => exact List.cons_ne_nil _ _
  | level some_key _ ih =>
    obtain ⟨e, he⟩ := List.exists_mem_of_ne_nil _ some_key
    obtain ⟨⟨rest, leaf⟩, hleaf⟩ := List.exists_mem_of_ne_nil _ (ih e he)
    exact List.ne_nil_of_mem (mem_scalars_mapping.2 ⟨e, he, rest, rfl, hleaf⟩)

/-- The levels of a value fit some dimensions if the keys of each scalar do. -/
theorem levels {ds : List Dimension} (h : Levelled ds.length value)
    (hstar : ∀ d ∈ ds, wildcard ∉ sets.members d)
    (hkeys : ∀ keys leaf, (keys, leaf) ∈ value.scalars →
      List.Forall₂ (fun d key => key ∈ sets.members d) ds keys) :
    List.Forall₂ (Fits sets) ds (levelKeys value) := by
  induction ds generalizing value with
  | nil =>
    cases h
    exact List.Forall₂.nil
  | cons d ds ih =>
    cases h with
    | @level _ entries some_key below =>
      have hbelow : ∀ e ∈ entries, ∀ rest leaf, (rest, leaf) ∈ e.2.scalars →
          e.1 ∈ sets.members d ∧ List.Forall₂ (fun d key => key ∈ sets.members d) ds rest := by
        intro e he rest leaf hleaf
        have hall := hkeys _ leaf (mem_scalars_mapping.2 ⟨e, he, rest, rfl, hleaf⟩)
        exact List.forall₂_cons.1 hall
      have hmember : ∀ key ∈ entries.map (·.1), key ∈ sets.members d := by
        intro key hkey
        obtain ⟨e, he, rfl⟩ := List.mem_map.1 hkey
        obtain ⟨⟨rest, leaf⟩, hleaf⟩ := List.exists_mem_of_ne_nil _ (below e he).scalars_ne_nil
        exact (hbelow e he rest leaf hleaf).1
      have hplain : ∀ key ∈ entries.map (·.1), (key != wildcard) = true := by
        intro key hkey
        rw [bne_iff_ne]
        rintro rfl
        exact hstar d List.mem_cons_self (hmember _ hkey)
      rw [levelKeys, List.filter_eq_self.2 hplain]
      refine List.Forall₂.cons ⟨by simpa using some_key, hmember⟩
        (forall₂_entryLevels (fun _ _ _ => Fits.append) some_key fun e he => ?_)
      exact ih (below e he) (fun d' hd' => hstar d' (List.mem_cons_of_mem _ hd'))
        fun rest leaf hleaf => (hbelow e he rest leaf hleaf).2

end Levelled

/-- The scalars of a level stand below the chosen members. -/
theorem mem_scalars_level {d : Dimension} {chosen : String → Bool} {below : String → Node}
    {keys : List String} {leaf : Node} :
    (keys, leaf) ∈
        (Node.mapping (((sets.members d).filter chosen).map fun l => (l, below l))).scalars ↔
      ∃ l rest, keys = l :: rest ∧ l ∈ sets.members d ∧ chosen l = true ∧
        (rest, leaf) ∈ (below l).scalars := by
  rw [mem_scalars_mapping]
  constructor
  · rintro ⟨e, he, rest, rfl, hleaf⟩
    obtain ⟨l, hl, rfl⟩ := List.mem_map.1 he
    obtain ⟨hm, hc⟩ := List.mem_filter.1 hl
    exact ⟨l, rest, rfl, hm, hc, hleaf⟩
  · rintro ⟨l, rest, rfl, hm, hc, hleaf⟩
    exact ⟨(l, below l), List.mem_map.2 ⟨l, List.mem_filter.2 ⟨hm, hc⟩, rfl⟩, rest, rfl, hleaf⟩

/-- A scalar of an expanded value has a member for each dimension as its keys. -/
theorem Full.keys_of_mem_scalars (h : Full sets dimensions value) {keys : List String}
    {leaf : Node} (hl : (keys, leaf) ∈ value.scalars) :
    List.Forall₂ (fun d key => key ∈ sets.members d) dimensions keys := by
  induction h generalizing keys with
  | leaf tag text =>
    rw [Node.scalars, List.mem_singleton, Prod.mk.injEq] at hl
    rw [hl.1]
    exact List.Forall₂.nil
  | level chosen below _ _ ih =>
    obtain ⟨l, rest, rfl, hm, hc, hleaf⟩ := mem_scalars_level.1 hl
    exact List.Forall₂.cons hm (ih l hm hc hleaf)

/-- An expanded value has a level for each dimension. -/
theorem Full.levelled (h : Full sets dimensions value) : Levelled dimensions.length value := by
  induction h with
  | leaf tag text => exact .leaf tag text
  | @level d rest chosen below some_chosen _ ih =>
    refine .level ?_ fun e he => ?_
    · obtain ⟨l, hm, hc⟩ := some_chosen
      exact List.ne_nil_of_mem (List.mem_map.2 ⟨l, List.mem_filter.2 ⟨hm, hc⟩, rfl⟩)
    · obtain ⟨l, hl, rfl⟩ := List.mem_map.1 he
      obtain ⟨hm, hc⟩ := List.mem_filter.1 hl
      exact ih l hm hc

theorem Full.scalars_ne_nil (h : Full sets dimensions value) : value.scalars ≠ [] :=
  h.levelled.scalars_ne_nil

/-- The levels of an expanded value fit the dimensions, in their order. -/
theorem Full.levels (h : Full sets dimensions value)
    (hstar : ∀ d ∈ dimensions, wildcard ∉ sets.members d) :
    List.Forall₂ (Fits sets) dimensions (levelKeys value) :=
  h.levelled.levels hstar fun _ _ => h.keys_of_mem_scalars

/-! ### The alignment is forced -/

/-- If all positions before one are taken, its dimension is the first to have the keys. -/
theorem choose_eq_next {taken : List Nat} {k : Nat} {d : Dimension} {keys : List String}
    (htaken : ∀ p, p ∈ taken ↔ p < k) (hd : dimensions[k]? = some d) (hk : Fits sets d keys) :
    choose sets dimensions taken keys = some k := by
  refine choose_of_firstFree (firstFree_eq_some_iff.2 ⟨?_, ⟨d, hd, ?_⟩, fun j hj hfree => ?_⟩)
  · exact fun h => Nat.lt_irrefl k ((htaken k).1 h)
  · exact List.all_eq_true.2 fun key hkey => decide_eq_true (hk.2 key hkey)
  · exact absurd ((htaken j).2 hj) hfree

/-- Levels that fit the dimensions from one on take the positions in turn. -/
theorem chooseAll_of_fits {levels : List (List String)} {taken : List Nat} {k : Nat}
    (htaken : ∀ p, p ∈ taken ↔ p < k)
    (h : List.Forall₂ (Fits sets) (dimensions.drop k) levels) :
    chooseAll sets dimensions taken levels = some (List.range' k levels.length) := by
  induction levels generalizing taken k with
  | nil => rfl
  | cons keys rest ih =>
    cases hdrop : dimensions.drop k with
    | nil =>
      rw [hdrop] at h
      cases h
    | cons d ds =>
      rw [hdrop] at h
      cases h with
      | cons hfit hrest =>
        have hd : dimensions[k]? = some d := by
          have h0 := congrArg (·[0]?) hdrop
          simpa using h0
        have hnext : dimensions.drop (k + 1) = ds := by
          rw [← List.tail_drop, hdrop]
          rfl
        have htaken' : ∀ p, p ∈ k :: taken ↔ p < k + 1 := by
          intro p
          rw [List.mem_cons, htaken p]
          omega
        rw [chooseAll, choose_eq_next htaken hd hfit]
        simp only [Option.bind_eq_bind, Option.bind_some, ih htaken' (hnext ▸ hrest),
          Option.pure_def, List.length_cons, List.range'_succ]

/-- **The levels of an expanded value align in the order of the dimensions.** -/
theorem alignLevels_of_full (h : Full sets dimensions value)
    (hstar : ∀ d ∈ dimensions, wildcard ∉ sets.members d) (path : String) :
    alignLevels sets dimensions path value = .ok (List.range dimensions.length) := by
  have hlevels := h.levels hstar
  have hall : chooseAll sets dimensions [] (levelKeys value) =
      some (List.range' 0 (levelKeys value).length) := chooseAll_of_fits (by simp) hlevels
  rw [← hlevels.length_eq, ← List.range_eq_range'] at hall
  simp only [alignLevels, hall]

/-! ### The entries -/

theorem entriesOfAll_ok {entries : List (String × Node)} {position : Nat} {positions : List Nat}
    {pattern : Pattern}
    (h : ∀ e ∈ entries, ∀ pattern, ∃ es, entriesOf path e.2 positions pattern = .ok es) :
    ∃ es, entriesOfAll path entries position positions pattern = .ok es := by
  induction entries with
  | nil => exact ⟨[], rfl⟩
  | cons e rest ih =>
    obtain ⟨key, node⟩ := e
    obtain ⟨first, hfirst⟩ := h _ List.mem_cons_self (pattern.set position (patternKey key))
    obtain ⟨others, hothers⟩ := ih fun e he => h e (List.mem_cons_of_mem _ he)
    refine ⟨first ++ others, ?_⟩
    rw [entriesOfAll, hfirst, hothers]
    rfl

/-- No sequence stands in nested mappings. -/
theorem Levelled.entriesOf_ok {depth : Nat} (h : Levelled depth value) (path : String)
    (positions : List Nat) (pattern : Pattern) :
    ∃ es, entriesOf path value positions pattern = .ok es := by
  induction h generalizing positions pattern with
  | leaf tag text => exact ⟨_, by rw [entriesOf]⟩
  | level _ _ ih =>
    cases positions with
    | nil => exact ⟨[], by rw [entriesOf]⟩
    | cons position positions =>
      rw [entriesOf]
      exact entriesOfAll_ok fun e he pattern => ih e he positions pattern

/-- Some entries describe an expanded value from a position on: they are its scalars, each with
all of its keys. -/
structure Describe (position : Nat) (es : List Entry) (value : Node) : Prop where
  sound : ∀ e ∈ es, ∃ keys, (keys, e.value) ∈ value.scalars ∧
    ∀ (i : Nat) key, keys[i]? = some key → e.keyAt (position + i) = some key
  complete : ∀ keys leaf, (keys, leaf) ∈ value.scalars → ∃ e ∈ es, e.value = leaf ∧
    ∀ (i : Nat) key, keys[i]? = some key → e.keyAt (position + i) = some key

theorem exists_dimension_of_key {keys : List String}
    (hk : List.Forall₂ (fun d key => key ∈ sets.members d) dimensions keys) {i : Nat}
    {key : String} (h : keys[i]? = some key) :
    ∃ d, dimensions[i]? = some d ∧ key ∈ sets.members d := by
  obtain ⟨hi, rfl⟩ := List.getElem?_eq_some_iff.1 h
  have hid : i < dimensions.length := hk.length_eq ▸ hi
  exact ⟨_, List.getElem?_eq_getElem hid, (List.forall₂_iff_get.1 hk).2 i hid hi⟩

/-- The pattern of a scalar has a key that is a member at the position of the key's level. -/
theorem keyAt_of_member (hstar : ∀ d ∈ dimensions, wildcard ∉ sets.members d)
    {positions : List Nat} (hn : positions.Nodup) {keys : List String} {leaf : Node}
    {level p : Nat} {key : String} {d : Dimension} (hp : positions[level]? = some p)
    (hk : keys[level]? = some key) (hd : dimensions[p]? = some d) (hm : key ∈ sets.members d) :
    Entry.keyAt ⟨patternOf dimensions.length positions keys, leaf⟩ p = some key := by
  have hne : key ≠ wildcard := by
    rintro rfl
    exact hstar d (List.mem_of_getElem? hd) hm
  have hlt : p < dimensions.length := (List.getElem?_eq_some_iff.1 hd).1
  rw [keyAt_patternOf hn hlt hp hk, patternKey, if_neg hne]

/-- The entries of a value describe an expanded value with the same leaves if the keys of each leaf
stand at the levels of their positions, in whatever way the value arranges them. -/
theorem Full.describe_of_arranged (h : Full sets dimensions result)
    (hstar : ∀ d ∈ dimensions, wildcard ∉ sets.members d) {positions : List Nat}
    (hn : positions.Nodup) (arrange : List String → List String)
    (harrange : ∀ p < dimensions.length, ∃ level : Nat, positions[level]? = some p ∧
      ∀ tuple key, tuple[p]? = some key → (arrange tuple)[level]? = some key)
    (hscalars : ∀ keys leaf, (keys, leaf) ∈ value.scalars ↔
      ∃ tuple, (tuple, leaf) ∈ result.scalars ∧ keys = arrange tuple) :
    Describe 0 (entriesAt dimensions.length positions value) result := by
  have hkeyAt : ∀ tuple leaf, (tuple, leaf) ∈ result.scalars → ∀ (p : Nat) key,
      tuple[p]? = some key → Entry.keyAt
        ⟨patternOf dimensions.length positions (arrange tuple), leaf⟩ (0 + p) = some key := by
    intro tuple leaf hleaf p key hk
    obtain ⟨d, hd, hm⟩ := exists_dimension_of_key (h.keys_of_mem_scalars hleaf) hk
    obtain ⟨level, hlevel, hkeys⟩ := harrange p (List.getElem?_eq_some_iff.1 hd).1
    rw [Nat.zero_add]
    exact keyAt_of_member hstar hn hlevel (hkeys tuple key hk) hd hm
  refine ⟨fun e he => ?_, fun tuple leaf hleaf => ?_⟩
  · obtain ⟨⟨keys, leaf⟩, hleaf, rfl⟩ := List.mem_map.1 he
    obtain ⟨tuple, ht, rfl⟩ := (hscalars keys leaf).1 hleaf
    exact ⟨tuple, ht, hkeyAt tuple leaf ht⟩
  · have hscalar := (hscalars _ leaf).2 ⟨tuple, hleaf, rfl⟩
    exact ⟨_, List.mem_map.2 ⟨_, hscalar, rfl⟩, rfl, hkeyAt tuple leaf hleaf⟩

theorem Full.describe (h : Full sets dimensions value)
    (hstar : ∀ d ∈ dimensions, wildcard ∉ sets.members d) :
    Describe 0 (entriesAt dimensions.length (List.range dimensions.length) value) value := by
  refine h.describe_of_arranged hstar List.nodup_range id (fun p hp => ?_) fun keys leaf => ?_
  · exact ⟨p, List.getElem?_range hp, fun _ _ hk => hk⟩
  · exact ⟨fun hleaf => ⟨keys, hleaf, rfl⟩, fun ⟨_, hleaf, heq⟩ => heq ▸ hleaf⟩

/-- An entry that gives a key at a position covers that key alone there. -/
theorem Entry.covers_iff_of_keyAt {e : Entry} {position : Nat} {key label : String}
    (h : e.keyAt position = some key) : e.covers position label = true ↔ key = label := by
  rw [Entry.covers, h, Option.all_some, beq_iff_eq]

/-- An entry that gives no key at a position covers every label there. -/
theorem Entry.covers_of_keyAt_eq_none {e : Entry} {position : Nat} {label : String}
    (h : e.keyAt position = none) : e.covers position label = true := by
  rw [Entry.covers, h, Option.all_none]

/-- The entries that cover a member describe what stands below it. -/
theorem Describe.covering {d : Dimension} {chosen : String → Bool} {below : String → Node}
    {position : Nat} {es : List Entry}
    (h : Describe position es
      (.mapping (((sets.members d).filter chosen).map fun l => (l, below l))))
    {l : String} (hm : l ∈ sets.members d) (hc : chosen l = true) :
    Describe (position + 1) (es.filter fun e => e.covers position l) (below l) where
  sound e he := by
    obtain ⟨hes, hcov⟩ := List.mem_filter.1 he
    obtain ⟨keys, hleaf, hkeys⟩ := h.sound e hes
    obtain ⟨k, rest, rfl, _, _, hbelow⟩ := mem_scalars_level.1 hleaf
    have hk : e.keyAt position = some k := hkeys 0 k rfl
    obtain rfl := (Entry.covers_iff_of_keyAt hk).1 hcov
    refine ⟨rest, hbelow, fun i key hi => ?_⟩
    rw [Nat.add_assoc, Nat.add_comm 1]
    exact hkeys (i + 1) key hi
  complete keys leaf hleaf := by
    obtain ⟨e, he, hv, hkeys⟩ :=
      h.complete (l :: keys) leaf (mem_scalars_level.2 ⟨l, keys, rfl, hm, hc, hleaf⟩)
    have hk : e.keyAt position = some l := hkeys 0 l rfl
    have hcov : e.covers position l = true := (Entry.covers_iff_of_keyAt hk).2 rfl
    refine ⟨e, List.mem_filter.2 ⟨he, hcov⟩, hv, fun i key hi => ?_⟩
    rw [Nat.add_assoc, Nat.add_comm 1]
    exact hkeys (i + 1) key hi

section

variable {d : Dimension} {rest : List Dimension} {chosen : String → Bool} {below : String → Node}
  {position : Nat} {es : List Entry}

/-- A chosen member is given by some entry. -/
theorem Describe.exists_keyAt
    (h : Describe position es
      (.mapping (((sets.members d).filter chosen).map fun l => (l, below l))))
    (hfull : ∀ l ∈ sets.members d, chosen l = true → Full sets rest (below l))
    {l : String} (hm : l ∈ sets.members d) (hc : chosen l = true) :
    ∃ e ∈ es, e.keyAt position = some l := by
  obtain ⟨⟨keys, leaf⟩, hleaf⟩ := List.exists_mem_of_ne_nil _ (hfull l hm hc).scalars_ne_nil
  obtain ⟨e, he, _, hkeys⟩ :=
    h.complete (l :: keys) leaf (mem_scalars_level.2 ⟨l, keys, rfl, hm, hc, hleaf⟩)
  exact ⟨e, he, hkeys 0 l rfl⟩

/-- A member is covered exactly if it is chosen. -/
theorem Describe.covering_ne_nil_iff
    (h : Describe position es
      (.mapping (((sets.members d).filter chosen).map fun l => (l, below l))))
    (hfull : ∀ l ∈ sets.members d, chosen l = true → Full sets rest (below l))
    {l : String} (hm : l ∈ sets.members d) :
    (es.filter fun e => e.covers position l) ≠ [] ↔ chosen l = true := by
  constructor
  · intro hne
    obtain ⟨e, he⟩ := List.exists_mem_of_ne_nil _ hne
    obtain ⟨hes, hcov⟩ := List.mem_filter.1 he
    obtain ⟨keys, hleaf, hkeys⟩ := h.sound e hes
    obtain ⟨k, rest, rfl, _, hc, _⟩ := mem_scalars_level.1 hleaf
    have hk : e.keyAt position = some k := hkeys 0 k rfl
    rwa [← (Entry.covers_iff_of_keyAt hk).1 hcov]
  · intro hc
    obtain ⟨e, he, hk⟩ := h.exists_keyAt hfull hm hc
    exact List.ne_nil_of_mem (List.mem_filter.2 ⟨he, (Entry.covers_iff_of_keyAt hk).2 rfl⟩)

end

/-! ### The expansion lists what is there -/

theorem winner?_mem {es : List Entry} {w : Entry} (h : winner? es = some w) : w ∈ es := by
  have hfold : ∀ (rest : List Entry) (e : Entry),
      rest.foldl (fun best f => if best.yields f then f else best) e ∈ e :: rest := by
    intro rest
    induction rest with
    | nil => exact fun e => List.mem_cons_self
    | cons f rest ih =>
      intro e
      rw [List.foldl_cons]
      split
      · exact List.mem_cons_of_mem _ (ih f)
      · rcases List.mem_cons.1 (ih e) with heq | hm
        · rw [heq]
          exact List.mem_cons_self
        · exact List.mem_cons_of_mem _ (List.mem_cons_of_mem _ hm)
  cases es with
  | nil => cases h
  | cons e rest =>
    rw [winner?, Option.some.injEq] at h
    rw [← h]
    exact hfold rest e

/-- **An expanded value is listed as it is** over any labels among which its keys are. -/
theorem expand_of_full (h : Full sets dimensions value) {position : Nat} {es : List Entry}
    {labels : List (List String)} (hes : Describe position es value)
    (hlen : labels.length = dimensions.length)
    (hlabels : ∀ (i : Nat) d ls, dimensions[i]? = some d → labels[i]? = some ls →
      ∃ listed : String → Bool, ls = (sets.members d).filter listed ∧
        ∀ e ∈ es, ∀ l, e.keyAt (position + i) = some l → listed l = true) :
    expand position labels es = value := by
  induction h generalizing position es labels with
  | leaf tag text =>
    rw [List.length_nil, List.length_eq_zero_iff] at hlen
    subst hlen
    obtain ⟨e, he, _⟩ := hes.complete [] (.scalar tag text) List.mem_cons_self
    obtain ⟨w, hw⟩ := exists_winner (List.ne_nil_of_mem he)
    obtain ⟨keys, hleaf, _⟩ := hes.sound w (winner?_mem hw)
    rw [Node.scalars, List.mem_singleton, Prod.mk.injEq] at hleaf
    rw [expand, hw, Option.map_some, Option.getD_some, hleaf.2]
  | @level d rest chosen below _ full_below ih =>
    cases labels with
    | nil => cases hlen
    | cons ls others =>
      obtain ⟨listed, rfl, hlisted⟩ := hlabels 0 d ls rfl rfl
      -- a member is listed and covered exactly if it is chosen
      have hchosen : ∀ l ∈ sets.members d,
          (!(es.filter fun e => e.covers position l).isEmpty && listed l) = chosen l := by
        intro l hm
        rw [Bool.eq_iff_iff, Bool.and_eq_true, Bool.not_eq_true', List.isEmpty_eq_false_iff,
          hes.covering_ne_nil_iff full_below hm, and_iff_left_iff_imp]
        intro hc
        obtain ⟨e, he, hk⟩ := hes.exists_keyAt full_below hm hc
        exact hlisted e he l hk
      rw [expand_cons, List.filter_filter, List.filter_congr hchosen, Node.mapping.injEq]
      refine List.map_congr_left fun l hl => congrArg (Prod.mk l) ?_
      obtain ⟨hm, hc⟩ := List.mem_filter.1 hl
      refine ih l hm hc (hes.covering hm hc) (by simpa using hlen) fun i d' ls' hd' hls' => ?_
      obtain ⟨listed', hls, hlisted'⟩ := hlabels (i + 1) d' ls' hd' hls'
      refine ⟨listed', hls, fun e he l' hk => hlisted' e (List.mem_of_mem_filter he) l' ?_⟩
      rwa [Nat.add_assoc, Nat.add_comm 1] at hk

/-! ### The candidates -/

theorem foldl_appendNew_of_subset {given members : List String}
    (h : ∀ key ∈ given, key ∈ members) : given.foldl appendNew members = members := by
  induction given with
  | nil => rfl
  | cons key rest ih =>
    have hkey : appendNew members key = members := if_pos (h key List.mem_cons_self)
    rw [List.foldl_cons, hkey]
    exact ih fun k hk => h k (List.mem_cons_of_mem _ hk)

/-- If all keys given at a position are members, the candidates are members in their own order,
those given among them, and at least one is covered by each entry. -/
theorem candidates_of_members (path : String) {es : List Entry} {p : Nat} {d : Dimension}
    (h : ∀ e ∈ es, ∀ key, e.keyAt p = some key → key ∈ sets.members d) :
    (∃ e ∈ es, e.keyAt p = none) ∧ candidates sets path es p d =
        (if (sets.members d).isEmpty then .error (.noMembers path d)
          else .ok (sets.members d)) ∨
      (¬ ∃ e ∈ es, e.keyAt p = none) ∧ candidates sets path es p d =
        .ok ((sets.members d).filter (es.filterMap (Entry.keyAt · p)).contains) := by
  have hgiven : ∀ key ∈ es.filterMap (Entry.keyAt · p), key ∈ sets.members d := by
    intro key hk
    obtain ⟨e, he, hkey⟩ := List.mem_filterMap.1 hk
    exact h e he key hkey
  have hopen : (es.any fun e => (e.keyAt p).isNone) = true ↔ ∃ e ∈ es, e.keyAt p = none := by
    simp only [List.any_eq_true, Option.isNone_iff_eq_none]
  simp only [candidates]
  by_cases ho : (es.any fun e => (e.keyAt p).isNone) = true
  · rw [if_pos ho, foldl_appendNew_of_subset hgiven]
    exact Or.inl ⟨hopen.1 ho, rfl⟩
  · rw [if_neg ho, foldl_appendNew_of_subset]
    · exact Or.inr ⟨fun hn => ho (hopen.2 hn), rfl⟩
    · intro key hk
      exact List.mem_filter.2 ⟨hgiven key hk, List.contains_iff_mem.2 hk⟩

theorem mapM_ok {ε α β : Type} {f : α → Except ε β} {g : α → β} {as : List α}
    (h : ∀ a ∈ as, f a = .ok (g a)) : as.mapM f = .ok (as.map g) := by
  induction as with
  | nil => rfl
  | cons a rest ih =>
    rw [List.mapM_cons, h a List.mem_cons_self,
      ih fun a' ha => h a' (List.mem_cons_of_mem _ ha)]
    rfl

/-! ### Expanding an expanded value -/

/-- The stages of an expansion, for a value that has entries. -/
theorem broadcast_of_entries (hnull : value.isNull = false) (hd : dimensions ≠ [])
    {positions : List Nat} {es : List Entry} {labels : List (List String)}
    (ha : alignLevels sets dimensions path value = .ok positions)
    (he : entriesOf path value positions (dimensions.map fun _ => none) = .ok es) (hne : es ≠ [])
    (hl : (dimensions.zipIdx.mapM fun (d, p) => candidates sets path es p d) = .ok labels) :
    broadcast sets dimensions path value = .ok (expand 0 labels es) := by
  have hcond : ¬ (value.isNull || dimensions.isEmpty) = true := by
    simp [hnull, hd]
  have hes : ¬ es.isEmpty = true := by simpa using hne
  rw [broadcast, if_neg hcond, ha]
  simp only [he, hl, bind, Except.bind, if_neg hes]
  rfl

theorem broadcast_null : broadcast sets dimensions path .null = .ok .null := rfl

/-- A mapping without keys stays as it is. -/
theorem broadcast_nil (hd : dimensions ≠ []) :
    broadcast sets dimensions path (.mapping []) = .ok (.mapping []) := by
  obtain ⟨d, rest, rfl⟩ := List.exists_cons_of_ne_nil hd
  have hfirst : firstFree (d :: rest) [] (fun _ => true) = some 0 :=
    firstFree_eq_some_iff.2
      ⟨List.not_mem_nil, ⟨d, rfl, rfl⟩, fun j hj => absurd hj (Nat.not_lt_zero j)⟩
  have ha : alignLevels sets (d :: rest) path (.mapping []) = .ok [0] := by
    simp [alignLevels, levelKeys, entryLevels, chooseAll, choose, preferences, hfirst]
  rw [broadcast, ha]
  rfl

/-- Every entry gives a member at each position if the entries describe an expanded value. -/
theorem Describe.exists_member {es : List Entry} (hes : Describe 0 es value)
    (h : Full sets dimensions value) {e : Entry} (he : e ∈ es) {p : Nat} {d : Dimension}
    (hp : dimensions[p]? = some d) : ∃ key ∈ sets.members d, e.keyAt p = some key := by
  obtain ⟨keys, hleaf, hkeys⟩ := hes.sound e he
  have hmembers := h.keys_of_mem_scalars hleaf
  obtain ⟨hlt, heq⟩ := List.getElem?_eq_some_iff.1 hp
  have hk : p < keys.length := hmembers.length_eq ▸ hlt
  refine ⟨keys[p], ?_, ?_⟩
  · rw [← heq]
    exact (List.forall₂_iff_get.1 hmembers).2 p hlt hk
  · have h := hkeys p keys[p] (List.getElem?_eq_getElem hk)
    rwa [Nat.zero_add] at h

/-- **A value expands to the expanded value that its entries describe.** -/
theorem broadcast_of_describe (hd : dimensions ≠ []) (hnull : value.isNull = false)
    {positions : List Nat} {es : List Entry}
    (halign : alignLevels sets dimensions path value = .ok positions)
    (hok : entriesOf path value positions (dimensions.map fun _ => none) = .ok es)
    (h : Full sets dimensions result) (hes : Describe 0 es result) :
    broadcast sets dimensions path value = .ok result := by
  have hne : es ≠ [] := by
    obtain ⟨⟨keys, leaf⟩, hleaf⟩ := List.exists_mem_of_ne_nil _ h.scalars_ne_nil
    obtain ⟨e, he, _⟩ := hes.complete keys leaf hleaf
    exact List.ne_nil_of_mem he
  let listed (p : Nat) : String → Bool := (es.filterMap (Entry.keyAt · p)).contains
  have hcand : ∀ a ∈ dimensions.zipIdx, candidates sets path es a.2 a.1 =
      .ok ((sets.members a.1).filter (listed a.2)) := by
    rintro ⟨d, p⟩ hm
    have hp : dimensions[p]? = some d := List.mem_zipIdx_iff_getElem?.1 hm
    have hmembers : ∀ e ∈ es, ∀ key, e.keyAt p = some key → key ∈ sets.members d := by
      intro e he key hk
      obtain ⟨key', hkey', hk'⟩ := hes.exists_member h he hp
      rw [hk, Option.some.injEq] at hk'
      rwa [hk']
    rcases candidates_of_members path hmembers with ⟨⟨e, he, hnone⟩, _⟩ | ⟨_, hc⟩
    · obtain ⟨key, _, hk⟩ := hes.exists_member h he hp
      rw [hnone] at hk
      cases hk
    · exact hc
  rw [broadcast_of_entries hnull hd halign hok hne (mapM_ok hcand)]
  refine congrArg Except.ok (expand_of_full h hes (by simp) fun i d ls hi hls => ?_)
  rw [List.getElem?_map, List.getElem?_zipIdx, hi] at hls
  cases hls
  refine ⟨_, rfl, fun e he l hk => ?_⟩
  rw [Nat.zero_add] at hk ⊢
  exact List.contains_iff_mem.2 (List.mem_filterMap.2 ⟨e, he, hk⟩)

/-- **An expanded value is its own expansion.** -/
theorem broadcast_of_full (hd : dimensions ≠ [])
    (hstar : ∀ d ∈ dimensions, wildcard ∉ sets.members d) (h : Full sets dimensions value)
    (path : String) : broadcast sets dimensions path value = .ok value := by
  have halign := alignLevels_of_full h hstar path
  obtain ⟨es, hok⟩ := h.levelled.entriesOf_ok path (List.range dimensions.length)
    (dimensions.map fun _ => none)
  obtain rfl := entriesOf_blank halign hok
  exact broadcast_of_describe hd h.levelled.isNull_eq_false halign hok h (h.describe hstar)

theorem broadcast_of_expanded (hd : dimensions ≠ [])
    (hstar : ∀ d ∈ dimensions, wildcard ∉ sets.members d) (h : IsExpanded sets dimensions value)
    (path : String) : broadcast sets dimensions path value = .ok value := by
  rcases h with rfl | rfl | h
  · exact broadcast_null
  · exact broadcast_nil hd
  · exact broadcast_of_full hd hstar h path

end EnergyPlan.Fields
