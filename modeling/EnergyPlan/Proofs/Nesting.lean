/-
# A value may be nested in any order

A table has a scalar for each of some tuples of members. It is written as mappings that are nested
in some order of the dimensions, with a level for each of them. If no two dimensions have a member
in common, the keys of a level are members of one dimension alone, so alignment gives each level
the dimension that it was nested by, whatever the order, the choice of the keys and their sequence.
Every scalar is then an entry with the whole tuple as its pattern, and the expansion is the table
nested in the order of the dimensions, with the keys in the order of the members.

Key definitions: `Table`, `reorder`, `Table.NestedBy`.
Key theorems: `exists_full`, `chooseAll_of_order`, `Table.NestedBy.alignLevels`,
`Table.NestedBy.describe`, `broadcast_nested`.
-/
import EnergyPlan.Proofs.Alignment

namespace EnergyPlan.Fields

open Config Text

variable {sets : MemberSets} {dimensions : List Dimension} {path : String} {value result : Node}

/-- A tuple has a member for each of several dimensions. -/
def MemberTuple (sets : MemberSets) (dimensions : List Dimension) (tuple : List String) : Prop :=
  List.Forall₂ (fun d key => key ∈ sets.members d) dimensions tuple

/-- A scalar for each of some tuples of members, at least one of them. -/
structure Table (sets : MemberSets) (dimensions : List Dimension) where
  leaf? : List String → Option Node
  some_leaf : ∃ tuple leaf, leaf? tuple = some leaf
  members : ∀ tuple leaf, leaf? tuple = some leaf → MemberTuple sets dimensions tuple
  scalars : ∀ tuple leaf, leaf? tuple = some leaf → leaf.isScalar = true

/-! ### Tuples in another order -/

/-- The components of a tuple in the order of their positions in a list. -/
def reorder (order : List Nat) (tuple : List String) : List String :=
  order.map fun p => tuple.getD p ""

theorem getElem?_reorder {order : List Nat} {tuple : List String} {level p : Nat} {key : String}
    (hp : order[level]? = some p) (hk : tuple[p]? = some key) :
    (reorder order tuple)[level]? = some key := by
  rw [reorder, List.getElem?_map, hp, Option.map_some, List.getD_eq_getElem?_getD, hk,
    Option.getD_some]

/-- A tuple is known from its components in another order. -/
theorem reorder_inj {order : List Nat} {size : Nat} (hp : order.Perm (List.range size))
    {tuple tuple' : List String} (hlen : tuple.length = size) (hlen' : tuple'.length = size)
    (h : reorder order tuple = reorder order tuple') : tuple = tuple' := by
  refine List.ext_getElem (hlen.trans hlen'.symm) fun p hlt hlt' => ?_
  have hmem : p ∈ order := hp.mem_iff.2 (List.mem_range.2 (hlen ▸ hlt))
  have hsame := List.map_inj_left.1 h p hmem
  rwa [List.getD_eq_getElem _ _ hlt, List.getD_eq_getElem _ _ hlt'] at hsame

/-- Some positions have dimensions, in their order. -/
theorem exists_dimensions {order : List Nat} (h : ∀ p ∈ order, p < dimensions.length) :
    ∃ ds, List.Forall₂ (fun p d => dimensions[p]? = some d) order ds ∧ ds ⊆ dimensions := by
  induction order with
  | nil => exact ⟨[], .nil, List.nil_subset _⟩
  | cons p order ih =>
    obtain ⟨ds, hds, hsub⟩ := ih fun q hq => h q (List.mem_cons_of_mem _ hq)
    have hlt := h p List.mem_cons_self
    exact ⟨_, .cons (List.getElem?_eq_getElem hlt) hds,
      List.cons_subset.2 ⟨List.getElem_mem hlt, hsub⟩⟩

/-- Reordering a tuple of members gives one for the dimensions in that order. -/
theorem MemberTuple.reorder {tuple : List String} (h : MemberTuple sets dimensions tuple)
    {order : List Nat} {ds : List Dimension}
    (hds : List.Forall₂ (fun p d => dimensions[p]? = some d) order ds) :
    MemberTuple sets ds (reorder order tuple) := by
  induction hds with
  | nil => exact .nil
  | @cons p d order ds hd _ ih =>
    refine .cons ?_ ih
    obtain ⟨hlt, rfl⟩ := List.getElem?_eq_some_iff.1 hd
    have hlt' : p < tuple.length := h.length_eq ▸ hlt
    show tuple.getD p "" ∈ sets.members dimensions[p]
    rw [List.getD_eq_getElem _ _ hlt']
    exact (List.forall₂_iff_get.1 h).2 p hlt hlt'

/-! ### The expanded value with some leaves -/

/-- **There is an expanded value with any leaves** that are scalars, one for each of some tuples
of members. -/
theorem exists_full (holds : List String → Node → Prop)
    (hmembers : ∀ tuple leaf, holds tuple leaf → MemberTuple sets dimensions tuple)
    (hscalar : ∀ tuple leaf, holds tuple leaf → leaf.isScalar = true)
    (hone : ∀ tuple leaf leaf', holds tuple leaf → holds tuple leaf' → leaf = leaf')
    (hsome : ∃ tuple leaf, holds tuple leaf) :
    ∃ value, Full sets dimensions value ∧
      ∀ tuple leaf, (tuple, leaf) ∈ value.scalars ↔ holds tuple leaf := by
  induction dimensions generalizing holds with
  | nil =>
    obtain ⟨tuple, leaf, hleaf⟩ := hsome
    have hempty : ∀ tuple leaf, holds tuple leaf → tuple = [] :=
      fun tuple leaf h => List.forall₂_nil_left_iff.1 (hmembers tuple leaf h)
    obtain rfl := hempty tuple leaf hleaf
    cases leaf with
    | scalar tag text =>
      refine ⟨.scalar tag text, .leaf tag text, fun tuple leaf => ?_⟩
      rw [Node.scalars, List.mem_singleton, Prod.mk.injEq]
      constructor
      · rintro ⟨rfl, rfl⟩
        exact hleaf
      · intro h
        obtain rfl := hempty tuple leaf h
        exact ⟨rfl, hone [] _ _ h hleaf⟩
    | _ => cases hscalar _ _ hleaf
  | cons d ds ih =>
    classical
    -- below each member there is the expanded value of what holds there
    have hbelow : ∀ l, ∃ below, (∃ rest leaf, holds (l :: rest) leaf) → Full sets ds below ∧
        ∀ rest leaf, (rest, leaf) ∈ below.scalars ↔ holds (l :: rest) leaf := by
      intro l
      by_cases hl : ∃ rest leaf, holds (l :: rest) leaf
      · obtain ⟨below, hfull, hleaves⟩ := ih (fun rest => holds (l :: rest))
          (fun rest leaf h => (List.forall₂_cons.1 (hmembers _ _ h)).2)
          (fun rest leaf h => hscalar _ _ h) (fun rest _ _ h h' => hone _ _ _ h h') hl
        exact ⟨below, fun _ => ⟨hfull, hleaves⟩⟩
      · exact ⟨.null, fun h => absurd h hl⟩
    choose below hfull using hbelow
    have hsplit : ∀ tuple leaf, holds tuple leaf → ∃ l rest, tuple = l :: rest ∧
        l ∈ sets.members d := by
      intro tuple leaf h
      have hm := hmembers tuple leaf h
      cases hm with
      | @cons _ l _ rest hl _ => exact ⟨l, rest, rfl, hl⟩
    refine ⟨_, .level (fun l => decide (∃ rest leaf, holds (l :: rest) leaf)) below ?_ ?_, ?_⟩
    · obtain ⟨tuple, leaf, h⟩ := hsome
      obtain ⟨l, rest, rfl, hl⟩ := hsplit tuple leaf h
      exact ⟨l, hl, decide_eq_true ⟨rest, leaf, h⟩⟩
    · exact fun l _ hl => (hfull l (of_decide_eq_true hl)).1
    · intro tuple leaf
      rw [mem_scalars_level]
      constructor
      · rintro ⟨l, rest, rfl, _, hl, hleaf⟩
        exact ((hfull l (of_decide_eq_true hl)).2 rest leaf).1 hleaf
      · intro h
        obtain ⟨l, rest, rfl, hl⟩ := hsplit tuple leaf h
        have hchosen : ∃ rest leaf, holds (l :: rest) leaf := ⟨rest, leaf, h⟩
        exact ⟨l, rest, rfl, hl, decide_eq_true hchosen, ((hfull l hchosen).2 rest leaf).2 h⟩

/-! ### The alignment finds the order -/

/-- No two dimensions have a member in common. -/
def DisjointMembers (sets : MemberSets) (dimensions : List Dimension) : Prop :=
  dimensions.Pairwise fun d d' => (sets.members d).Disjoint (sets.members d')

/-- **Levels nested in an order take their positions in that order**: no other dimension has a key
of the level. -/
theorem chooseAll_of_order (hdisjoint : DisjointMembers sets dimensions) {order : List Nat}
    {ds : List Dimension} (hds : List.Forall₂ (fun p d => dimensions[p]? = some d) order ds)
    (hn : order.Nodup) {levels : List (List String)} (h : List.Forall₂ (Fits sets) ds levels)
    {taken : List Nat} (hfree : ∀ p ∈ order, p ∉ taken) :
    chooseAll sets dimensions taken levels = some order := by
  induction hds generalizing levels taken with
  | nil =>
    cases h
    rfl
  | @cons p d order ds hd _ ih =>
    rw [List.nodup_cons] at hn
    cases h with
    | @cons _ keys _ rest hfit hrest =>
      have hchoose : choose sets dimensions taken keys = some p := by
        refine (choose_eq_iff (hfree p List.mem_cons_self) hd hfit.2).2 ?_
        rintro ⟨q, hq, _, d', hd', hkeys⟩
        obtain ⟨hlt, rfl⟩ := List.getElem?_eq_some_iff.1 hd
        obtain ⟨hlt', rfl⟩ := List.getElem?_eq_some_iff.1 hd'
        obtain ⟨key, hkey⟩ := List.exists_mem_of_ne_nil _ hfit.1
        exact List.pairwise_iff_getElem.1 hdisjoint q p hlt' hlt hq (hkeys key hkey)
          (hfit.2 key hkey)
      have hnext : chooseAll sets dimensions (p :: taken) rest = some order := by
        refine ih hn.2 hrest fun q hq => ?_
        rw [List.mem_cons, not_or]
        refine ⟨?_, hfree q (List.mem_cons_of_mem _ hq)⟩
        rintro rfl
        exact hn.1 hq
      rw [chooseAll, hchoose]
      simp only [Option.bind_eq_bind, Option.bind_some, hnext, Option.pure_def]

/-! ### Tables nested in an order -/

namespace Table

variable {table : Table sets dimensions} {order : List Nat}

/-- A value is a table nested in an order: it has a level for each position, the first one
outermost, and its scalars are the leaves of the table, below their keys in that order. -/
structure NestedBy (table : Table sets dimensions) (order : List Nat) (value : Node) : Prop where
  levelled : Levelled order.length value
  mem_scalars : ∀ keys leaf, (keys, leaf) ∈ value.scalars ↔
    ∃ tuple, table.leaf? tuple = some leaf ∧ keys = reorder order tuple

/-- A table is nested in every order of the dimensions. -/
theorem exists_nestedBy (table : Table sets dimensions)
    (hp : order.Perm (List.range dimensions.length)) : ∃ value, table.NestedBy order value := by
  obtain ⟨ds, hds, _⟩ := exists_dimensions fun p hm => List.mem_range.1 (hp.mem_iff.1 hm)
  let holds (keys : List String) (leaf : Node) : Prop :=
    ∃ tuple, table.leaf? tuple = some leaf ∧ keys = reorder order tuple
  have hmembers : ∀ keys leaf, holds keys leaf → MemberTuple sets ds keys := by
    rintro _ leaf ⟨tuple, h, rfl⟩
    exact (table.members tuple leaf h).reorder hds
  have hscalar : ∀ keys leaf, holds keys leaf → leaf.isScalar = true := by
    rintro _ leaf ⟨tuple, h, rfl⟩
    exact table.scalars tuple leaf h
  have hone : ∀ keys leaf leaf', holds keys leaf → holds keys leaf' → leaf = leaf' := by
    rintro _ leaf leaf' ⟨tuple, h, rfl⟩ ⟨tuple', h', heq⟩
    have hlen := (table.members tuple leaf h).length_eq.symm
    have hlen' := (table.members tuple' leaf' h').length_eq.symm
    obtain rfl := reorder_inj hp hlen hlen' heq
    exact Option.some.inj (h.symm.trans h')
  obtain ⟨tuple, leaf, h⟩ := table.some_leaf
  obtain ⟨value, hfull, hleaves⟩ :=
    exists_full holds hmembers hscalar hone ⟨_, leaf, tuple, h, rfl⟩
  exact ⟨value, hds.length_eq ▸ hfull.levelled, hleaves⟩

namespace NestedBy

/-- **The levels of a nested table are aligned as they were nested.** -/
theorem alignLevels (h : table.NestedBy order value)
    (hdisjoint : DisjointMembers sets dimensions)
    (hstar : ∀ d ∈ dimensions, wildcard ∉ sets.members d)
    (hp : order.Perm (List.range dimensions.length)) (path : String) :
    alignLevels sets dimensions path value = .ok order := by
  obtain ⟨ds, hds, hsub⟩ := exists_dimensions fun p hm => List.mem_range.1 (hp.mem_iff.1 hm)
  have hlevels : List.Forall₂ (Fits sets) ds (levelKeys value) := by
    refine Levelled.levels (hds.length_eq ▸ h.levelled) (fun d hd => hstar d (hsub hd)) ?_
    intro keys leaf hleaf
    obtain ⟨tuple, ht, rfl⟩ := (h.mem_scalars keys leaf).1 hleaf
    exact (table.members tuple leaf ht).reorder hds
  have hall : chooseAll sets dimensions [] (levelKeys value) = some order :=
    chooseAll_of_order hdisjoint hds (hp.nodup_iff.2 List.nodup_range) hlevels nofun
  simp only [Fields.alignLevels, hall]

/-- The entries of a nested table describe the expanded value with its leaves. -/
theorem describe (h : table.NestedBy order value)
    (hstar : ∀ d ∈ dimensions, wildcard ∉ sets.members d)
    (hp : order.Perm (List.range dimensions.length)) (hfull : Full sets dimensions result)
    (hleaves : ∀ tuple leaf, (tuple, leaf) ∈ result.scalars ↔ table.leaf? tuple = some leaf) :
    Describe 0 (entriesAt dimensions.length order value) result := by
  refine hfull.describe_of_arranged hstar (hp.nodup_iff.2 List.nodup_range) (reorder order)
    (fun p hlt => ?_) fun keys leaf => ?_
  · obtain ⟨level, hlevel⟩ := List.getElem?_of_mem (hp.mem_iff.2 (List.mem_range.2 hlt))
    exact ⟨level, hlevel, fun _ _ hk => getElem?_reorder hlevel hk⟩
  · simp only [h.mem_scalars, hleaves]

/-- A nested table expands to the expanded value with its leaves. -/
theorem broadcast (h : table.NestedBy order value) (hdisjoint : DisjointMembers sets dimensions)
    (hstar : ∀ d ∈ dimensions, wildcard ∉ sets.members d)
    (hp : order.Perm (List.range dimensions.length)) (hfull : Full sets dimensions result)
    (hleaves : ∀ tuple leaf, (tuple, leaf) ∈ result.scalars ↔ table.leaf? tuple = some leaf)
    (path : String) : broadcast sets dimensions path value = .ok result := by
  by_cases hd : dimensions = []
  · -- without dimensions the value is the one leaf, and stays
    subst hd
    obtain rfl : order = [] := hp.eq_nil
    have hlevelled := h.levelled
    cases hlevelled with
    | leaf tag text =>
      obtain ⟨tuple, ht, _⟩ := (h.mem_scalars [] (.scalar tag text)).1 List.mem_cons_self
      have hleaf := (hleaves _ _).2 ht
      cases hfull with
      | leaf tag' text' =>
        rw [Node.scalars, List.mem_singleton, Prod.mk.injEq] at hleaf
        rw [hleaf.2]
        rfl
  · have halign := h.alignLevels hdisjoint hstar hp path
    obtain ⟨es, hok⟩ := h.levelled.entriesOf_ok path order (dimensions.map fun _ => none)
    obtain rfl := entriesOf_blank halign hok
    exact broadcast_of_describe hd h.levelled.isNull_eq_false halign hok hfull
      (h.describe hstar hp hfull hleaves)

end NestedBy

end Table

/-- **A value may be nested in any order.** If no two dimensions have a member in common and none
has the wildcard, then whatever order of the dimensions a table is nested in, it expands to one
and the same value: the one that has exactly the leaves of the table, nested in the order of the
dimensions, with keys in the order of the members. -/
theorem broadcast_nested (hdisjoint : DisjointMembers sets dimensions)
    (hstar : ∀ d ∈ dimensions, wildcard ∉ sets.members d) (table : Table sets dimensions) :
    ∃ result, Full sets dimensions result ∧
      (∀ tuple leaf, (tuple, leaf) ∈ result.scalars ↔ table.leaf? tuple = some leaf) ∧
      ∀ order : List Nat, order.Perm (List.range dimensions.length) →
        (∃ value, table.NestedBy order value) ∧
        ∀ value, table.NestedBy order value → ∀ path,
          broadcast sets dimensions path value = .ok result := by
  obtain ⟨result, hfull, hleaves⟩ := exists_full (fun tuple leaf => table.leaf? tuple = some leaf)
    table.members table.scalars (fun tuple leaf leaf' h h' => Option.some.inj (h.symm.trans h')) table.some_leaf
  refine ⟨result, hfull, hleaves, fun order hp => ⟨table.exists_nestedBy hp, ?_⟩⟩
  exact fun value h path => h.broadcast hdisjoint hstar hp hfull hleaves path

/-- A value for a region in one year and for another region in the other year. -/
def sampleLeaves : List (List String × Node) :=
  [(["R1", "2021"], .plain "1"), (["R2", "2020"], .plain "2")]

theorem lookup_sampleLeaves {tuple : List String} {leaf : Node} :
    sampleLeaves.lookup tuple = some leaf ↔
      tuple = ["R1", "2021"] ∧ leaf = .plain "1" ∨ tuple = ["R2", "2020"] ∧ leaf = .plain "2" := by
  constructor
  · intro h
    obtain ⟨before, after, heq, _⟩ := List.lookup_eq_some_iff.1 h
    have hm : (tuple, leaf) ∈ sampleLeaves := heq ▸ List.mem_append_right _ List.mem_cons_self
    simpa [sampleLeaves] using hm
  · rintro (⟨rfl, rfl⟩ | ⟨rfl, rfl⟩)
    · rfl
    · rfl

/-- The table of the two values. -/
def sampleTable : Table sampleSets [.region, .year] where
  leaf? tuple := sampleLeaves.lookup tuple
  some_leaf := ⟨["R1", "2021"], _, rfl⟩
  members tuple leaf h := by
    rcases lookup_sampleLeaves.1 h with ⟨rfl, _⟩ | ⟨rfl, _⟩
    · exact .cons (by decide +kernel) (.cons (by decide +kernel) .nil)
    · exact .cons (by decide +kernel) (.cons (by decide +kernel) .nil)
  scalars tuple leaf h := by
    rcases lookup_sampleLeaves.1 h with ⟨_, rfl⟩ | ⟨_, rfl⟩
    · rfl
    · rfl

/-- The two values, nested by year and then by region, the later year first. -/
def yearsFirst : Node :=
  .mapping [("2021", .mapping [("R1", .plain "1")]), ("2020", .mapping [("R2", .plain "2")])]

theorem yearsFirst_nested : sampleTable.NestedBy [1, 0] yearsFirst where
  levelled := by
    have leaf : ∀ key text, Levelled 1 (.mapping [(key, .plain text)]) := fun key text =>
      .level (List.cons_ne_nil _ _) (List.forall_mem_singleton.2 (.leaf _ _))
    exact .level (List.cons_ne_nil _ _)
      (List.forall_mem_cons.2 ⟨leaf _ _, List.forall_mem_singleton.2 (leaf _ _)⟩)
  mem_scalars keys leaf := by
    have hscalars : yearsFirst.scalars =
        [(["2021", "R1"], .plain "1"), (["2020", "R2"], .plain "2")] := rfl
    have hone : reorder [1, 0] ["R1", "2021"] = ["2021", "R1"] := rfl
    have htwo : reorder [1, 0] ["R2", "2020"] = ["2020", "R2"] := rfl
    rw [hscalars]
    constructor
    · intro h
      rcases List.mem_cons.1 h with heq | h
      · cases heq
        exact ⟨_, lookup_sampleLeaves.2 (.inl ⟨rfl, rfl⟩), hone.symm⟩
      · cases List.mem_singleton.1 h
        exact ⟨_, lookup_sampleLeaves.2 (.inr ⟨rfl, rfl⟩), htwo.symm⟩
    · rintro ⟨tuple, h, rfl⟩
      rcases lookup_sampleLeaves.1 h with ⟨rfl, rfl⟩ | ⟨rfl, rfl⟩
      · exact List.mem_cons_self
      · exact List.mem_cons_of_mem _ List.mem_cons_self

/-- Nested by year and then by region, the table expands to the table nested by region and then by
year, with the regions in their order. -/
theorem broadcast_nested_sample :
    Full sampleSets [.region, .year]
        (.mapping [("R1", .mapping [("2021", .plain "1")]),
          ("R2", .mapping [("2020", .plain "2")])]) ∧
      broadcast sampleSets [.region, .year] "field" yearsFirst =
        .ok (.mapping [("R1", .mapping [("2021", .plain "1")]),
          ("R2", .mapping [("2020", .plain "2")])]) := by
  have hdisjoint : DisjointMembers sampleSets [.region, .year] :=
    List.pairwise_pair.2 fun key hregion hyear => by
      revert key
      decide +kernel
  have hstar : ∀ d ∈ [Dimension.region, .year], wildcard ∉ sampleSets.members d := by
    decide +kernel
  obtain ⟨result, hfull, _, horders⟩ := broadcast_nested hdisjoint hstar sampleTable
  have hperm : [1, 0].Perm (List.range [Dimension.region, .year].length) := by decide
  have hok := (horders [1, 0] hperm).2 yearsFirst yearsFirst_nested "field"
  have hresult : broadcast sampleSets [.region, .year] "field" yearsFirst =
      .ok (.mapping [("R1", .mapping [("2021", .plain "1")]),
        ("R2", .mapping [("2020", .plain "2")])]) := by rfl
  obtain rfl := Except.ok.inj (hok.symm.trans hresult)
  exact ⟨hfull, hok⟩

end EnergyPlan.Fields
