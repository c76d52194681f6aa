/-
# Expansion reads nothing that is not there

The expansion of a value reads the level at a depth, the slot of a pattern at a position and
the first of the entries that are left without looking whether there is one. Here the same
reads are made with a look first (`walk`, `checkedExpand`), and a read of something that is
not there is a `Fault`. A value that nests no deeper than there are dimensions leads to none:
its levels are aligned one by one, each to a free position; the walk down the value stays
within them; and each entry covers a label at every position, so an entry is left wherever
one is chosen, and no mapping is listed without a key.

Key definitions: `nesting`, `Fault`, `walk`, `checkedExpand`, `InRange`.
Key theorems: `length_levelKeys`, `exists_choose_of_chooseAll`, `walk_eq`,
`Ready.checkedExpand_eq`, `inRange_of_nesting`.
-/
import EnergyPlan.Proofs.Calls
import EnergyPlan.Proofs.Outcomes
import EnergyPlan.Proofs.Shorthand.Declared

namespace EnergyPlan.Fields

open Config Text

variable {sets : MemberSets} {dimensions : List Dimension} {path : String} {value : Node}

/-! ### Each nesting level is aligned -/

mutual

/-- How deep the mappings of a value nest, mappings without keys among them. A sequence ends the
nesting as a scalar does. -/
def nesting : Node → Nat
  | .mapping entries => entryNesting entries + 1
  | _ => 0

/-- How deep the mappings below some entries nest. -/
def entryNesting : List (String × Node) → Nat
  | [] => 0
  | (_, node) :: rest => max (nesting node) (entryNesting rest)

end

mutual

/-- Every nesting level has its keys collected, also if it has none. -/
theorem length_levelKeys : ∀ node : Node, (levelKeys node).length = nesting node
  | .null => rfl
  | .scalar .. => rfl
  | .sequence _ => rfl
  | .mapping entries => by
    rw [levelKeys, List.length_cons, nesting, length_entryLevels entries]

theorem length_entryLevels : ∀ entries : List (String × Node),
    (entryLevels entries).length = entryNesting entries
  | [] => rfl
  | (_, node) :: rest => by
    rw [entryLevels, length_joinLevels, entryNesting, length_levelKeys node,
      length_entryLevels rest]

end

/-- Each level is aligned in its turn, after the levels above it have taken their positions. -/
theorem exists_choose_of_chooseAll {levels : List (List String)} {taken ps : List Nat}
    (h : chooseAll sets dimensions taken levels = some ps) {i : Nat} {keys : List String}
    (hi : levels[i]? = some keys) :
    ∃ p, ps[i]? = some p ∧
      choose sets dimensions ((ps.take i).reverse ++ taken) keys = some p := by
  induction levels generalizing taken ps i with
  | nil => cases hi
  | cons first rest ih =>
    simp only [chooseAll, Option.bind_eq_bind, Option.bind_eq_some_iff, Option.pure_def,
      Option.some.injEq] at h
    obtain ⟨p, hp, qs, hqs, rfl⟩ := h
    cases i with
    | zero =>
      rw [List.getElem?_cons_zero, Option.some.injEq] at hi
      subst hi
      exact ⟨p, rfl, hp⟩
    | succ i =>
      obtain ⟨q, hq, hchoose⟩ := ih hqs hi
      refine ⟨q, hq, ?_⟩
      simpa using hchoose

/-- There is a position for every level if the value nests no deeper than there are dimensions. -/
theorem exists_chooseAll (sets : MemberSets) (h : nesting value ≤ dimensions.length) :
    ∃ ps, chooseAll sets dimensions [] (levelKeys value) = some ps := by
  rw [chooseAll_isSome_iff, length_levelKeys]
  have hall : (freePositions dimensions []).length = dimensions.length := by
    simp [freePositions]
  omega

/-! ### The walk down a value, with a look before each read -/

/-- What a read without a look would run into. -/
inductive Fault where
  /-- No level is aligned at a depth. -/
  | noLevel (depth : Nat)
  /-- A pattern ends before a position. -/
  | noSlot (position : Nat)
  /-- No entry is left to choose from. -/
  | noEntry
  /-- A mapping is listed without a key. -/
  | noKey
  /-- The value cannot be expanded, which is reported. -/
  | refused (error : BroadcastError)
deriving DecidableEq, Repr

mutual

/-- The entries of a value, looking up the level at each depth and the slot of the pattern at its
position before they are read. -/
def walk (path : String) (levels : List Nat) : Node → Nat → Pattern → Except Fault (List Entry)
  | .null, _, _ => .ok []
  | .scalar tag text, _, pattern => .ok [⟨pattern, .scalar tag text⟩]
  | .sequence _, _, _ => .error (.refused (.sequenceFound path))
  | .mapping entries, depth, pattern =>
    match levels[depth]? with
    | none => .error (.noLevel depth)
    | some position => walkAll path levels entries (depth + 1) position pattern

/-- The entries below the keys of one level, of values that stand at `depth`. -/
def walkAll (path : String) (levels : List Nat) :
    List (String × Node) → Nat → Nat → Pattern → Except Fault (List Entry)
  | [], _, _, _ => .ok []
  | (key, node) :: rest, depth, position, pattern =>
    if position < pattern.length then do
      let first ← walk path levels node depth (pattern.set position (patternKey key))
      let others ← walkAll path levels rest depth position pattern
      return first ++ others
    else .error (.noSlot position)

end

mutual

/-- **The walk stays within the levels and the pattern**: with a look before each read it finds the
entries that it finds without, and ends in the same error. -/
theorem walk_eq (path : String) {levels : List Nat} : ∀ (node : Node) (depth : Nat)
    (pattern : Pattern), depth + nesting node ≤ levels.length →
    (∀ p ∈ levels, p < pattern.length) →
    walk path levels node depth pattern =
      (entriesOf path node (levels.drop depth) pattern).mapError .refused
  | .null, depth, pattern, _, _ => by rw [walk, entriesOf]; rfl
  | .scalar tag text, depth, pattern, _, _ => by rw [walk, entriesOf]; rfl
  | .sequence _, depth, pattern, _, _ => by rw [walk, entriesOf]; rfl
  | .mapping entries, depth, pattern, hdepth, hslots => by
    rw [nesting] at hdepth
    have hlt : depth < levels.length := by omega
    rw [walk, List.getElem?_eq_getElem hlt, List.drop_eq_getElem_cons hlt, entriesOf]
    exact walkAll_eq path entries (depth + 1) levels[depth] pattern (by omega) hslots
      (hslots _ (List.getElem_mem hlt))

theorem walkAll_eq (path : String) {levels : List Nat} : ∀ (entries : List (String × Node))
    (depth position : Nat) (pattern : Pattern), depth + entryNesting entries ≤ levels.length →
    (∀ p ∈ levels, p < pattern.length) → position < pattern.length →
    walkAll path levels entries depth position pattern =
      (entriesOfAll path entries position (levels.drop depth) pattern).mapError .refused
  | [], _, _, _, _, _, _ => by rw [walkAll, entriesOfAll]; rfl
  | (key, node) :: rest, depth, position, pattern, hdepth, hslots, hslot => by
    rw [entryNesting] at hdepth
    have hset : ∀ p ∈ levels, p < (pattern.set position (patternKey key)).length := by
      simpa only [List.length_set] using hslots
    rw [walkAll, if_pos hslot, entriesOfAll, mapError_bind,
      walk_eq path node depth _ (by omega) hset,
      walkAll_eq path rest depth position pattern (by omega) hslots hslot]
    simp only [mapError_bind]
    rfl

end

/-! ### The expansion, with a look before each read -/

/-- The expansion of some entries, looking whether an entry is left, whether each pattern reaches
the position and whether the mapping has a key. -/
def checkedExpand (position : Nat) : List (List String) → List Entry → Except Fault Node
  | [], compatible =>
    match winner? compatible with
    | none => .error .noEntry
    | some best => .ok best.value
  | labels :: rest, compatible =>
    let covered := labels.filter fun label =>
      !(compatible.filter fun e => e.covers position label).isEmpty
    if compatible.isEmpty then .error .noEntry
    else if compatible.any fun e => e.pattern.length ≤ position then .error (.noSlot position)
    else if covered.isEmpty then .error .noKey
    else do
      let level ← covered.mapM fun label => do
        let covering := compatible.filter fun e => e.covers position label
        let below ← checkedExpand (position + 1) rest covering
        return (label, below)
      return .mapping level

/-- **A ready call faults nowhere**, neither itself nor in a call it makes. -/
theorem Ready.checkedExpand_eq {position : Nat} {labels : List (List String)} {es : List Entry}
    (h : Ready position labels es) :
    checkedExpand position labels es = .ok (expand position labels es) := by
  induction labels generalizing position es with
  | nil =>
    obtain ⟨w, hw⟩ := exists_winner h.some_entry
    rw [checkedExpand, expand, hw]
    rfl
  | cons ls rest ih =>
    have hslots : ¬ (es.any fun e => decide (e.pattern.length ≤ position)) = true := by
      intro hany
      obtain ⟨e, he, hle⟩ := List.any_eq_true.1 hany
      have hlen := h.slots e he
      rw [List.length_cons] at hlen
      have hle := of_decide_eq_true hle
      omega
    have hlevel : ((ls.filter fun l => !(es.filter fun e => e.covers position l).isEmpty).mapM
          fun l => do
            let below ← checkedExpand (position + 1) rest (es.filter fun e => e.covers position l)
            return (l, below)) =
        .ok ((ls.filter fun l => !(es.filter fun e => e.covers position l).isEmpty).map fun l =>
          (l, expand (position + 1) rest (es.filter fun e => e.covers position l))) := by
      refine mapM_ok fun l hl => ?_
      rw [ih (h.covering hl)]
      rfl
    rw [checkedExpand, if_neg (by simpa using h.some_entry), if_neg hslots,
      if_neg (by simpa using h.listed_ne_nil), hlevel, expand_cons]
    rfl

/-! ### The whole value -/

/-- What the expansion of a value relies on once its levels are aligned to `positions`. -/
structure InRange (sets : MemberSets) (dimensions : List Dimension) (path : String) (value : Node)
    (positions : List Nat) : Prop where
  /-- There is one position for each nesting level. -/
  one_each : positions.length = nesting value
  /-- No two levels have the same position. -/
  distinct : positions.Nodup
  /-- The positions are those of dimensions. -/
  below : ∀ p ∈ positions, p < dimensions.length
  /-- Each level found its position among those the levels above it had left. -/
  chosen : ∀ i < nesting value, ∃ keys p, (levelKeys value)[i]? = some keys ∧
    positions[i]? = some p ∧ choose sets dimensions (positions.take i).reverse keys = some p
  /-- The walk down the value reads levels and slots that are there. -/
  walked : walk path positions value 0 (dimensions.map fun _ => none) =
    (entriesOf path value positions (dimensions.map fun _ => none)).mapError .refused
  /-- With some entry, the expansion reads slots and entries that are there, and no mapping it
  builds is without a key. -/
  expanded : ∀ es labels,
    entriesOf path value positions (dimensions.map fun _ => none) = .ok es → es ≠ [] →
    (dimensions.zipIdx.mapM fun (d, p) => candidates sets path es p d) = .ok labels →
    (∀ e ∈ es, e.pattern.length = dimensions.length) ∧
      checkedExpand 0 labels es = .ok (expand 0 labels es) ∧
      Levelled dimensions.length (expand 0 labels es)

/-- **Expansion reads nothing that is not there.** The levels of a value that nests no deeper than
there are dimensions are all aligned, to distinct positions of dimensions; the walk down the value
looks up no level and no slot that is not there; and where some entry is found, one is left in
every call of the expansion and every mapping has a key. -/
theorem inRange_of_nesting (sets : MemberSets) (path : String)
    (h : nesting value ≤ dimensions.length) :
    ∃ positions, alignLevels sets dimensions path value = .ok positions ∧
      InRange sets dimensions path value positions := by
  obtain ⟨ps, hps⟩ := exists_chooseAll sets h
  have ha : alignLevels sets dimensions path value = .ok ps := by
    simp only [alignLevels, hps]
  obtain ⟨hlen, hnodup, hlt⟩ := alignLevels_eq_ok ha
  rw [length_levelKeys] at hlen
  refine ⟨ps, ha, hlen, hnodup, hlt, fun i hi => ?_, ?_, fun es labels hes hne hl => ?_⟩
  · rw [← length_levelKeys] at hi
    obtain ⟨p, hp, hchoose⟩ := exists_choose_of_chooseAll hps (List.getElem?_eq_getElem hi)
    rw [List.append_nil] at hchoose
    exact ⟨_, p, List.getElem?_eq_getElem hi, hp, hchoose⟩
  · apply walk_eq path value 0 _ (by omega)
    simpa only [List.length_map] using hlt
  · have hentries := entriesOf_blank ha hes
    subst hentries
    obtain ⟨hlabels, hcand⟩ := mapM_candidates hl
    simp only [Nat.zero_add] at hcand
    have hready := ready_of_candidates hne hlabels hcand
    have hlevelled := hready.levelled
    rw [hlabels] at hlevelled
    exact ⟨fun e he => length_of_mem_entriesAt he, hready.checkedExpand_eq, hlevelled⟩

/-- A scalar for all regions beside a region whose mapping has no keys. -/
def raggedField : Node :=
  .mapping [("*", .plain "1"), ("R2", .mapping [])]

/-- The empty mapping is a level of its own, which takes the year. -/
theorem inRange_of_nesting_ragged :
    nesting raggedField = 2 ∧ InRange sampleSets [.region, .year] "field" raggedField [0, 1] := by
  have hnesting : nesting raggedField ≤ [Dimension.region, .year].length := by decide
  obtain ⟨positions, ha, hin⟩ := inRange_of_nesting sampleSets "field" hnesting
  have hp : alignLevels sampleSets [.region, .year] "field" raggedField = .ok [0, 1] := by
    decide +kernel
  rw [hp] at ha
  cases ha
  exact ⟨by decide, hin⟩

end EnergyPlan.Fields
