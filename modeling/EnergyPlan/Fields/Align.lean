/-
# Which dimension a level of a field's value indexes

The value of an indexed field is a scalar or a nested mapping. Its levels index
dimensions of the field, but a value may leave dimensions out and may nest them in
another order, so each level is aligned by its keys (a wildcard `*` is no key): to
the first free dimension that has all of them as members; else, if the keys are
integers, to a free year; else to a free dimension of entities; else to the first
free dimension. A level without keys takes the first free dimension.

Key definitions: `levelKeys`, `alignLevels`.
Key theorems: `firstFree_eq_some_iff`, `choose_eq_some`.
-/
import EnergyPlan.Config.Node
import EnergyPlan.Index.Members

namespace EnergyPlan.Fields

open Config Text

/-- The key that stands for every member of a dimension. -/
def wildcard : String := "*"

/-- Why a field cannot be expanded. -/
inductive BroadcastError where
  /-- The value nests deeper than the field has dimensions. -/
  | tooManyLevels (path : String) (levels : Nat) (dimensions : List Dimension)
  /-- The value holds a sequence. -/
  | sequenceFound (path : String)
  /-- A wildcard covers a dimension without members. -/
  | noMembers (path : String) (dimension : Dimension)
deriving DecidableEq, Repr

namespace BroadcastError

/-- What is reported for a field that cannot be expanded. -/
def message : BroadcastError → String
  | .tooManyLevels path levels dimensions =>
    "Broadcast error: " ++ path ++ s!": {levels} index levels given for a field over " ++
      Dimension.listText dimensions
  | .sequenceFound path =>
    "Broadcast error: " ++ path ++ ": expected a scalar or mapping, found a sequence"
  | .noMembers path dimension =>
    "Broadcast error: " ++ path ++ ": cannot expand a wildcard over " ++ dimension.name ++
      ", no members are declared or inferred"

end BroadcastError

/-- Joins the keys of two values level by level. -/
def joinLevels : List (List String) → List (List String) → List (List String)
  | [], levels => levels
  | levels, [] => levels
  | keys :: rest, keys' :: rest' => (keys ++ keys') :: joinLevels rest rest'

mutual

/-- The keys at each nesting level of a value, wildcards left out. -/
def levelKeys : Node → List (List String)
  | .mapping entries =>
    ((entries.map (·.1)).filter (· != wildcard)) :: entryLevels entries
  | _ => []

/-- The keys at each nesting level of the values of some entries. -/
def entryLevels : List (String × Node) → List (List String)
  | [] => []
  | (_, node) :: rest => joinLevels (levelKeys node) (entryLevels rest)

end

/-- Whether a dimension has entities other than regions as its members. -/
def isReference (dimension : Dimension) : Bool :=
  dimension ∈ [.technology, .mode, .commodity, .impact, .storage]

/-- The first position among the free ones whose dimension is accepted. -/
def firstFree (dimensions : List Dimension) (taken : List Nat) (accept : Dimension → Bool) :
    Option Nat :=
  (List.range dimensions.length).find? fun p =>
    !taken.contains p && (dimensions[p]?.any accept)

/-- The ways to accept a dimension for a level with these keys, the preferred one first. -/
def preferences (sets : MemberSets) (keys : List String) : List (Dimension → Bool) :=
  if keys.isEmpty then [fun _ => true]
  else
    [fun d => keys.all (sets.contains d),
      fun d => d == .year && keys.all fun key => (Decimal.integer key).isSome,
      isReference,
      fun _ => true]

/-- The position of the dimension that a level with these keys indexes. -/
def choose (sets : MemberSets) (dimensions : List Dimension) (taken : List Nat)
    (keys : List String) : Option Nat :=
  (preferences sets keys).findSome? (firstFree dimensions taken)

/-- The positions of the dimensions of several levels in turn. -/
def chooseAll (sets : MemberSets) (dimensions : List Dimension) :
    List Nat → List (List String) → Option (List Nat)
  | _, [] => some []
  | taken, keys :: rest => do
    let p ← choose sets dimensions taken keys
    let ps ← chooseAll sets dimensions (p :: taken) rest
    return p :: ps

/-- For each nesting level of a value, the position of the dimension it indexes. -/
def alignLevels (sets : MemberSets) (dimensions : List Dimension) (path : String) (value : Node) :
    Except BroadcastError (List Nat) :=
  let levels := levelKeys value
  match chooseAll sets dimensions [] levels with
  | some positions => .ok positions
  | none => .error (.tooManyLevels path levels.length dimensions)

/-! ### The chosen position is free -/

variable {sets : MemberSets} {dimensions : List Dimension} {taken : List Nat}
  {accept : Dimension → Bool} {keys : List String} {p : Nat}

/-- The first free position is that of an accepted dimension, and no free position before it
is. -/
theorem firstFree_eq_some_iff : firstFree dimensions taken accept = some p ↔
    p ∉ taken ∧ (∃ d, dimensions[p]? = some d ∧ accept d = true) ∧
      ∀ j < p, j ∉ taken → ∀ d, dimensions[j]? = some d → accept d = false := by
  rw [firstFree, List.find?_range_eq_some]
  constructor
  · rintro ⟨hp, hlt, hbefore⟩
    simp only [Bool.and_eq_true, Bool.not_eq_true', List.contains_eq_mem, decide_eq_false_iff_not,
      Option.any_eq_true] at hp
    refine ⟨hp.1, hp.2, fun j hj hfree d hd => ?_⟩
    simpa [hfree, hd] using hbefore j hj
  · rintro ⟨hfree, ⟨d, hd, ha⟩, hbefore⟩
    refine ⟨by simp [hfree, hd, ha], List.mem_range.2 (List.getElem?_eq_some_iff.1 hd).1, ?_⟩
    intro j hj
    cases hdj : dimensions[j]? with
    | none => simp
    | some dj =>
      by_cases htaken : j ∈ taken
      · simp [htaken]
      · simp [htaken, hbefore j hj htaken dj hdj]

/-- There is a first free position as soon as a free one is accepted. -/
theorem exists_firstFree {d : Dimension} (hfree : p ∉ taken) (hd : dimensions[p]? = some d)
    (ha : accept d = true) : ∃ q, firstFree dimensions taken accept = some q := by
  rw [← Option.isSome_iff_exists, firstFree, List.find?_isSome]
  exact ⟨p, List.mem_range.2 (List.getElem?_eq_some_iff.1 hd).1, by simp [hfree, hd, ha]⟩

theorem choose_eq_some (h : choose sets dimensions taken keys = some p) :
    p < dimensions.length ∧ p ∉ taken := by
  obtain ⟨accept, _, ha⟩ := List.exists_of_findSome?_eq_some h
  obtain ⟨hfree, ⟨d, hd, _⟩, _⟩ := firstFree_eq_some_iff.1 ha
  exact ⟨(List.getElem?_eq_some_iff.1 hd).1, hfree⟩

/-- The dimension that has all keys is preferred to all others. -/
theorem choose_of_firstFree
    (h : firstFree dimensions taken (fun d => keys.all (sets.contains d)) = some p) :
    choose sets dimensions taken keys = some p := by
  rw [choose, preferences]
  cases keys with
  | nil =>
    simp only [List.all_nil] at h
    rw [if_pos List.isEmpty_nil, List.findSome?_cons, h]
  | cons key rest =>
    rw [if_neg (by simp), List.findSome?_cons, h]

end EnergyPlan.Fields
