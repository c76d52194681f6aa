/-
# Expanding shorthand values

A value of an indexed field is shorthand for a mapping that is nested in the order
of the field's dimensions and has one scalar for each key. Every scalar of the value
is an `Entry`: its pattern has the key given at each dimension, or nothing where the
value has a wildcard or leaves the dimension out, which stands for every member.

Where several entries cover a key, the one with more keys given wins; of those the
one that gives a key at the innermost dimension where they differ; and of those the
later one. Members are listed in their own order, and keys that are no members after
them.

Key definitions: `Entry`, `entriesOf`, `Entry.yields`, `winner?`, `expand`, `broadcast`.
Key theorems: `expand_cons`.
-/
import EnergyPlan.Fields.Align

namespace EnergyPlan.Fields

open Config Text

/-- The keys that a scalar of a value is given for; nothing stands for every member. -/
abbrev Pattern := List (Option String)

/-- A scalar of a value and the keys it is given for. -/
structure Entry where
  pattern : Pattern
  value : Node

/-- A key of a value as part of a pattern. -/
def patternKey (key : String) : Option String :=
  if key = wildcard then none else some key

mutual

/-- The entries of a value, in document order, whose levels index the dimensions at `positions`;
`pattern` holds the keys of the levels above. -/
def entriesOf (path : String) : Node → List Nat → Pattern → Except BroadcastError (List Entry)
  | .null, _, _ => .ok []
  | .scalar tag text, _, pattern => .ok [⟨pattern, .scalar tag text⟩]
  | .sequence _, _, _ => .error (.sequenceFound path)
  | .mapping _, [], _ => .ok []
  | .mapping entries, position :: rest, pattern => entriesOfAll path entries position rest pattern

/-- The entries below the keys of one level. -/
def entriesOfAll (path : String) : List (String × Node) → Nat → List Nat → Pattern →
    Except BroadcastError (List Entry)
  | [], _, _, _ => .ok []
  | (key, node) :: rest, position, positions, pattern => do
    let first ← entriesOf path node positions (pattern.set position (patternKey key))
    let others ← entriesOfAll path rest position positions pattern
    return first ++ others

end

namespace Entry

/-- How many keys an entry gives. -/
def given (e : Entry) : Nat := e.pattern.countP Option.isSome

/-- The key an entry gives at a position. -/
def keyAt (e : Entry) (position : Nat) : Option String := (e.pattern[position]?).join

/-- Whether an entry stands for a label at a position. -/
def covers (e : Entry) (position : Nat) (label : String) : Bool :=
  (e.keyAt position).all (· == label)

/-- Whether the second of two patterns is the one that gives a key at the innermost position where
exactly one of them does; without such a position it is preferred too. -/
def innermostFavours (first second : Pattern) : Bool :=
  match (first.zip second).reverse.find? fun (a, b) => a.isSome != b.isSome with
  | some (_, b) => b.isSome
  | none => true

/-- Whether an entry gives way to a later one that covers the same key. -/
def yields (earlier later : Entry) : Bool :=
  if earlier.given = later.given then innermostFavours earlier.pattern later.pattern
  else decide (earlier.given < later.given)

end Entry

/-- The entry that decides, of several that cover one key. -/
def winner? : List Entry → Option Entry
  | [] => none
  | e :: rest => some (rest.foldl (fun best e => if best.yields e then e else best) e)

/-- The labels to list at a position. -/
def candidates (sets : MemberSets) (path : String) (entries : List Entry) (position : Nat)
    (dimension : Dimension) : Except BroadcastError (List String) :=
  let members := sets.members dimension
  let given := entries.filterMap (Entry.keyAt · position)
  if entries.any fun e => (e.keyAt position).isNone then
    if members.isEmpty then .error (.noMembers path dimension)
    else .ok (given.foldl appendNew members)
  else .ok (given.foldl appendNew (members.filter (given.contains ·)))

/-- The mapping with a scalar for every key over the candidates that some entry covers. -/
def expand (position : Nat) : List (List String) → List Entry → Node
  | [], compatible => ((winner? compatible).map Entry.value).getD .null
  | labels :: rest, compatible =>
    .mapping <| labels.filterMap fun label =>
      let covering := compatible.filter fun e => e.covers position label
      if covering.isEmpty then none
      else some (label, expand (position + 1) rest covering)

/-- A level is expanded to those of its labels that an entry covers. -/
theorem expand_cons {position : Nat} {ls : List String} {labels : List (List String)}
    {es : List Entry} : expand position (ls :: labels) es =
    .mapping ((ls.filter fun l => !(es.filter fun e => e.covers position l).isEmpty).map
      fun l => (l, expand (position + 1) labels (es.filter fun e => e.covers position l))) := by
  rw [expand, Node.mapping.injEq]
  induction ls with
  | nil => rfl
  | cons l rest ih =>
    rw [List.filterMap_cons, List.filter_cons, ih]
    by_cases h : (es.filter fun e => e.covers position l).isEmpty = true
    · simp only [h, if_pos, Bool.not_true, Bool.false_eq_true, if_false]
    · simp only [h, Bool.not_false, if_pos, if_false, List.map_cons, Bool.false_eq_true]

/-- Expands the value of a field. -/
def broadcast (sets : MemberSets) (dimensions : List Dimension) (path : String) (value : Node) :
    Except BroadcastError Node := do
  if value.isNull || dimensions.isEmpty then
    return value
  let positions ← alignLevels sets dimensions path value
  let entries ← entriesOf path value positions (dimensions.map fun _ => none)
  if entries.isEmpty then
    return .mapping []
  let labels ← dimensions.zipIdx.mapM fun (dimension, position) =>
    candidates sets path entries position dimension
  return expand 0 labels entries

end EnergyPlan.Fields
