/-
# Configuration trees

A configuration is a tree of mappings, sequences and scalars. A scalar is a text
with a tag: plain text is typed by whoever reads it, quoted text is always a
string, and a text tagged as a string is final and never looked into again.
Mappings keep the order of their keys, and no key occurs twice.

A position in a tree is a list of steps from the root; `get?` reads the node there
and `set` puts another node in its place. Dotted paths address the tree as
readers write them (`find`): a segment names a key of a mapping, and of a sequence
a position or the `id` of an element.

Key definitions: `Node`, `Node.entry?`, `Node.get?`, `Node.set`, `Node.find`,
`Node.leaves`.
Key theorems: `get?_set_self`.
-/
import EnergyPlan.Decimal.Literal

namespace EnergyPlan.Config

open Text

/-- How the text of a scalar is meant. -/
inductive Tag where
  /-- Plain text: a number, a truth value or a string, as it reads. -/
  | plain
  /-- Quoted text: a string. -/
  | quoted
  /-- Text tagged as a string: never evaluated or substituted. -/
  | string
deriving DecidableEq, Repr, Inhabited

/-- A node of a configuration tree. -/
inductive Node where
  | null
  | scalar (tag : Tag) (text : String)
  | sequence (items : List Node)
  | mapping (entries : List (String × Node))
deriving Inhabited

/-- One step down a tree: to a key of a mapping or to a position in a sequence. -/
inductive Step where
  | key (k : String)
  | item (i : Nat)
deriving DecidableEq, Repr

namespace Node

/-- A plain scalar. -/
def plain (text : String) : Node := .scalar .plain text

/-- Whether the node is null. -/
def isNull : Node → Bool
  | .null => true
  | _ => false

/-- Whether the node is a scalar, of any tag. -/
def isScalar : Node → Bool
  | .scalar .. => true
  | _ => false

/-- Whether the node is a sequence. -/
def isSequence : Node → Bool
  | .sequence _ => true
  | _ => false

/-- Whether the node is a mapping. -/
def isMapping : Node → Bool
  | .mapping _ => true
  | _ => false

/-- The text of a scalar. -/
def text? : Node → Option String
  | .scalar _ text => some text
  | _ => none

/-- The elements of a sequence; any other node has none. -/
def items : Node → List Node
  | .sequence items => items
  | _ => []

/-- The entries of a mapping; any other node has none. -/
def entries : Node → List (String × Node)
  | .mapping entries => entries
  | _ => []

/-- The value at a key of a mapping. -/
def entry? (node : Node) (key : String) : Option Node :=
  node.entries.lookup key

/-- The value at a key of a mapping, with a null value taken as missing. -/
def given? (node : Node) (key : String) : Option Node :=
  (node.entry? key).filter fun value => !value.isNull

/-- The text of the scalar at the key `id`. -/
def id? (node : Node) : Option String :=
  (node.entry? "id").bind text?

/-- The display label of an element: its id, or its position. -/
def label (node : Node) (position : Nat) : String :=
  node.id?.getD (toString position)

/-- Puts a value at a key: in the place of the entry with that key, or at the end. -/
def setEntry (key : String) (value : Node) : List (String × Node) → List (String × Node)
  | [] => [(key, value)]
  | (k, v) :: rest => if k = key then (k, value) :: rest else (k, v) :: setEntry key value rest

/-! ### Positions -/

/-- The node one step below. -/
def child? (node : Node) : Step → Option Node
  | .key k => node.entry? k
  | .item i => node.items[i]?

/-- The node at a position. -/
def get? (node : Node) : List Step → Option Node
  | [] => some node
  | step :: rest => (node.child? step).bind fun child => child.get? rest

/-- The tree with the value of an existing key, or element at an existing position, replaced. -/
def setChild (node : Node) (step : Step) (value : Node) : Node :=
  match step, node with
  | .key k, .mapping entries => .mapping (setEntry k value entries)
  | .item i, .sequence items => .sequence (items.set i value)
  | _, node => node

/-- The tree with the node at an existing position replaced. -/
def set (node : Node) (value : Node) : List Step → Node
  | [] => value
  | step :: rest =>
    match node.child? step with
    | some child => node.setChild step (child.set value rest)
    | none => node

/-! ### Dotted paths -/

/-- The element of a sequence that a segment names: by position if it writes an integer, else by id. -/
def element? (items : List Node) (segment : String) : Option Node :=
  match Decimal.integer segment with
  | some position =>
    if 0 ≤ position.toInt then items[position.toInt.toNat]? else none
  | none => items.find? fun element => element.isMapping && element.id? == some segment

/-- The child that a path segment names. -/
def segment? (node : Node) (segment : String) : Option Node :=
  match node with
  | .mapping _ => node.entry? segment
  | .sequence items => element? items segment
  | _ => none

/-- The node that the segments of a path lead to. -/
def find (root : Node) : List String → Option Node
  | [] => some root
  | segment :: rest => (root.segment? segment).bind fun child => child.find rest

/-! ### Leaves -/

/-- The nodes below `depth` levels of mappings with the keys that lead there; a node that is not
a mapping is reported where it stands, with fewer keys. -/
def leaves : Nat → Node → List (List String × Node)
  | depth + 1, .mapping entries =>
    entries.flatMap fun (key, value) =>
      (leaves depth value).map fun (keys, leaf) => (key :: keys, leaf)
  | _, node => [([], node)]

theorem lookup_setEntry_self (key : String) (value : Node) (entries : List (String × Node)) :
    (setEntry key value entries).lookup key = some value := by
  induction entries with
  | nil => simp [setEntry]
  | cons e rest ih =>
    obtain ⟨k, v⟩ := e
    unfold setEntry
    split
    · next h => simp [h]
    · next h =>
      have : (key == k) = false := by simpa using fun h' => h h'.symm
      simp [List.lookup_cons, this, ih]

/-- The node put at an existing position is found there. -/
theorem get?_set_self (value : Node) (position : List Step) (node old : Node)
    (h : node.get? position = some old) : (node.set value position).get? position = some value := by
  induction position generalizing node old with
  | nil => rfl
  | cons step rest ih =>
    simp only [get?] at h
    cases hc : node.child? step with
    | none => simp [hc] at h
    | some child =>
      simp only [hc, Option.bind_some] at h
      have hs : (node.setChild step (child.set value rest)).child? step =
          some (child.set value rest) := by
        cases step with
        | key k =>
          cases node with
          | mapping entries => simp [setChild, child?, entry?, Node.entries, lookup_setEntry_self]
          | _ => simp [child?, entry?, Node.entries] at hc
        | item i =>
          cases node with
          | sequence items =>
            simp only [child?, Node.items] at hc
            have hi : i < items.length := (List.getElem?_eq_some_iff.1 hc).1
            simp [setChild, child?, Node.items, hi]
          | _ => simp [child?, Node.items] at hc
      simp [set, hc, get?, hs, ih child old h]

end Node

end EnergyPlan.Config
