/-
# Scalars that still need resolution

A scalar is pending while its text holds a placeholder (`${path}` or
`$ENV{NAME}`) or is written as an expression: wrapped in braces or brackets, or
calling one of four functions. A text tagged as a string is never pending,
whatever it reads. A node is pending if some scalar below it is; keys do not count.

Key definitions: `hasPlaceholder`, `looksLikeExpression`, `Node.isPending`.
-/
import EnergyPlan.Config.Node

namespace EnergyPlan.Config

open Text

/-- What opens a reference to another node. -/
def referenceOpening : List Char := ['$', '\x7b']

/-- What opens a reference to an environment variable. -/
def environmentOpening : List Char := ['$', 'E', 'N', 'V', '\x7b']

/-- Whether a text holds the opening of a placeholder. -/
def hasPlaceholder (s : String) : Bool :=
  occursIn referenceOpening s.toList || occursIn environmentOpening s.toList

/-- Whether a text of two or more characters starts with `first` and ends with `last`. -/
def wrappedIn (first last : Char) (cs : List Char) : Bool :=
  decide (2 ≤ cs.length) && cs.head? == some first && cs.getLast? == some last

/-- The calls that mark a text as an expression wherever they stand in it. -/
def callMarks : List String := ["range(", "sum(", "min(", "max("]

/-- Whether a text is written as an expression. -/
def looksLikeExpression (s : String) : Bool :=
  let cs := trimChars s.toList
  wrappedIn '\x7b' '\x7d' cs || wrappedIn '[' ']' cs ||
    callMarks.any fun mark => occursIn mark.toList cs

namespace Node

/-- Whether a scalar with this tag and text needs resolution. -/
def scalarPending (tag : Tag) (text : String) : Bool :=
  tag != .string && (hasPlaceholder text || looksLikeExpression text)

mutual

/-- Whether some scalar of the node needs resolution. -/
def isPending : Node → Bool
  | .null => false
  | .scalar tag text => scalarPending tag text
  | .sequence items => anyPending items
  | .mapping entries => anyEntryPending entries

/-- Whether some node of a list is pending. -/
def anyPending : List Node → Bool
  | [] => false
  | node :: rest => node.isPending || anyPending rest

/-- Whether some value of a list of entries is pending. -/
def anyEntryPending : List (String × Node) → Bool
  | [] => false
  | (_, node) :: rest => node.isPending || anyEntryPending rest

end

theorem anyPending_eq_any (items : List Node) : anyPending items = items.any isPending := by
  induction items with
  | nil => rfl
  | cons node rest ih => simp [anyPending, ih]

theorem anyEntryPending_eq_any (entries : List (String × Node)) :
    anyEntryPending entries = entries.any fun e => e.2.isPending := by
  induction entries with
  | nil => rfl
  | cons e rest ih => simp [anyEntryPending, ih]

end Node

end EnergyPlan.Config
