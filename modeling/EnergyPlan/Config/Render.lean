/-
# A node as the text of an expression

A resolved node is written into an expression as a literal: null as `None`, a
scalar as the number or truth value it reads as and otherwise in quotes, a
sequence as a list display and a mapping as a dict display. Quotes and
backslashes inside a string are escaped.

Key definitions: `Node.renderLiteral`.
-/
import EnergyPlan.Config.Node
import EnergyPlan.Decimal.Binary

namespace EnergyPlan.Config

/-- A string in single quotes, with each quote and backslash escaped. -/
def quoted (s : String) : String :=
  String.ofList
    ('\x27' :: (s.toList.flatMap fun c => if c = '\\' ∨ c = '\x27' then ['\\', c] else [c]) ++
      ['\x27'])

/-- A scalar's text as a literal: a number as it stands, a truth value, else a string. -/
def renderScalar (s : String) : String :=
  if (Decimal.real s).isSome then s
  else
    match Decimal.boolean s with
    | some true => "True"
    | some false => "False"
    | none => quoted s

namespace Node

mutual

/-- The node as the text of a literal. -/
def renderLiteral : Node → String
  | .null => "None"
  | .scalar _ text => renderScalar text
  | .sequence items => "[" ++ Text.join ", " (renderItems items) ++ "]"
  | .mapping entries => "\x7b" ++ Text.join ", " (renderEntries entries) ++ "\x7d"

/-- The literals of a list of nodes. -/
def renderItems : List Node → List String
  | [] => []
  | node :: rest => node.renderLiteral :: renderItems rest

/-- The entries of a mapping as `key: value`. -/
def renderEntries : List (String × Node) → List String
  | [] => []
  | (key, node) :: rest => (renderScalar key ++ ": " ++ node.renderLiteral) :: renderEntries rest

end

end Node

end EnergyPlan.Config
