/-
# Resolving references to a fixed point

A pass visits the scalars of a tree in document order, looking each one up in the
tree as the pass has left it so far. A scalar that is wholly one `${path}` becomes
a copy of the node there; inside a longer text a reference becomes the text of a
scalar or the literal of any other node; `$ENV{NAME:default}` becomes the value of
an environment variable; a text that is then an expression becomes its value. A
reference to a node that is missing, or itself still pending, blocks the scalar
until a later pass. The root itself is never visited, nor is a text tagged as a
string.

Passes repeat until nothing is pending. A pass that changes nothing, or the end of
the passes allowed, is a failure that names the scalars blocked in the last pass.

Key definitions: `Site`, `Node.sites`, `resolveScalar`, `runPass`, `resolve`.
-/
import EnergyPlan.Config.Render
import EnergyPlan.Expr.Run
import EnergyPlan.Text.Placeholder

namespace EnergyPlan.Config

open Text

/-- The environment variables and their values. -/
abbrev Environment := String → Option String

/-- Why a tree cannot be resolved. -/
inductive ResolutionError where
  /-- A variable is not set and the placeholder has no default. -/
  | missingVariable (name path : String)
  /-- The expression at a path is refused. -/
  | invalidExpression (path : String) (error : Expr.ExpressionError)
  /-- A pass changed nothing and these scalars are blocked. -/
  | stuck (paths : List String)
  /-- The passes allowed are used up and these scalars are blocked. -/
  | exhausted (passes : Int) (paths : List String)
deriving Repr

namespace ResolutionError

/-- A message followed by the paths it is about, if there are any. -/
def withPaths (message : String) (paths : List String) : String :=
  if paths.isEmpty then message else message ++ " [" ++ join ", " paths ++ "]"

/-- What is reported when resolution stops. -/
def message : ResolutionError → String
  | .missingVariable name path =>
    "Environment variable '" ++ name ++ "' is not set and has no default (at " ++ path ++ ")"
  | .invalidExpression path error => "Invalid expression at " ++ path ++ ": " ++ error.message
  | .stuck paths => withPaths "Unresolvable references (missing target or cycle)" paths
  | .exhausted passes paths => withPaths s!"References still unresolved after {passes} passes" paths

end ResolutionError

/-- A scalar of a tree: where it is, the path that messages show for it, and its text. -/
structure Site where
  position : List Step
  path : String
  text : String
deriving DecidableEq, Repr

namespace Node

mutual

/-- The scalars of a node that stands at a position, in document order; a text tagged as a string
is left out. -/
def sitesBelow : Node → List Step → String → List Site
  | .null, _, _ => []
  | .scalar tag text, position, path => if tag = .string then [] else [⟨position, path, text⟩]
  | .sequence items, position, path => itemSites items 0 position path
  | .mapping entries, position, path => entrySites entries position path

/-- The scalars of the elements of a sequence, from position `i` on. -/
def itemSites : List Node → Nat → List Step → String → List Site
  | [], _, _, _ => []
  | node :: rest, i, position, path =>
    node.sitesBelow (position ++ [.item i]) (childPath path (toString i)) ++
      itemSites rest (i + 1) position path

/-- The scalars of the values of a mapping. -/
def entrySites : List (String × Node) → List Step → String → List Site
  | [], _, _ => []
  | (key, node) :: rest, position, path =>
    node.sitesBelow (position ++ [.key key]) (childPath path key) ++
      entrySites rest position path

end

/-- The scalars that a pass visits: all below the root. -/
def sites (root : Node) : List Site :=
  if root.isScalar then [] else root.sitesBelow [] ""

end Node

/-- What a pass does with one scalar. -/
structure Visit where
  /-- The node to put in the scalar's place. -/
  replacement : Option Node
  /-- Whether the scalar waits for another one. -/
  blocked : Bool

/-- The value of an environment placeholder, a name with an optional default after a colon. -/
def variableValue (env : Environment) (path : String) (inner : List Char) :
    Except ResolutionError (List Char) :=
  let name := trim (String.ofList (inner.takeWhile (· != ':')))
  match env name, inner.dropWhile (· != ':') with
  | some value, _ => .ok value.toList
  | none, _ :: fallback => .ok fallback
  | none, [] => .error (.missingVariable name path)

/-- A text with its environment placeholders replaced. -/
def fillVariables (env : Environment) (path : String) (cs : List Char) :
    Except ResolutionError (List Char) := do
  let parts ← (pieces environmentOpening cs).mapM fun piece =>
    match piece with
    | .literal c => .ok [c]
    | .hole inner => variableValue env path inner
  return parts.flatten

/-- The node that a reference leads to, if it is there and resolved. -/
def usableTarget (tree : Node) (inner : List Char) : Option Node :=
  (tree.find (splitDots (String.ofList inner))).filter fun node => !node.isPending

/-- The text that a node leaves in the place of a reference inside a longer text. -/
def embedded : Node → List Char
  | .scalar _ text => text.toList
  | node => node.renderLiteral.toList

/-- A piece of a text with its reference replaced if it can be, and whether it could not. -/
def fillReference (tree : Node) : Piece → List Char × Bool
  | .literal c => ([c], false)
  | .hole inner =>
    match usableTarget tree inner with
    | some node => (embedded node, false)
    | none => (Piece.source referenceOpening (.hole inner), true)

/-- The visit of a scalar whose references are filled in as far as possible: it is evaluated if
it is an expression and nothing blocks it. -/
def settle (tree : Node) (path text current : String) (blocked : Bool) :
    Except ResolutionError Visit :=
  let keep (blocked : Bool) : Visit :=
    ⟨if current = text then none else some (.plain current), blocked⟩
  if !blocked && looksLikeExpression current then
    match Expr.evaluate tree current with
    | .ok value => .ok ⟨some value.toNode, false⟩
    | .error (.unresolved _) => .ok (keep true)
    | .error (.refused error) => .error (.invalidExpression path error)
  else .ok (keep blocked)

/-- The visit of one scalar. -/
def resolveScalar (env : Environment) (tree : Node) (path text : String) :
    Except ResolutionError Visit := do
  if !hasPlaceholder text && !looksLikeExpression text then
    return ⟨none, false⟩
  let current ← fillVariables env path text.toList
  match pieces referenceOpening current with
  | [.hole inner] =>
    match usableTarget tree inner with
    | some node => return ⟨some node, false⟩
    | none => settle tree path text (String.ofList current) true
  | parts =>
    let filled := parts.map (fillReference tree)
    settle tree path text (String.ofList (filled.flatMap (·.1))) (filled.any (·.2))

/-- A tree in the middle of a pass, and what the pass has met so far. -/
structure PassState where
  tree : Node
  changed : Bool
  blocked : List String

/-- Visits one scalar of the tree. -/
def visitSite (env : Environment) (state : PassState) (site : Site) :
    Except ResolutionError PassState := do
  let visit ← resolveScalar env state.tree site.path site.text
  let blocked := if visit.blocked then state.blocked ++ [site.path] else state.blocked
  match visit.replacement with
  | some node => return ⟨state.tree.set node site.position, true, blocked⟩
  | none => return ⟨state.tree, state.changed, blocked⟩

/-- One pass over a tree. -/
def runPass (env : Environment) (tree : Node) : Except ResolutionError PassState :=
  tree.sites.foldlM (visitSite env) ⟨tree, false, []⟩

/-- The outcome of a resolution, and how many passes it took. -/
structure Resolution where
  outcome : Except ResolutionError Node
  passes : Nat

/-- Repeats passes, at most `left` more after `done` of them. -/
def runPasses (env : Environment) (allowed : Int) :
    Nat → Nat → Node → List String → Resolution
  | 0, done, _, blocked => ⟨.error (.exhausted allowed blocked), done⟩
  | left + 1, done, tree, _ =>
    match runPass env tree with
    | .error error => ⟨.error error, done + 1⟩
    | .ok state =>
      if state.blocked.isEmpty && !state.tree.isPending then ⟨.ok state.tree, done + 1⟩
      else if !state.changed then ⟨.error (.stuck state.blocked), done + 1⟩
      else runPasses env allowed left (done + 1) state.tree state.blocked

/-- Resolves a tree in at most `allowed` passes. -/
def resolve (env : Environment) (allowed : Int) (tree : Node) : Resolution :=
  runPasses env allowed allowed.toNat 0 tree []

end EnergyPlan.Config
