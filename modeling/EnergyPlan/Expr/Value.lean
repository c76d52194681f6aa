/-
# Values of expressions

An expression evaluates to nothing, a truth value, a 64-bit integer, a double, a
string, a list, or a map from strings to values. A map keeps its keys in strict
byte order (`insertEntry` is the only way in), so two maps with the same entries
are the same map.

Truth values count as the integers 0 and 1, and integers as doubles; `equals`
compares numbers across these kinds, two integers exactly. Plain configuration
text is typed by trying integer, real and truth value in this order (`ofPlain`);
quoted text stays a string. A string goes back into a tree under the tag that
makes it final.

Key definitions: `Value`, `Value.equals`, `Value.text`, `Value.quotedText`,
`Value.ofNode`, `Value.toNode`.
-/
import EnergyPlan.Config.Pending
import EnergyPlan.Decimal.General

namespace EnergyPlan.Expr

open Config

/-- A value of the expression language. -/
inductive Value where
  | none
  | bool (b : Bool)
  | int (n : Int64)
  | real (x : Float)
  | string (s : String)
  | list (items : List Value)
  | map (entries : List (String × Value))
deriving Inhabited

namespace Value

/-- The name of a value's type in messages. -/
def typeName : Value → String
  | .none => "NoneType"
  | .bool _ => "bool"
  | .int _ => "int"
  | .real _ => "float"
  | .string _ => "str"
  | .list _ => "list"
  | .map _ => "dict"

/-- Zero, nothing and whatever is empty are false. -/
def truthy : Value → Bool
  | .none => false
  | .bool b => b
  | .int n => n != 0
  | .real x => x != 0
  | .string s => !s.isEmpty
  | .list items => !items.isEmpty
  | .map entries => !entries.isEmpty

/-- The integer that an integer or a truth value stands for. -/
def integer? : Value → Option Int64
  | .int n => some n
  | .bool b => some (if b then 1 else 0)
  | _ => Option.none

/-- The double that a number stands for. -/
def number? : Value → Option Float
  | .real x => some x
  | .int n => some (Float.ofInt n.toInt)
  | .bool b => some (if b then 1 else 0)
  | _ => Option.none

/-! ### Maps -/

/-- Puts a value at a key of a map: in place of the value there, or at the key's place in order. -/
def insertEntry (key : String) (value : Value) : List (String × Value) → List (String × Value)
  | [] => [(key, value)]
  | (k, v) :: rest =>
    if key < k then (key, value) :: (k, v) :: rest
    else if key = k then (key, value) :: rest
    else (k, v) :: insertEntry key value rest

/-! ### Text -/

mutual

/-- The literal form of a value: strings in quotes, containers entry by entry. -/
def quotedText : Value → String
  | .none => "None"
  | .bool b => if b then "True" else "False"
  | .int n => toString n.toInt
  | .real x => Decimal.shortest x
  | .string s => "'" ++ s ++ "'"
  | .list items => "[" ++ Text.join ", " (quotedItems items) ++ "]"
  | .map entries => "\x7b" ++ Text.join ", " (quotedEntries entries) ++ "\x7d"

/-- The literal forms of the items of a list. -/
def quotedItems : List Value → List String
  | [] => []
  | v :: rest => v.quotedText :: quotedItems rest

/-- The entries of a map in literal form. -/
def quotedEntries : List (String × Value) → List String
  | [] => []
  | (key, v) :: rest => ("'" ++ key ++ "': " ++ v.quotedText) :: quotedEntries rest

end

/-- The text of a value: a string as it is, any other value in literal form. -/
def text : Value → String
  | .string s => s
  | v => v.quotedText

/-! ### Equality -/

/-- Whether two numbers are equal: integers exactly, else as doubles. Other values are not. -/
def sameNumber (a b : Value) : Bool :=
  match a.integer?, b.integer? with
  | some m, some n => m == n
  | _, _ =>
    match a.number?, b.number? with
    | some x, some y => x == y
    | _, _ => false

mutual

/-- The equality of the expression language. -/
def equals : Value → Value → Bool
  | .none, .none => true
  | .string s, .string t => s == t
  | .list xs, .list ys => equalItems xs ys
  | .map xs, .map ys => equalEntries xs ys
  | a, b => sameNumber a b

/-- Whether two lists are equal item by item. -/
def equalItems : List Value → List Value → Bool
  | [], [] => true
  | x :: xs, y :: ys => x.equals y && equalItems xs ys
  | _, _ => false

/-- Whether two maps are equal entry by entry. -/
def equalEntries : List (String × Value) → List (String × Value) → Bool
  | [], [] => true
  | (j, x) :: xs, (k, y) :: ys => j == k && x.equals y && equalEntries xs ys
  | _, _ => false

end

/-! ### Configuration nodes -/

/-- The value of a plain text: an integer, a real, a truth value, or the text as a string. -/
def ofPlain (s : String) : Value :=
  match Decimal.integer s with
  | some n => .int n
  | Option.none =>
    match Decimal.real s with
    | some x => .real x
    | Option.none =>
      match Decimal.boolean s with
      | some b => .bool b
      | Option.none => .string s

/-- The value of a scalar: only plain text is typed. -/
def ofScalar (tag : Tag) (s : String) : Value :=
  if tag = .plain then ofPlain s else .string s

mutual

/-- The value of a configuration node. -/
def ofNode : Node → Value
  | .null => .none
  | .scalar tag s => ofScalar tag s
  | .sequence items => .list (ofNodes items)
  | .mapping entries => .map (ofEntries entries [])

/-- The values of a list of nodes. -/
def ofNodes : List Node → List Value
  | [] => []
  | node :: rest => ofNode node :: ofNodes rest

/-- The map of a mapping's entries, added to `found`. -/
def ofEntries : List (String × Node) → List (String × Value) → List (String × Value)
  | [], found => found
  | (key, node) :: rest, found => ofEntries rest (insertEntry key (ofNode node) found)

end

mutual

/-- The configuration node of a value; a string is tagged as one. -/
def toNode : Value → Node
  | .none => .null
  | .bool b => .plain (if b then "true" else "false")
  | .int n => .plain (toString n.toInt)
  | .real x => .plain (Decimal.shortest x)
  | .string s => .scalar .string s
  | .list items => .sequence (toNodes items)
  | .map entries => .mapping (toEntries entries)

/-- The nodes of a list of values. -/
def toNodes : List Value → List Node
  | [] => []
  | v :: rest => v.toNode :: toNodes rest

/-- The entries of a mapping node. -/
def toEntries : List (String × Value) → List (String × Node)
  | [] => []
  | (key, v) :: rest => (key, v.toNode) :: toEntries rest

end

end Value

end EnergyPlan.Expr
