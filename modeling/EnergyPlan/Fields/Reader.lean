/-
# Reading the fields of an entity

A field of an entity is read as its declaration says: a single value is a text or a
truth value; an indexed field is a tensor with one entry for each leaf of the value.
What cannot be read is a violation at the path of the leaf, and reading goes on. A
default fills an indexed field over the declared members wherever it has no entry.

Key definitions: `Reader`, `Reader.text`, `Reader.tensor`, `Reader.fill`.
-/
import EnergyPlan.Config.Node
import EnergyPlan.Fields.Schema
import EnergyPlan.Index.Members
import EnergyPlan.Index.Tensor
import EnergyPlan.Scalar
import EnergyPlan.Violation

namespace EnergyPlan.Fields

open Config Text

/-- How one value of an indexed field is read: the value, or what is wrong with the text. -/
abbrev Conversion (α : Type) := FieldKind → String → Except String α

section

variable {R : Type} [Scalar R]

/-- A number of a field, within the limits of the field's kind. -/
def convertReal [Zero R] [One R] [LT R] [DecidableLT R] : Conversion R := fun kind text =>
  match (Scalar.ofText text : Option R) with
  | none => .error ("'" ++ text ++ "' is not a number")
  | some x =>
    if kind = .nonNegative ∧ x < 0 then .error ("must be non-negative, found " ++ text)
    else if kind = .fraction ∧ (x < 0 ∨ 1 < x) then
      .error ("must be a fraction between 0 and 1, found " ++ text)
    else .ok x

variable (R) in
/-- A whole number of a field, written as a number; it is a 32-bit integer. -/
def convertWhole : Conversion Int := fun _ text =>
  match (Scalar.ofText text : Option R).bind Scalar.whole? with
  | none => .error ("must be a whole number, found '" ++ text ++ "'")
  | some n =>
    if n < 1 then .error ("must be at least 1, found " ++ text)
    else if Decimal.maxInt32 < n then
      .error (s!"must be at most {Decimal.maxInt32}, found " ++ text)
    else .ok n

end

/-- A truth value of a field. -/
def convertFlag : Conversion Bool := fun _ text =>
  match Decimal.boolean text with
  | some b => .ok b
  | none => .error ("must be true or false, found '" ++ text ++ "'")

/-- A text of a field. -/
def convertText : Conversion String := fun _ text => .ok text

/-- What the fields of one entity are read from. -/
structure Reader where
  entity : Node
  kind : EntityKind
  path : String
  sets : MemberSets

namespace Reader

/-- The declaration of a field of the entity. -/
def spec (reader : Reader) (name : String) : FieldSpec :=
  (reader.kind.field? name).getD (.free name [] .text)

/-- The path of a field. -/
def fieldPath (reader : Reader) (name : String) : String := childPath reader.path name

/-- Reads a single value: its text, the default, or nothing. -/
def text (reader : Reader) (name : String) : Reading String := do
  match reader.entity.given? name with
  | none =>
    let spec := reader.spec name
    Reading.reportIf spec.required (reader.fieldPath name) "is required"
    return spec.standard.getD ""
  | some value =>
    match value.text? with
    | some text => return text
    | none =>
      Reading.report (reader.fieldPath name) "must be a single value"
      return ""

/-- Reads a single truth value. -/
def flag (reader : Reader) (name : String) : Reading Bool := do
  let text ← reader.text name
  match Decimal.boolean text with
  | some b => return b
  | none =>
    Reading.reportIf (!text.isEmpty) (reader.fieldPath name)
      ("must be true or false, found '" ++ text ++ "'")
    return false

/-- The entry of an indexed field that a leaf of its value writes, or what is wrong with it. -/
def leafValue {α : Type} (convert : Conversion α) (spec : FieldSpec) (key : Key) (leaf : Node) :
    Except String α :=
  if key.length ≠ spec.dimensions.length then
    .error ("expected a value indexed by " ++ Dimension.listText spec.dimensions)
  else
    match leaf.text? with
    | none => .error "must be a single value"
    | some text => convert spec.kind text

/-- Puts the entry that a leaf writes into a tensor. -/
def readLeaf {α : Type} (convert : Conversion α) (spec : FieldSpec) (path : String)
    (tensor : Tensor α) (leaf : Key × Node) : Reading (Tensor α) := do
  match leafValue convert spec leaf.1 leaf.2 with
  | .ok value => return tensor.insert leaf.1 value
  | .error problem =>
    Reading.report (childPaths path leaf.1) problem
    return tensor

/-- Reads the entries of an indexed field. -/
def tensor {α : Type} (reader : Reader) (convert : Conversion α) (name : String) :
    Reading (Tensor α) := do
  let spec := reader.spec name
  let path := reader.fieldPath name
  match reader.entity.given? name with
  | none =>
    Reading.reportIf spec.required path "is required"
    return .empty spec.dimensions
  | some value =>
    (value.leaves spec.dimensions.length).foldlM (readLeaf convert spec path)
      (.empty spec.dimensions)

/-- The tensor with a value under every given key that had none. -/
def insertAbsent {α : Type} (tensor : Tensor α) (value : α) (keys : List Key) : Tensor α :=
  keys.foldl (fun tensor key => tensor.insertNew key value) tensor

/-- Fills an indexed field with its default, over all declared members. -/
def fill {α : Type} (reader : Reader) (convert : Conversion α) (name : String)
    (tensor : Tensor α) : Tensor α :=
  let spec := reader.spec name
  match spec.standard.map (convert spec.kind) with
  | some (.ok value) => insertAbsent tensor value (reader.sets.product spec.dimensions)
  | _ => tensor

/-- Reads an indexed field and fills it with its default. -/
def filled {α : Type} (reader : Reader) (convert : Conversion α) (name : String) :
    Reading (Tensor α) :=
  reader.fill convert name <$> reader.tensor convert name

/-- Reports the keys of the entity that are no fields of its kind. -/
def rejectUnknown (reader : Reader) (extra : List String) : Reading Unit :=
  reader.entity.entries.forM fun (key, _) =>
    Reading.reportIf
      (!(extra.contains key || (reader.kind.field? key).isSome)) (reader.fieldPath key)
      ("is not a known " ++ reader.kind.name ++ " field")

end Reader

end EnergyPlan.Fields
