/-
# Compiler options

The options of a compilation stand under the key `compiler` of the configuration
and are taken out of it when they are read. An option that is not given keeps its
default. A number may have blanks behind it and none before it; a whole number may
be written in base eight, ten or sixteen, another number as a literal or as a word for
an infinity or for no number. A truth value is one of several words, with no blanks.

Key definitions: `Options`, `readOptions`.
-/
import EnergyPlan.Config.Node
import EnergyPlan.Decimal.Numeral
import EnergyPlan.Scalar

namespace EnergyPlan.Config

/-- What a compilation may be told. -/
structure Options (R : Type) where
  /-- The most passes that resolving references may take. -/
  maxPasses : Int
  /-- How far a sum that should be one may be from it. -/
  sumTolerance : R
  /-- The constant that switches a growth limit off. -/
  bigM : R
  /-- Whether progress is reported. -/
  verbose : Bool

/-- Why options cannot be read. -/
inductive OptionsError where
  | badConversion
  | tooFewPasses
deriving DecidableEq, Repr

namespace OptionsError

/-- What is reported for an option that cannot be read. -/
def message : OptionsError → String
  | .badConversion => "Invalid compiler options: bad conversion"
  | .tooFewPasses => "Invalid compiler options: max_resolution_passes must be at least 1"

end OptionsError

/-- The options when nothing is given: 32 passes, a millionth, a million, and silence. -/
def Options.standard {R : Type} [One R] [Div R] [Scalar R] : Options R :=
  ⟨32, 1 / Scalar.ofInt 1000000, Scalar.ofInt 1000000, false⟩

/-- The words for true and those for false. -/
def truthWords : List (String × Bool) :=
  [("y", true), ("yes", true), ("true", true), ("on", true),
    ("n", false), ("no", false), ("false", false), ("off", false)]

/-- A word in its lower-case, upper-case and capitalised spelling. -/
def spellings (word : String) : List String :=
  [word, String.ofList (word.toList.map Char.toUpper),
    String.ofList ((word.toList.take 1).map Char.toUpper ++ word.toList.drop 1)]

/-- The truth value that an option writes. -/
def truthOption (text : String) : Option Bool :=
  (truthWords.find? fun entry => text ∈ spellings entry.1).map (·.2)

/-- The 32-bit integer that an option writes before any blanks. -/
def integerOption (text : String) : Option Int :=
  (Decimal.Numeral.read (Text.trimEndChars text.toList)).filter fun n =>
    decide (Decimal.minInt32 ≤ n ∧ n ≤ Decimal.maxInt32)

/-- An option of the section, or its default if the section has no such key. -/
def optionValue {α : Type} (read : String → Option α) (block : Node) (key : String)
    (standard : α) : Except OptionsError α :=
  match block.entry? key with
  | none => .ok standard
  | some node =>
    match node.text?.bind read with
    | some value => .ok value
    | none => .error .badConversion

/-- The options of a section over their defaults. -/
def sectionOptions {R : Type} [Scalar R] (defaults : Options R) (block : Node) :
    Except OptionsError (Options R) := do
  let maxPasses ← optionValue integerOption block "max_resolution_passes" defaults.maxPasses
  let sumTolerance ← optionValue Scalar.ofOption block "sum_tolerance" defaults.sumTolerance
  let bigM ← optionValue Scalar.ofOption block "big_m" defaults.bigM
  let verbose ← optionValue truthOption block "verbose" defaults.verbose
  if maxPasses < 1 then throw .tooFewPasses
  return ⟨maxPasses, sumTolerance, bigM, verbose⟩

/-- The options of a configuration, and the configuration without them. -/
def readOptions {R : Type} [Scalar R] (defaults : Options R) (root : Node) :
    Except OptionsError (Options R × Node) :=
  match root.entry? "compiler" with
  | none => .ok (defaults, root)
  | some block => do
    let options ← sectionOptions defaults block
    return (options, .mapping (root.entries.filter fun e => e.1 != "compiler"))

end EnergyPlan.Config
