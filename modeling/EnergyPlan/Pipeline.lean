/-
# The stages of a compilation

A configuration runs through all stages up to the optimization problem: its options
are read and taken out, references are resolved, the time structure and the members of
the dimensions are derived and fields are expanded, entities are read and checked, the
index sets are derived, and the problem is compiled. The first failure ends the run and
names its stage. Progress is reported if the options ask for it; warnings always are.

Key definitions: `Log`, `Pipeline`, `runStage`, `compileTree`, `compileFiles`.
-/
import EnergyPlan.Failure
import EnergyPlan.Fields.Inference
import EnergyPlan.Model.Build
import EnergyPlan.Program.Compile

namespace EnergyPlan

open Config Fields

/-- What a compilation reports: lines of progress, and warnings. -/
structure Log where
  progress : String := ""
  warnings : String := ""
deriving DecidableEq, Repr

/-- A step of a compilation, which reports and may fail. -/
abbrev Pipeline := ExceptT StageFailure (StateM Log)

/-- What a compilation produces. -/
structure Compilation (R : Type) where
  options : Options R
  model : EnergyModel R
  sets : IndexSets
  problem : Problem R

/-- Reports progress, if it is asked for. -/
def progress (verbose : Bool) (line : String) : Pipeline Unit :=
  if verbose then modify fun log => { log with progress := log.progress ++ line ++ "\n" }
  else pure ()

/-- Reports warnings. -/
def warn (text : String) : Pipeline Unit :=
  modify fun log => { log with warnings := log.warnings ++ text }

/-- Runs one stage. -/
def runStage {α : Type} (stage : Stage) (verbose : Bool) (outcome : Except Failure α)
    (lines : α → List String) : Pipeline α := do
  match outcome with
  | .error cause => throw ⟨stage, cause⟩
  | .ok value =>
    (lines value).forM (progress verbose)
    progress verbose ("Stage '" ++ stage.name ++ "' complete.")
    return value

/-- What the stages before a model is read derive from a configuration. -/
structure Expanded (R : Type) where
  time : TimeStructure R
  sets : MemberSets
  root : Node

section

variable {R : Type} [Zero R] [One R] [Div R] [Scalar R]

/-- The time structure, the members of the dimensions, and the expanded configuration. -/
def expandModel (root : Node) : Except Failure (Expanded R) := do
  let time ←
    (TimeStructure.ofNode ((root.entry? "time_definition").getD .null)).mapError Failure.ofTime
  let sets ← (inferSets root time).mapError Failure.broadcast
  let expanded ← (broadcastModel sets root).mapError Failure.broadcast
  return ⟨time, sets, expanded⟩

variable [Add R] [Sub R] [Mul R] [Neg R] [BEq R] [LT R] [DecidableLT R] [LE R] [DecidableLE R]

/-- The line that reports the size of a problem. -/
def sizeLine (problem : Problem R) : String :=
  s!"Compiled {problem.variableCount} variables and {problem.constraintCount} constraints in " ++
    s!"{problem.constraints.size} families"

/-- The line that reports how many passes a resolution took. -/
def passesLine (passes : Nat) : String := s!"Resolved references in {passes} passes."

/-- Compiles a configuration. -/
def compileTree (env : Environment) (defaults : Options R) (root : Node) :
    Pipeline (Compilation R) := do
  let silent {α : Type} (_ : α) : List String := []
  let (options, root) ← runStage .raw defaults.verbose
    ((readOptions defaults root).mapError Failure.options) silent
  let verbose := options.verbose
  let resolution := resolve env options.maxPasses root
  let resolved ← runStage .referenced verbose
    (resolution.outcome.mapError Failure.resolution) fun _ => [passesLine resolution.passes]
  let expanded ← runStage .broadcast verbose (expandModel resolved) silent
  let built :=
    (buildModel expanded.root expanded.time expanded.sets options.sumTolerance).mapError
      Failure.invalid
  if let .ok model := built then
    model.warnings.forM fun line => warn (line ++ "\n")
  let model ← runStage .validated verbose built silent
  let sets ← runStage .indexed verbose ((deriveSets model).mapError Failure.unknownReference)
    silent
  let problem ← runStage .compiled verbose
    ((compile model sets options.bigM).mapError Failure.index) fun problem => [sizeLine problem]
  return { options, model, sets, problem }

/-- Loads and compiles the documents of several paths. -/
def compileFiles (env : Environment) (defaults : Options R) (store : FileStore)
    (paths : List String) : Pipeline (Compilation R) := do
  let (outcome, warnings) := loadDocuments store paths
  warn warnings
  let root ← runStage .raw defaults.verbose (outcome.mapError Failure.load) fun _ => []
  compileTree env defaults root

end

end EnergyPlan
