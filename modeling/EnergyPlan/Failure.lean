/-
# Failures

A compilation runs through stages and stops at the first failure. A `Failure` is the
cause; a `StageFailure` adds the stage. The message of either ends before the first
NUL character of its text.

Key definitions: `Failure`, `Failure.message`, `Stage`, `StageFailure`.
-/
import EnergyPlan.Config.Options
import EnergyPlan.Config.Resolution
import EnergyPlan.Config.Source
import EnergyPlan.Fields.Align
import EnergyPlan.Model.IndexSets
import EnergyPlan.Time.Definition

namespace EnergyPlan

open Config

/-- Why something cannot be done. -/
inductive Failure where
  | load (error : LoadError)
  | options (error : OptionsError)
  | expression (error : Expr.ExpressionError)
  | unresolved (name : Expr.Unresolved)
  | resolution (error : ResolutionError)
  | broadcast (error : Fields.BroadcastError)
  | invalid (violations : List Violation)
  | unknownReference (error : UnknownReference)
  | index (error : IndexError)

/-- The part of a text before its first NUL character. -/
def beforeNul (s : String) : String := String.ofList (s.toList.takeWhile (· != '\x00'))

namespace Failure

/-- The whole text about a failure. -/
def text : Failure → String
  | load error => error.message
  | options error => error.message
  | expression error => error.message
  | unresolved name => name.message
  | resolution error => error.message
  | broadcast error => error.message
  | invalid violations => Violation.summary violations
  | unknownReference error => error.message
  | index error => error.message

/-- What is reported for a failure. -/
def message (failure : Failure) : String := beforeNul failure.text

/-- The failure of an expression. -/
def ofEval : Expr.EvalError → Failure
  | .refused error => expression error
  | .unresolved name => unresolved name

/-- The failure of a time definition. -/
def ofTime : TimeError → Failure
  | .invalid violations => invalid violations
  | .broadcast error => broadcast error

end Failure

/-- The stages of a compilation, in their order. -/
inductive Stage where
  /-- Documents are loaded and merged, and options are read. -/
  | raw
  /-- References and expressions are resolved. -/
  | referenced
  /-- The members of the dimensions are inferred and fields are expanded. -/
  | broadcast
  /-- Entities are read and checked. -/
  | validated
  /-- The index sets are derived. -/
  | indexed
  /-- The problem is put together. -/
  | compiled
deriving DecidableEq, Repr

namespace Stage

/-- The stages in the order in which they run. -/
def all : List Stage := [.raw, .referenced, .broadcast, .validated, .indexed, .compiled]

/-- How a stage is called in reports. -/
def name : Stage → String
  | .raw => "Raw"
  | .referenced => "Referenced"
  | .broadcast => "Broadcast"
  | .validated => "Validated"
  | .indexed => "Indexed"
  | .compiled => "Compiled"

end Stage

/-- A failure and the stage it happened in. -/
structure StageFailure where
  stage : Stage
  cause : Failure

/-- What is reported when a stage fails: the stage, then the cause. -/
def StageFailure.message (failure : StageFailure) : String :=
  "Stage '" ++ failure.stage.name ++ "' failed: " ++ failure.cause.message

end EnergyPlan
