import EnergyPlan.Config.Merge
import EnergyPlan.Config.Node
import EnergyPlan.Config.Options
import EnergyPlan.Config.Pending
import EnergyPlan.Config.Render
import EnergyPlan.Config.Resolution
import EnergyPlan.Config.Source
import EnergyPlan.Decimal.Binary
import EnergyPlan.Decimal.General
import EnergyPlan.Decimal.Literal
import EnergyPlan.Decimal.Numeral
import EnergyPlan.Discount
import EnergyPlan.Expr.Builtin
import EnergyPlan.Expr.Error
import EnergyPlan.Expr.Eval
import EnergyPlan.Expr.Operators
import EnergyPlan.Expr.Parser
import EnergyPlan.Expr.Run
import EnergyPlan.Expr.Term
import EnergyPlan.Expr.Token
import EnergyPlan.Expr.Value
import EnergyPlan.Expr.Word
import EnergyPlan.Failure
import EnergyPlan.Fields.Align
import EnergyPlan.Fields.Broadcast
import EnergyPlan.Fields.Inference
import EnergyPlan.Fields.Reader
import EnergyPlan.Fields.Schema
import EnergyPlan.Fields.Site
import EnergyPlan.Index.Dimension
import EnergyPlan.Index.Lookup
import EnergyPlan.Index.Members
import EnergyPlan.Index.Tensor
import EnergyPlan.Linear.Expression
import EnergyPlan.Linear.Problem
import EnergyPlan.Linear.Solution
import EnergyPlan.Model.Build
import EnergyPlan.Model.Entity
import EnergyPlan.Model.Fields
import EnergyPlan.Model.IndexSets
import EnergyPlan.Model.Parsing
import EnergyPlan.Model.Rules
import EnergyPlan.Noted
import EnergyPlan.Pipeline
import EnergyPlan.Program.Activity
import EnergyPlan.Program.Capacity
import EnergyPlan.Program.Compile
import EnergyPlan.Program.Cost
import EnergyPlan.Program.Quantity
import EnergyPlan.Program.Route
import EnergyPlan.Program.Rule
import EnergyPlan.Program.Store
import EnergyPlan.Program.Target
import EnergyPlan.Program.Variables
import EnergyPlan.Proofs.Closed
import EnergyPlan.Proofs.Coefficients
import EnergyPlan.Proofs.Compiled
import EnergyPlan.Proofs.Conservation
import EnergyPlan.Proofs.Defaults
import EnergyPlan.Proofs.Expansion
import EnergyPlan.Proofs.Idempotence
import EnergyPlan.Proofs.Levels
import EnergyPlan.Proofs.Order.Outcome
import EnergyPlan.Proofs.Resolution.FixedPoint
import EnergyPlan.Proofs.Resolution.Standing
import EnergyPlan.Proofs.Shares
import EnergyPlan.Proofs.Shorthand.Outcome
import EnergyPlan.Scalar
import EnergyPlan.Text.Basic
import EnergyPlan.Text.Placeholder
import EnergyPlan.Time.Definition
import EnergyPlan.Time.Part
import EnergyPlan.Time.Structure
import EnergyPlan.Violation
import EnergyPlan.Proofs.Alignment
import EnergyPlan.Proofs.Referential
import EnergyPlan.Proofs.Composition
import EnergyPlan.Proofs.Reported
import EnergyPlan.Proofs.Syntax.Levels
import EnergyPlan.Proofs.Syntax.Loops
import EnergyPlan.Proofs.Syntax.Recovery
import EnergyPlan.Proofs.Objective
import EnergyPlan.Proofs.Identity
import EnergyPlan.Proofs.Resolution.Values
import EnergyPlan.Proofs.Resolution.Visits
import EnergyPlan.Proofs.Resolution.Splicing
import EnergyPlan.Proofs.Resolution.Unresolved
import EnergyPlan.Proofs.Doubles
import EnergyPlan.Proofs.Syntax.Writing
import EnergyPlan.Proofs.Signed
import EnergyPlan.Proofs.Syntax.Denoting
import EnergyPlan.Proofs.Embedded
import EnergyPlan.Proofs.Vintages
import EnergyPlan.Proofs.Growth
import EnergyPlan.Proofs.Parts
import EnergyPlan.Proofs.DailyBalance
import EnergyPlan.Proofs.Syntax.Paths
import EnergyPlan.Proofs.Integers
import EnergyPlan.Proofs.Loops.Nested
import EnergyPlan.Proofs.Resolution.Typed
import EnergyPlan.Proofs.Rearranged
import EnergyPlan.Proofs.Timeslices
import EnergyPlan.Proofs.InPlace
import EnergyPlan.Proofs.Nesting
import EnergyPlan.Proofs.Affine
import EnergyPlan.Proofs.Validation
import EnergyPlan.Proofs.Reading
import EnergyPlan.Proofs.Mirroring
import EnergyPlan.Proofs.Merging
import EnergyPlan.Proofs.Ranges
import EnergyPlan.Proofs.Ordering
import EnergyPlan.Proofs.Iteration
import EnergyPlan.Proofs.Salvage
import EnergyPlan.Proofs.Chronology
import EnergyPlan.Proofs.InRange
import EnergyPlan.Proofs.Enumeration
