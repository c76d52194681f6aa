/-
# The functions an expression may call

`range` lists the integers `start + i * step` before `stop`, at most ten million
of them; their count is taken modulo 2 ^ 64, and the list is built step by step
(`Word`). `sum` adds from 0 or a given start. `min` and `max` take one container
or several values and keep the first of equals. `round` takes halves to the even
neighbour. `zip` stops with its shortest argument.

Key definitions: `rangeLength`, `rangeFrom`, `callFunction`.
-/
import EnergyPlan.Expr.Operators

namespace EnergyPlan.Expr

open Decimal

/-- How far `high` lies above `low`, as a number without a sign. -/
def distance (low high : Int64) : UInt64 := high.toUInt64 - low.toUInt64

/-- How many of `start, start + step, …` lie before `stop`; `step` is not zero. -/
def rangeLength (start stop step : Int64) : UInt64 :=
  if 0 < step ∧ start < stop then (distance start stop - 1) / step.toUInt64 + 1
  else if step < 0 ∧ stop < start then (distance stop start - 1) / (0 - step.toUInt64) + 1
  else 0

/-- `count` integers from `value` on by `step`, behind those found before (the last first). No step
is taken behind the last. -/
def rangeFrom (step : Int) (count : Nat) (value : Int) (found : List Value) :
    Except Halt (List Value) :=
  match count with
  | 0 => .ok found.reverse
  | 1 => .ok (.int (Int64.ofInt value) :: found).reverse
  | more + 2 =>
    match Word.step (value + step) with
    | .ok next => rangeFrom step (more + 1) next (.int (Int64.ofInt value) :: found)
    | .error halt => .error halt

/-- The integers from `start` by `step` that lie before `stop`. -/
def rangeItems (start stop step : Int64) : Eval Value :=
  if step = 0 then refuse .rangeStepZero
  else
    let length := (rangeLength start stop step).toNat
    if maxRangeLength < length then refuse (.rangeTooLong length)
    else
      match rangeFrom step.toInt length start.toInt [] with
      | .ok items => .ok (.list items)
      | .error _ => refuse .overflow

/-- Refuses a call with too few or too many arguments. -/
def countArguments (f : Function) (least most : Nat) (args : List Value) : Eval Unit :=
  if args.length < least ∨ most < args.length then
    refuse (.argumentCount f.name least most args.length)
  else .ok ()

/-- An argument of `range`: an integer or a truth value. -/
def rangeArgument (v : Value) : Eval Int64 :=
  match v.integer? with
  | some n => .ok n
  | none => refuse (.rangeArgument v.typeName)

/-- The first of the items that no other item is before. -/
def extremum (f : Function) (before : CompareOp) (items : List Value) : Eval Value :=
  match items with
  | [] => refuse (.emptyArgument f.name)
  | first :: rest =>
    rest.foldlM (fun best item => do return if ← compareValues before item best then item else best)
      first

/-- `min` and `max`: of the items of a single argument, else of the arguments. -/
def callExtremum (f : Function) (before : CompareOp) (args : List Value) : Eval Value :=
  match args with
  | [] => refuse (.noArgument f.name)
  | [container] => do extremum f before (← iterate container)
  | _ => extremum f before args

/-- The rows of several lists, as many as the shortest list has items. -/
def zipRows : List (List Value) → List (List Value)
  | [] => []
  | [column] => column.map fun v => [v]
  | column :: rest => List.zipWith (· :: ·) column (zipRows rest)

/-- The value of the argument at a position; a missing one is nothing. -/
def argument (args : List Value) (position : Nat) : Value :=
  args.getD position .none

/-- `range` of one to three arguments. -/
def callRange (args : List Value) : Eval Value := do
  countArguments .range 1 3 args
  match ← args.mapM rangeArgument with
  | [stop] => rangeItems 0 stop 1
  | [start, stop] => rangeItems start stop 1
  | start :: stop :: step :: _ => rangeItems start stop step
  | [] => .ok (.list [])

/-- `round` to a whole number, or to a count of decimals. -/
def callRound (args : List Value) : Eval Value := do
  countArguments .round 1 2 args
  let v := argument args 0
  match args with
  | [_] => return .int (← integral (roundHalfEven (← v.asReal)))
  | _ => do
    let places ← (argument args 1).asInt
    let scale := Float.pow 10 (Float.ofInt places.toInt)
    return .real (roundHalfEven ((← v.asReal) * scale) / scale)

/-- A call of a function. -/
def callFunction (f : Function) (args : List Value) : Eval Value :=
  let v := argument args 0
  match f with
  | .range => callRange args
  | .sum => do
    countArguments f 1 2 args
    let items ← iterate v
    items.foldlM (arithmetic .add) (args.getD 1 (.int 0))
  | .min => callExtremum f .less args
  | .max => callExtremum f .greater args
  | .len => do
    countArguments f 1 1 args
    match v with
    | .string s => exactInt s.length
    | .map entries => exactInt entries.length
    | _ => exactInt (← v.asList).length
  | .abs => do
    countArguments f 1 1 args
    match v.integer? with
    | some n => wholeResult (Word.absolute n.toInt)
    | none => return .real (← v.asReal).abs
  | .round => callRound args
  | .int => do
    countArguments f 1 1 args
    match v with
    | .string s =>
      match integer s with
      | some n => .ok (.int n)
      | none => refuse (.badIntegerText v.quotedText)
    | _ => return .int (← integral (← v.asReal))
  | .float => do
    countArguments f 1 1 args
    match v with
    | .string s =>
      match real s with
      | some x => .ok (.real x)
      | none => refuse (.badRealText v.quotedText)
    | _ => return .real (← v.asReal)
  | .str => do
    countArguments f 1 1 args
    return .string v.text
  | .zip => do
    let columns ← args.mapM iterate
    return .list ((zipRows columns).map .list)

end EnergyPlan.Expr
