/-
# Operators on values

Integer arithmetic is done in steps of 64 bits (`Word`): a result that does not fit
refuses the expression. A quotient of integers by `/` is a double; `//` and `%` round
toward minus infinity, on integers and on doubles. `+` also joins strings and lists.
Ordering compares numbers as doubles and strings by their bytes.

Iterating a map yields its keys, typed like plain text. Subscripts of lists and
strings count from the end when negative; a map is subscripted by the text of the
index.

Key definitions: `exactInt`, `wholeResult`, `arithmetic`, `compareValues`,
`subscript`, `iterate`.
Key theorems: `exactInt_eq_ok_iff`.
-/
import EnergyPlan.Expr.Error
import EnergyPlan.Expr.Term
import EnergyPlan.Expr.Word

namespace EnergyPlan.Expr

open Decimal

/-- An integer result, refused if it does not fit in 64 bits. -/
def exactInt (n : Int) : Eval Value :=
  match int64? n with
  | some k => .ok (.int k)
  | none => refuse .overflow

/-- The value that steps on integers lead to; without a result the expression is refused. -/
def wholeResult : Word → Eval Value
  | .ok n => .ok (.int (Int64.ofInt n))
  | .error _ => refuse .overflow

/-- The integer part of a whole or cut double, refused if it does not fit in 64 bits. -/
def integral (x : Float) : Eval Int64 :=
  match (truncated? x).bind int64? with
  | some k => .ok k
  | none => refuse (.notRepresentable x)

namespace Value

/-- The integer that a value stands for: an integer, a truth value or a whole double. -/
def asInt (v : Value) : Eval Int64 :=
  match v with
  | .int n => .ok n
  | .bool b => .ok (if b then 1 else 0)
  | .real x =>
    match decode x with
    | .notANumber => refuse (.notInteger v.typeName v.quotedText)
    | .infinite _ => refuse (.notRepresentable x)
    | .finite .. =>
      if (whole? x).isSome then integral x else refuse (.notInteger v.typeName v.quotedText)
  | _ => refuse (.notInteger v.typeName v.quotedText)

/-- The double that a value stands for. -/
def asReal (v : Value) : Eval Float :=
  match v.number? with
  | some x => .ok x
  | Option.none => refuse (.wrongType "number" v.typeName)

/-- The truth value that a value is. -/
def asBool : Value → Eval Bool
  | .bool b => .ok b
  | v => refuse (.wrongType "bool" v.typeName)

/-- The string that a value is. -/
def asString : Value → Eval String
  | .string s => .ok s
  | v => refuse (.wrongType "str" v.typeName)

/-- The list that a value is. -/
def asList : Value → Eval (List Value)
  | .list items => .ok items
  | v => refuse (.wrongType "list" v.typeName)

/-- The map that a value is. -/
def asMap : Value → Eval (List (String × Value))
  | .map entries => .ok entries
  | v => refuse (.wrongType "dict" v.typeName)

end Value

/-- The items that iterating a value yields: of a list its items, of a map its keys typed like
plain text, of a string its bytes. -/
def iterate : Value → Eval (List Value)
  | .list items => .ok items
  | .map entries => .ok (entries.map fun e => Value.ofPlain e.1)
  | .string s => .ok (s.toList.map fun c => .string (String.ofList [c]))
  | v => refuse (.notIterable v.typeName)

/-! ### Arithmetic -/

/-- A value to the power of another: exact for integers and an exponent that is not negative. -/
def power (a b : Value) (x y : Float) : Eval Value :=
  let onReals : Eval Value :=
    if x == 0 && y < 0 then refuse .zeroToNegative else .ok (.real (Float.pow x y))
  match a.integer?, b.integer? with
  | some m, some n =>
    if 0 ≤ n.toInt then wholeResult (Word.power m.toInt n.toInt.toNat) else onReals
  | _, _ => onReals

/-- The arithmetic operators on two integers, except `/` and powers. -/
def integerArithmetic (op : BinaryOp) (m n : Int) : Eval Value :=
  match op with
  | .add => wholeResult (Word.add m n)
  | .subtract => wholeResult (Word.subtract m n)
  | .multiply => wholeResult (Word.multiply m n)
  | .floorDivide =>
    if n = 0 then refuse .integerDivisionByZero else wholeResult (Word.floorDivide m n)
  | _ => if n = 0 then refuse .integerDivisionByZero else wholeResult (Word.floorModulo m n)

/-- The arithmetic operators on two doubles, except `/` and powers. -/
def realArithmetic (op : BinaryOp) (x y : Float) : Eval Value :=
  match op with
  | .add => .ok (.real (x + y))
  | .subtract => .ok (.real (x - y))
  | .multiply => .ok (.real (x * y))
  | .floorDivide => if y == 0 then refuse .realDivisionByZero else .ok (.real (floor (x / y)))
  | _ => if y == 0 then refuse .realDivisionByZero else .ok (.real (x - floor (x / y) * y))

/-- The arithmetic operators on two numbers. -/
def numberArithmetic (op : BinaryOp) (a b : Value) (x y : Float) : Eval Value :=
  match op with
  | .power | .caret => power a b x y
  | .divide => if y == 0 then refuse .divisionByZero else .ok (.real (x / y))
  | _ =>
    match a.integer?, b.integer? with
    | some m, some n => integerArithmetic op m.toInt n.toInt
    | _, _ => realArithmetic op x y

/-- An arithmetic operator applied to two values. -/
def arithmetic (op : BinaryOp) (a b : Value) : Eval Value :=
  match op, a, b with
  | .add, .string s, .string t => .ok (.string (s ++ t))
  | .add, .list xs, .list ys => .ok (.list (xs ++ ys))
  | _, _, _ =>
    match a.number?, b.number? with
    | some x, some y => numberArithmetic op a b x y
    | _, _ => refuse (.unsupportedOperands op.symbol a.typeName b.typeName)

/-- A unary operator applied to a value. -/
def unaryOperation (op : UnaryOp) (v : Value) : Eval Value :=
  match op with
  | .not => .ok (.bool !v.truthy)
  | .plus =>
    match v with
    | .real x => .ok (.real x)
    | _ =>
      match v.integer? with
      | some n => .ok (.int n)
      | none => refuse (.badOperand op.symbol v.typeName)
  | .minus =>
    match v with
    | .real x => .ok (.real (-x))
    | _ =>
      match v.integer? with
      | some n => wholeResult (Word.negate n.toInt)
      | none => refuse (.badOperand op.symbol v.typeName)

/-! ### Comparison -/

/-- Whether a container holds an item: a list an equal item, a map the item's text as a key,
a string the item as a part of it. -/
def holds (container item : Value) : Eval Bool :=
  match container with
  | .list items => .ok (items.any fun element => element.equals item)
  | .map entries => .ok (entries.any fun e => e.1 == item.text)
  | .string s =>
    match item with
    | .string part => .ok (Text.contains s part)
    | _ => refuse .notStringMember
  | v => refuse (.notContainer v.typeName)

/-- The ordering comparisons, by what they say about `less` and `greater`. -/
def orderHolds (op : CompareOp) (less greater : Bool) : Bool :=
  match op with
  | .less => less
  | .lessEqual => less || !greater
  | .greater => greater
  | _ => greater || !less

/-- An ordering comparison: numbers as doubles, strings by their bytes. -/
def orderedComparison (op : CompareOp) (a b : Value) : Eval Bool :=
  match a.number?, b.number? with
  | some x, some y => .ok (orderHolds op (decide (x < y)) (decide (y < x)))
  | _, _ =>
    match a, b with
    | .string s, .string t => .ok (orderHolds op (decide (s < t)) (decide (t < s)))
    | _, _ => refuse (.notOrdered op.symbol a.typeName b.typeName)

/-- A comparison of two values. -/
def compareValues (op : CompareOp) (a b : Value) : Eval Bool :=
  match op with
  | .equal => .ok (a.equals b)
  | .notEqual => .ok !(a.equals b)
  | .isIn => holds b a
  | .notIn => do return !(← holds b a)
  | _ => orderedComparison op a b

/-! ### Subscripts -/

/-- The place in a row of `size` that an index means: from the end if negative. -/
def place? (index : Int64) (size : Nat) : Option Nat :=
  let position := if index.toInt < 0 then index.toInt + size else index.toInt
  if 0 ≤ position ∧ position < size then some position.toNat else none

/-- The item, value or byte of a value at an index. -/
def subscript (target index : Value) : Eval Value :=
  match target with
  | .list items => do
    match (place? (← index.asInt) items.length).bind fun i => items[i]? with
    | some item => .ok item
    | none => refuse .listIndex
  | .map entries =>
    match entries.lookup index.text with
    | some value => .ok value
    | none => refuse (.keyNotFound index.quotedText)
  | .string s => do
    match (place? (← index.asInt) s.length).bind fun i => s.toList[i]? with
    | some c => .ok (.string (String.ofList [c]))
    | none => refuse .stringIndex
  | v => refuse (.notSubscriptable v.typeName)

/-- A result is exactly the integer it should be, or refused. -/
theorem exactInt_eq_ok_iff {n : Int} {v : Value} :
    exactInt n = .ok v ↔ ∃ k : Int64, v = .int k ∧ k.toInt = n := by
  unfold exactInt
  constructor
  · intro h
    cases hk : int64? n with
    | none => simp [hk, refuse] at h
    | some k =>
      simp only [hk, Except.ok.injEq] at h
      exact ⟨k, h.symm, toInt_int64 hk⟩
  · rintro ⟨k, rfl, rfl⟩
    have h1 := Int64.le_toInt k
    have h2 := Int64.toInt_lt k
    have hk : int64? k.toInt = some k := by
      unfold int64?
      rw [if_pos (by simp only [minInt64, maxInt64]; omega), Int64.ofInt_toInt]
    simp [hk]

end EnergyPlan.Expr
