/-
# What can go wrong in an expression

An expression is refused for its form (`SyntaxProblem`, at a byte offset) or for
the values it is applied to, and then the refusal names their types. A name that
the configuration does not hold, or holds only as a scalar still to be resolved,
is a failure of its own kind: another resolution pass may mend it.

Key definitions: `SyntaxProblem`, `ExpressionError`, `EvalError`.
-/
import EnergyPlan.Expr.Value

namespace EnergyPlan.Expr

/-- Why the text of an expression cannot be read. -/
inductive SyntaxProblem where
  | expected (sign : String)
  | elseMissing
  | attributeMissing
  | targetMissing
  | inMissing
  | setDisplay
  | badNumber (text : String)
  | unexpected (text : String)
  | unexpectedKeyword (name : String)
  | notCallable (name : String)
  | endReached
  | tooDeep
deriving DecidableEq, Repr

namespace SyntaxProblem

/-- What is reported for the form of an expression, without the offset. -/
def message : SyntaxProblem → String
  | .expected sign => "expected '" ++ sign ++ "'"
  | .elseMissing => "expected 'else' in conditional expression"
  | .attributeMissing => "expected attribute name"
  | .targetMissing => "expected loop variable"
  | .inMissing => "expected 'in' in comprehension"
  | .setDisplay => "set displays are not supported; expected ':'"
  | .badNumber text => "invalid number '" ++ text ++ "'"
  | .unexpected text => "unexpected '" ++ text ++ "'"
  | .unexpectedKeyword name => "unexpected keyword '" ++ name ++ "'"
  | .notCallable name => "call to '" ++ name ++ "' is not allowed"
  | .endReached => "unexpected end of expression"
  | .tooDeep => "expression is nested too deeply"

end SyntaxProblem

/-- Why an expression is refused. -/
inductive ExpressionError where
  | unterminatedString (start : Nat)
  | unexpectedCharacter (c : Char) (offset : Nat)
  | badForm (problem : SyntaxProblem) (offset : Nat)
  | wrongType (wanted found : String)
  | notInteger (typeName text : String)
  | notRepresentable (x : Float)
  | overflow
  | zeroToNegative
  | unsupportedOperands (op left right : String)
  | divisionByZero
  | integerDivisionByZero
  | realDivisionByZero
  | badOperand (op typeName : String)
  | notOrdered (op left right : String)
  | notIterable (typeName : String)
  | notContainer (typeName : String)
  | notStringMember
  | listIndex
  | stringIndex
  | keyNotFound (text : String)
  | notSubscriptable (typeName : String)
  | emptyArgument (function : String)
  | noArgument (function : String)
  | argumentCount (function : String) (least most given : Nat)
  | rangeArgument (typeName : String)
  | rangeStepZero
  | rangeTooLong (length : Nat)
  | badIntegerText (text : String)
  | badRealText (text : String)
  | unpackCount (parts targets : Nat)
  | notCalled (function : String)
deriving Repr

/-- The most items that `range` produces. -/
def maxRangeLength : Nat := 10000000

namespace ExpressionError

/-- What is reported for a refused expression. -/
def message : ExpressionError → String
  | .unterminatedString start => s!"unterminated string starting at offset {start}"
  | .unexpectedCharacter c offset =>
    "unexpected character '" ++ String.ofList [c] ++ s!"' at offset {offset}"
  | .badForm problem offset => problem.message ++ s!" at offset {offset}"
  | .wrongType wanted found => "expected " ++ wanted ++ ", got " ++ found
  | .notInteger typeName text => "expected integer, got " ++ typeName ++ " " ++ text
  | .notRepresentable x => "cannot convert " ++ Decimal.shortest x ++ " to integer"
  | .overflow => "integer overflow"
  | .zeroToNegative => "zero cannot be raised to a negative power"
  | .unsupportedOperands op left right =>
    "unsupported operand types for " ++ op ++ ": '" ++ left ++ "' and '" ++ right ++ "'"
  | .divisionByZero => "division by zero"
  | .integerDivisionByZero => "integer division or modulo by zero"
  | .realDivisionByZero => "float division or modulo by zero"
  | .badOperand op typeName => "bad operand type for unary " ++ op ++ ": '" ++ typeName ++ "'"
  | .notOrdered op left right =>
    "'" ++ op ++ "' not supported between '" ++ left ++ "' and '" ++ right ++ "'"
  | .notIterable typeName => "'" ++ typeName ++ "' object is not iterable"
  | .notContainer typeName => "argument of type '" ++ typeName ++ "' is not iterable"
  | .notStringMember => "'in <string>' requires string as left operand"
  | .listIndex => "list index out of range"
  | .stringIndex => "string index out of range"
  | .keyNotFound text => "key " ++ text ++ " not found"
  | .notSubscriptable typeName => "'" ++ typeName ++ "' object is not subscriptable"
  | .emptyArgument function => function ++ "() arg is an empty sequence"
  | .noArgument function => function ++ "() expected at least 1 argument"
  | .argumentCount function least most given =>
    function ++ s!"() takes {least}" ++ (if least = most then "" else s!" to {most}") ++
      s!" arguments ({given} given)"
  | .rangeArgument typeName => "range() arguments must be integers, got " ++ typeName
  | .rangeStepZero => "range() arg 3 must not be zero"
  | .rangeTooLong length =>
    s!"range() would produce {length} items, more than the limit of {maxRangeLength}"
  | .badIntegerText text => "invalid literal for int(): " ++ text
  | .badRealText text => "could not convert string to float: " ++ text
  | .unpackCount parts targets => s!"cannot unpack {parts} values into {targets} targets"
  | .notCalled function => "builtin '" ++ function ++ "' must be called"

end ExpressionError

/-- Why a name of an expression has no value yet. -/
inductive Unresolved where
  /-- The configuration holds no node at the path. -/
  | unknown (path : String)
  /-- The node at the path still needs resolution. -/
  | pending (path : String)
deriving DecidableEq, Repr

namespace Unresolved

/-- The path of the name. -/
def path : Unresolved → String
  | .unknown path => path
  | .pending path => path

/-- What is reported for a name without a value. -/
def message : Unresolved → String
  | .unknown path => "Unknown name in expression [" ++ path ++ "]"
  | .pending path => "Name in expression is not resolved yet [" ++ path ++ "]"

end Unresolved

/-- Why an expression has no value: it is refused, or a name is not resolved. -/
inductive EvalError where
  | refused (error : ExpressionError)
  | unresolved (name : Unresolved)
deriving Repr

/-- The outcome of one step of evaluation. -/
abbrev Eval (α : Type) := Except EvalError α

/-- Refuses the expression. -/
def refuse {α : Type} (error : ExpressionError) : Eval α := .error (.refused error)

end EnergyPlan.Expr
