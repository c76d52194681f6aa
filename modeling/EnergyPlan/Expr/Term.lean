/-
# The terms of the expression language

A term is a literal, a dotted name, an operator applied to terms, a conditional,
a subscript, a list or dict display, a comprehension with one or more clauses, or
a call of one of eleven functions. Names are resolved when the term is evaluated:
the first segment may be a variable of a comprehension.

Key definitions: `Term`, `Clause`, `BinaryOp`, `CompareOp`, `Function`.
-/
import EnergyPlan.Expr.Value

namespace EnergyPlan.Expr

/-- The operators with one operand. -/
inductive UnaryOp where
  | plus
  | minus
  | not
deriving DecidableEq, Repr

/-- The arithmetic operators; a power has two spellings. -/
inductive BinaryOp where
  | add
  | subtract
  | multiply
  | divide
  | floorDivide
  | modulo
  | power
  | caret
deriving DecidableEq, Repr

/-- The comparison operators. -/
inductive CompareOp where
  | equal
  | notEqual
  | less
  | lessEqual
  | greater
  | greaterEqual
  | isIn
  | notIn
deriving DecidableEq, Repr

/-- The functions that an expression may call. -/
inductive Function where
  | range
  | sum
  | min
  | max
  | len
  | abs
  | round
  | int
  | float
  | str
  | zip
deriving DecidableEq, Repr

namespace UnaryOp

/-- How an operator on one operand is written. -/
def symbol : UnaryOp → String
  | .plus => "+"
  | .minus => "-"
  | .not => "not"

end UnaryOp

namespace BinaryOp

/-- How an operator on two operands is written. -/
def symbol : BinaryOp → String
  | .add => "+"
  | .subtract => "-"
  | .multiply => "*"
  | .divide => "/"
  | .floorDivide => "//"
  | .modulo => "%"
  | .power => "**"
  | .caret => "^"

end BinaryOp

namespace CompareOp

/-- How a comparison is written. -/
def symbol : CompareOp → String
  | .equal => "=="
  | .notEqual => "!="
  | .less => "<"
  | .lessEqual => "<="
  | .greater => ">"
  | .greaterEqual => ">="
  | .isIn => "in"
  | .notIn => "not in"

end CompareOp

namespace Function

/-- Every function, in the order of their declaration. -/
def all : List Function := [.range, .sum, .min, .max, .len, .abs, .round, .int, .float, .str, .zip]

/-- The name under which a function is called. -/
def name : Function → String
  | .range => "range"
  | .sum => "sum"
  | .min => "min"
  | .max => "max"
  | .len => "len"
  | .abs => "abs"
  | .round => "round"
  | .int => "int"
  | .float => "float"
  | .str => "str"
  | .zip => "zip"

/-- The function of a name. -/
def ofName? (name : String) : Option Function :=
  all.find? fun f => f.name == name

theorem ofName?_name (f : Function) : ofName? f.name = some f := by
  cases f <;> decide +kernel

end Function

mutual

/-- A term of the expression language. -/
inductive Term where
  | literal (value : Value)
  | name (head : String) (rest : List String)
  | unary (op : UnaryOp) (operand : Term)
  | binary (op : BinaryOp) (left right : Term)
  | compare (first : Term) (rest : List (CompareOp × Term))
  | both (left right : Term)
  | either (left right : Term)
  | conditional (whenTrue condition whenFalse : Term)
  | call (function : Function) (args : List Term)
  | subscript (target index : Term)
  | list (elements : List Term)
  | dict (entries : List (Term × Term))
  | listOver (value : Term) (clauses : List Clause)
  | dictOver (key value : Term) (clauses : List Clause)

/-- One `for` clause of a comprehension: targets, what they run over, and conditions. -/
inductive Clause where
  | mk (targets : List String) (iterable : Term) (conditions : List Term)

end

end EnergyPlan.Expr
