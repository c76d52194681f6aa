/-
# Evaluation on a stack of frames

An expression is evaluated on a stack of frames, the innermost first. A comprehension
puts an empty frame on the stack, in which its clauses give their targets values over
and over, and takes it off again at the end; a value given by an inner clause stays in
the frame until the clause runs again, also while an outer one goes on. Operands and
parts of terms are evaluated in the order of `Term.eval`, on the stack that the ones
before have left.

Key definitions: `Run`, `Term.run`, `runLoops`, `evaluate`.
-/
import EnergyPlan.Expr.Eval

namespace EnergyPlan.Expr

/-- Steps of evaluation, which may read and change the stack of frames. -/
abbrev Run (α : Type) := StateT (List Frame) (Except EvalError) α

/-- Binds the targets of a clause to an element, in the innermost frame. -/
def bindInnermost (targets : List String) (element : Value) : Run Unit := fun frames => do
  let frame ← bindTargets (frames.headD []) targets element
  return ((), frame :: frames.tail)

mutual

/-- Evaluates a term. -/
def Term.run (root : Config.Node) : Term → Run Value
  | .literal value => return value
  | .name head rest => do (Scope.mk root (← get)).nameValue head rest
  | .unary op operand => do unaryOperation op (← operand.run root)
  | .binary op left right => do
    let a ← left.run root
    let b ← right.run root
    arithmetic op a b
  | .compare first rest => do
    let v ← first.run root
    return .bool (← runChain root rest v)
  | .both left right => do
    let v ← left.run root
    if v.truthy then right.run root else return v
  | .either left right => do
    let v ← left.run root
    if v.truthy then return v else right.run root
  | .conditional whenTrue condition whenFalse => do
    let v ← condition.run root
    if v.truthy then whenTrue.run root else whenFalse.run root
  | .call function args => do callFunction function (← runAll root args)
  | .subscript target index => do
    let v ← target.run root
    let i ← index.run root
    subscript v i
  | .list elements => return .list (← runAll root elements)
  | .dict entries => return .map (← runEntries root entries [])
  | .listOver value clauses => do
    modify ([] :: ·)
    let items ← runLoops root clauses [] fun items => return (← value.run root) :: items
    modify List.tail
    return .list items.reverse
  | .dictOver key value clauses => do
    modify ([] :: ·)
    let entries ← runLoops root clauses [] fun entries => do
      let k ← key.run root
      return Value.insertEntry k.text (← value.run root) entries
    modify List.tail
    return .map entries

/-- Evaluates several terms in turn. -/
def runAll (root : Config.Node) : List Term → Run (List Value)
  | [] => return []
  | term :: rest => do
    let v ← term.run root
    return v :: (← runAll root rest)

/-- Evaluates the entries of a dict display and adds them to `found`; a later entry wins. -/
def runEntries (root : Config.Node) :
    List (Term × Term) → List (String × Value) → Run (List (String × Value))
  | [], found => return found
  | (key, value) :: rest, found => do
    let v ← value.run root
    let k ← key.run root
    runEntries root rest (Value.insertEntry k.text v found)

/-- Evaluates the links of a chain of comparisons, up to the first that does not hold. -/
def runChain (root : Config.Node) : List (CompareOp × Term) → Value → Run Bool
  | [], _ => return true
  | (op, term) :: rest, left => do
    let right ← term.run root
    if ← compareValues op left right then runChain root rest right else return false

/-- Evaluates the conditions of a clause, up to the first that does not accept. -/
def runConditions (root : Config.Node) : List Term → Run Bool
  | [] => return true
  | condition :: rest => do
    let v ← condition.run root
    if v.truthy then runConditions root rest else return false

/-- Runs the clauses as nested loops in the innermost frame, and `emit` for each combination that
the conditions accept. -/
def runLoops {α : Type} (root : Config.Node) : List Clause → α → (α → Run α) → Run α
  | [], found, emit => emit found
  | .mk targets iterable conditions :: rest, found, emit => do
    let v ← iterable.run root
    let elements ← iterate v
    elements.foldlM
      (fun found element => do
        bindInnermost targets element
        if ← runConditions root conditions then runLoops root rest found emit else return found)
      found

end

/-- The value of the expression that a text writes, with names looked up in a tree. -/
def evaluate (root : Config.Node) (text : String) : Eval Value :=
  match Term.read text with
  | .ok term => (term.run root).run' []
  | .error error => refuse error

end EnergyPlan.Expr
