/-
# The value of a term

A term has a value in a configuration tree and the variables of the
comprehensions around it. Each comprehension has one frame of variables that all
its clauses share; frames are searched from the innermost outwards. A dotted name
whose head is a variable subscripts the variable's value by the further segments;
any other name is a path into the tree, whose node has to be there and resolved.

Operands are evaluated from left to right, an entry of a dict display with its
value before its key, an entry of a dict comprehension with its key first.

Key definitions: `Frame`, `Scope`, `Term.eval`.
-/
import EnergyPlan.Expr.Builtin
import EnergyPlan.Expr.Parser

namespace EnergyPlan.Expr

open Config

/-- The variables of one comprehension. -/
abbrev Frame := List (String × Value)

/-- Gives a variable a value. -/
def Frame.assign (name : String) (value : Value) : Frame → Frame
  | [] => [(name, value)]
  | (n, v) :: rest => if n = name then (n, value) :: rest else (n, v) :: Frame.assign name value rest

/-- What names mean: the configuration tree and the frames, the innermost first. -/
structure Scope where
  root : Node
  frames : List Frame

/-- The value of a variable, from the innermost frame that has it. -/
def Scope.valueOf? (scope : Scope) (name : String) : Option Value :=
  scope.frames.findSome? fun frame => frame.lookup name

/-- The scope with a further innermost frame. -/
def Scope.push (scope : Scope) (frame : Frame) : Scope :=
  { scope with frames := frame :: scope.frames }

/-- The value of the node that a path names in the tree. -/
def lookupPath (root : Node) (path : List String) : Eval Value :=
  let shown := Text.childPaths "" path
  match root.find path with
  | none => .error (.unresolved (.unknown shown))
  | some node =>
    if node.isPending then .error (.unresolved (.pending shown)) else .ok (Value.ofNode node)

/-- The value of a dotted name. -/
def Scope.nameValue (scope : Scope) (head : String) (rest : List String) : Eval Value :=
  match scope.valueOf? head with
  | some value => rest.foldlM (fun v segment => subscript v (Value.ofPlain segment)) value
  | none =>
    if (Function.ofName? head).isSome then refuse (.notCalled head)
    else lookupPath scope.root (head :: rest)

/-- The frame with the targets of a clause bound to an element: one target to the element itself,
several to the items of a list of as many. -/
def bindTargets (frame : Frame) (targets : List String) (element : Value) : Eval Frame :=
  match targets with
  | [target] => .ok (frame.assign target element)
  | _ => do
    let parts ← element.asList
    if parts.length ≠ targets.length then
      refuse (.unpackCount parts.length targets.length)
    else
      return (targets.zip parts).foldl (fun frame (target, part) => frame.assign target part) frame

mutual

/-- The value of a term. -/
def Term.eval : Term → Scope → Eval Value
  | .literal value, _ => .ok value
  | .name head rest, scope => scope.nameValue head rest
  | .unary op operand, scope => do unaryOperation op (← operand.eval scope)
  | .binary op left right, scope => do
    let a ← left.eval scope
    let b ← right.eval scope
    arithmetic op a b
  | .compare first rest, scope => do
    let v ← first.eval scope
    return .bool (← chainHolds rest v scope)
  | .both left right, scope => do
    let v ← left.eval scope
    if v.truthy then right.eval scope else return v
  | .either left right, scope => do
    let v ← left.eval scope
    if v.truthy then return v else right.eval scope
  | .conditional whenTrue condition whenFalse, scope => do
    if (← condition.eval scope).truthy then whenTrue.eval scope else whenFalse.eval scope
  | .call function args, scope => do callFunction function (← evalAll args scope)
  | .subscript target index, scope => do
    let v ← target.eval scope
    let i ← index.eval scope
    subscript v i
  | .list elements, scope => return .list (← evalAll elements scope)
  | .dict entries, scope => return .map (← evalEntries entries [] scope)
  | .listOver value clauses, scope => do
    let (_, items) ← runClauses clauses scope [] []
      fun inner (items : List Value) => return (← value.eval inner) :: items
    return .list items.reverse
  | .dictOver key value clauses, scope => do
    let (_, entries) ← runClauses clauses scope [] []
      fun inner entries => do
        let k ← key.eval inner
        return Value.insertEntry k.text (← value.eval inner) entries
    return .map entries

/-- The values of several terms. -/
def evalAll : List Term → Scope → Eval (List Value)
  | [], _ => .ok []
  | term :: rest, scope => do
    let v ← term.eval scope
    return v :: (← evalAll rest scope)

/-- The entries of a dict display, added to `found`; a later entry wins. -/
def evalEntries :
    List (Term × Term) → List (String × Value) → Scope → Eval (List (String × Value))
  | [], found, _ => .ok found
  | (key, value) :: rest, found, scope => do
    let v ← value.eval scope
    let k ← key.eval scope
    evalEntries rest (Value.insertEntry k.text v found) scope

/-- Whether each link of a chain of comparisons holds, up to the first that does not. -/
def chainHolds : List (CompareOp × Term) → Value → Scope → Eval Bool
  | [], _, _ => .ok true
  | (op, term) :: rest, left, scope => do
    let right ← term.eval scope
    if ← compareValues op left right then chainHolds rest right scope else return false

/-- Whether every condition of a clause accepts, up to the first that does not. -/
def allAccept : List Term → Scope → Eval Bool
  | [], _ => .ok true
  | condition :: rest, scope => do
    if (← condition.eval scope).truthy then allAccept rest scope else return false

/-- Runs the clauses as nested loops in a frame that they share, and `emit` for each combination
that the conditions accept. -/
def runClauses {α : Type} : List Clause → Scope → Frame → α → (Scope → α → Eval α) →
    Eval (Frame × α)
  | [], scope, frame, found, emit => return (frame, ← emit (scope.push frame) found)
  | .mk targets iterable conditions :: rest, scope, frame, found, emit => do
    let elements ← iterate (← iterable.eval (scope.push frame))
    elements.foldlM
      (fun (frame, found) element => do
        let frame ← bindTargets frame targets element
        if ← allAccept conditions (scope.push frame) then runClauses rest scope frame found emit
        else return (frame, found))
      (frame, found)

end

end EnergyPlan.Expr
