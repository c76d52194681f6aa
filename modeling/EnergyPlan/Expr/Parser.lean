/-
# Terms from tokens

One function per level of the grammar, from the loosest to the tightest binding:

    test        or_test ["if" or_test "else" test]
    or_test     and_test {"or" and_test}
    and_test    not_test {"and" not_test}
    not_test    "not" not_test | comparison
    comparison  arith {("==" | "!=" | "<" | "<=" | ">" | ">=" | "in" | "not" "in") arith}
    arith       term {("+" | "-") term}
    term        factor {("*" | "/" | "//" | "%") factor}
    factor      ("+" | "-") factor | power
    power       postfix [("**" | "^") factor]
    postfix     atom {"[" test "]" | "." (name | number)}

Each function takes the tokens left and returns a term with the tokens after it;
`stop` is the offset of the end of the text, where a problem is reported once the
tokens are used up. Between two tokens a call passes at most twelve levels, so a
budget of sixteen calls for each token is never spent.

Key definitions: `parseTest`, `Term.read`.
-/
import EnergyPlan.Expr.Token
import EnergyPlan.Expr.Term

namespace EnergyPlan.Expr

/-- The outcome of reading a part of an expression. -/
abbrev Read := Except ExpressionError

/-- A problem at the first of the tokens left, or at the end of the text. -/
def fail {α : Type} (problem : SyntaxProblem) (stop : Nat) (ts : List Token) :
    Read α :=
  .error (.badForm problem ((ts.head?.map Token.position).getD stop))

/-- The words that are no names. -/
def keywords : List String :=
  ["and", "or", "not", "in", "if", "else", "for", "True", "False", "None"]

/-- The tokens after the first, if the first is the given one. -/
def accept? (lexeme : Lexeme) : List Token → Option (List Token)
  | t :: rest => if t.lexeme = lexeme then some rest else none
  | [] => none

/-- The tokens after an operator sign that has to come first. -/
def expectOp (sign : String) (stop : Nat) (ts : List Token) :
    Except ExpressionError (List Token) :=
  match accept? (.op sign) ts with
  | some rest => .ok rest
  | none => fail (.expected sign) stop ts

/-- The first of several tokens that comes first, as what it stands for, and the tokens after it. -/
def acceptAny? {α : Type} (choices : List (Lexeme × α)) (ts : List Token) :
    Option (α × List Token) :=
  choices.findSome? fun (lexeme, meaning) => (accept? lexeme ts).map fun rest => (meaning, rest)

/-- The comparison operators of one token. -/
def comparisonSigns : List (Lexeme × CompareOp) :=
  [(.op "==", .equal), (.op "!=", .notEqual), (.op "<", .less), (.op "<=", .lessEqual),
    (.op ">", .greater), (.op ">=", .greaterEqual), (.name "in", .isIn)]

/-- The signs of sums and differences. -/
def additiveSigns : List (Lexeme × BinaryOp) := [(.op "+", .add), (.op "-", .subtract)]

/-- The signs of products and quotients. -/
def multiplicativeSigns : List (Lexeme × BinaryOp) :=
  [(.op "*", .multiply), (.op "/", .divide), (.op "//", .floorDivide), (.op "%", .modulo)]

/-- The signs that a factor may carry. -/
def unarySigns : List (Lexeme × UnaryOp) := [(.op "-", .minus), (.op "+", .plus)]

/-- The signs of powers. -/
def powerSigns : List (Lexeme × BinaryOp) := [(.op "**", .power), (.op "^", .caret)]

/-- A comparison operator at the front of the tokens. -/
def comparison? (ts : List Token) : Option (CompareOp × List Token) :=
  match acceptAny? comparisonSigns ts with
  | some found => some found
  | none =>
    ((accept? (.name "not") ts).bind (accept? (.name "in"))).map fun rest => (.notIn, rest)

/-- The further segments of a dotted name: names or numbers after points. -/
def segments : List Token → List String × List Token
  | ⟨.op ".", p⟩ :: ⟨lexeme, q⟩ :: rest =>
    match lexeme with
    | .name text | .number text =>
      let (more, ts) := segments rest
      (text :: more, ts)
    | _ => ([], ⟨.op ".", p⟩ :: ⟨lexeme, q⟩ :: rest)
  | ts => ([], ts)

/-- The loop variables of a clause, separated by commas. -/
def targetNames (stop : Nat) : List Token → Read (List String × List Token)
  | ⟨.name text, p⟩ :: rest =>
    if text ∈ keywords then fail .targetMissing stop (⟨.name text, p⟩ :: rest)
    else
      match rest with
      | ⟨.op ",", _⟩ :: more => do
        let (names, ts) ← targetNames stop more
        return (text :: names, ts)
      | _ => .ok ([text], rest)
  | ts => fail .targetMissing stop ts

/-- The loop variables of a clause, in parentheses or not. -/
def targets (stop : Nat) (ts : List Token) : Read (List String × List Token) :=
  match accept? (.op "(") ts with
  | some rest => do
    let (names, ts) ← targetNames stop rest
    return (names, ← expectOp ")" stop ts)
  | none => targetNames stop ts

/-- The literal of a number token: an integer without point and exponent that fits, else a real. -/
def numberLiteral (text : String) (stop : Nat) (ts : List Token) : Read (Term × List Token) :=
  let marked := text.toList.any fun c => c = '.' || c = 'e' || c = 'E'
  match if marked then none else Decimal.integer text with
  | some n => .ok (.literal (.int n), ts)
  | none =>
    match Decimal.real text with
    | some x => .ok (.literal (.real x), ts)
    | none => fail (.badNumber text) stop ts

/-- Whether a term is a dotted name, which has taken the points after it as its own. -/
def Term.isName : Term → Bool
  | .name .. => true
  | _ => false

mutual

/-- A conditional or what binds tighter. -/
def parseTest (stop : Nat) : Nat → List Token → Read (Term × List Token)
  | 0, ts => fail .tooDeep stop ts
  | calls + 1, ts => do
    let (value, ts) ← parseOr stop calls ts
    match accept? (.name "if") ts with
    | none => return (value, ts)
    | some ts =>
      let (condition, ts) ← parseOr stop calls ts
      match accept? (.name "else") ts with
      | none => fail .elseMissing stop ts
      | some ts =>
        let (alternative, ts) ← parseTest stop calls ts
        return (.conditional value condition alternative, ts)

/-- Terms joined by `or`. -/
def parseOr (stop : Nat) : Nat → List Token → Read (Term × List Token)
  | 0, ts => fail .tooDeep stop ts
  | calls + 1, ts => do
    let (left, ts) ← parseAnd stop calls ts
    orRest stop calls left ts

/-- The rest of terms joined by `or`. -/
def orRest (stop : Nat) : Nat → Term → List Token → Read (Term × List Token)
  | 0, _, ts => fail .tooDeep stop ts
  | calls + 1, left, ts =>
    match accept? (.name "or") ts with
    | none => .ok (left, ts)
    | some ts => do
      let (right, ts) ← parseAnd stop calls ts
      orRest stop calls (.either left right) ts

/-- Terms joined by `and`. -/
def parseAnd (stop : Nat) : Nat → List Token → Read (Term × List Token)
  | 0, ts => fail .tooDeep stop ts
  | calls + 1, ts => do
    let (left, ts) ← parseNot stop calls ts
    andRest stop calls left ts

/-- The rest of terms joined by `and`. -/
def andRest (stop : Nat) : Nat → Term → List Token → Read (Term × List Token)
  | 0, _, ts => fail .tooDeep stop ts
  | calls + 1, left, ts =>
    match accept? (.name "and") ts with
    | none => .ok (left, ts)
    | some ts => do
      let (right, ts) ← parseNot stop calls ts
      andRest stop calls (.both left right) ts

/-- A negation or a comparison. -/
def parseNot (stop : Nat) : Nat → List Token → Read (Term × List Token)
  | 0, ts => fail .tooDeep stop ts
  | calls + 1, ts =>
    match accept? (.name "not") ts with
    | none => parseComparison stop calls ts
    | some ts => do
      let (operand, ts) ← parseNot stop calls ts
      return (.unary .not operand, ts)

/-- A chain of comparisons. -/
def parseComparison (stop : Nat) : Nat → List Token → Read (Term × List Token)
  | 0, ts => fail .tooDeep stop ts
  | calls + 1, ts => do
    let (first, ts) ← parseArith stop calls ts
    let (rest, ts) ← comparisonRest stop calls ts
    return (if rest.isEmpty then first else .compare first rest, ts)

/-- The links of a chain of comparisons. -/
def comparisonRest (stop : Nat) : Nat → List Token → Read (List (CompareOp × Term) × List Token)
  | 0, ts => fail .tooDeep stop ts
  | calls + 1, ts =>
    match comparison? ts with
    | none => .ok ([], ts)
    | some (op, ts) => do
      let (right, ts) ← parseArith stop calls ts
      let (rest, ts) ← comparisonRest stop calls ts
      return ((op, right) :: rest, ts)

/-- A sum or difference. -/
def parseArith (stop : Nat) : Nat → List Token → Read (Term × List Token)
  | 0, ts => fail .tooDeep stop ts
  | calls + 1, ts => do
    let (left, ts) ← parseTerm stop calls ts
    arithRest stop calls left ts

/-- The rest of a sum or difference. -/
def arithRest (stop : Nat) : Nat → Term → List Token → Read (Term × List Token)
  | 0, _, ts => fail .tooDeep stop ts
  | calls + 1, left, ts =>
    match acceptAny? additiveSigns ts with
    | none => .ok (left, ts)
    | some (op, ts) => do
      let (right, ts) ← parseTerm stop calls ts
      arithRest stop calls (.binary op left right) ts

/-- A product or quotient. -/
def parseTerm (stop : Nat) : Nat → List Token → Read (Term × List Token)
  | 0, ts => fail .tooDeep stop ts
  | calls + 1, ts => do
    let (left, ts) ← parseFactor stop calls ts
    termRest stop calls left ts

/-- The rest of a product or quotient. -/
def termRest (stop : Nat) : Nat → Term → List Token → Read (Term × List Token)
  | 0, _, ts => fail .tooDeep stop ts
  | calls + 1, left, ts =>
    match acceptAny? multiplicativeSigns ts with
    | none => .ok (left, ts)
    | some (op, ts) => do
      let (right, ts) ← parseFactor stop calls ts
      termRest stop calls (.binary op left right) ts

/-- A signed factor or a power. -/
def parseFactor (stop : Nat) : Nat → List Token → Read (Term × List Token)
  | 0, ts => fail .tooDeep stop ts
  | calls + 1, ts =>
    match acceptAny? unarySigns ts with
    | none => parsePower stop calls ts
    | some (op, ts) => do
      let (operand, ts) ← parseFactor stop calls ts
      return (.unary op operand, ts)

/-- A power, whose exponent may carry a sign of its own. -/
def parsePower (stop : Nat) : Nat → List Token → Read (Term × List Token)
  | 0, ts => fail .tooDeep stop ts
  | calls + 1, ts => do
    let (base, ts) ← parsePostfix stop calls ts
    match acceptAny? powerSigns ts with
    | none => return (base, ts)
    | some (op, ts) =>
      let (exponent, ts) ← parseFactor stop calls ts
      return (.binary op base exponent, ts)

/-- An atom with the subscripts and attributes after it. -/
def parsePostfix (stop : Nat) : Nat → List Token → Read (Term × List Token)
  | 0, ts => fail .tooDeep stop ts
  | calls + 1, ts => do
    let (target, ts) ← parseAtom stop calls ts
    postfixRest stop calls target ts

/-- The subscripts and attributes after a term. -/
def postfixRest (stop : Nat) : Nat → Term → List Token → Read (Term × List Token)
  | 0, _, ts => fail .tooDeep stop ts
  | calls + 1, target, ts =>
    match accept? (.op "[") ts with
    | some ts => do
      let (index, ts) ← parseTest stop calls ts
      postfixRest stop calls (.subscript target index) (← expectOp "]" stop ts)
    | none =>
      match if target.isName then none else accept? (.op ".") ts with
      | none => .ok (target, ts)
      | some [] => fail .attributeMissing stop []
      | some (⟨lexeme, _⟩ :: rest) =>
        match lexeme with
        | .name text | .number text =>
          postfixRest stop calls (.subscript target (.literal (.string text))) rest
        | _ => fail .attributeMissing stop rest

/-- A literal, a name, a call, a display or a term in parentheses. -/
def parseAtom (stop : Nat) : Nat → List Token → Read (Term × List Token)
  | 0, ts => fail .tooDeep stop ts
  | _, [] => fail .endReached stop []
  | calls + 1, t :: rest =>
    match t.lexeme with
    | .number text => numberLiteral text stop rest
    | .string text => .ok (.literal (.string text), rest)
    | .name text => parseName stop calls text rest
    | .op "(" => parseParenthesis stop calls rest
    | .op "[" => parseBracket stop calls rest
    | .op "\x7b" => parseBrace stop calls rest
    | .op text => fail (.unexpected text) stop (t :: rest)

/-- What follows an opening parenthesis: a term, a row of terms or a comprehension. -/
def parseParenthesis (stop : Nat) : Nat → List Token → Read (Term × List Token)
  | 0, ts => fail .tooDeep stop ts
  | calls + 1, ts =>
    match accept? (.op ")") ts with
    | some ts => .ok (.list [], ts)
    | none => do
      let (first, ts) ← parseTest stop calls ts
      match accept? (.name "for") ts with
      | some _ =>
        let (clauses, ts) ← parseClauses stop calls ts
        return (.listOver first clauses, ← expectOp ")" stop ts)
      | none =>
        match accept? (.op ",") ts with
        | none => return (first, ← expectOp ")" stop ts)
        | some _ =>
          let (rest, ts) ← elementsRest stop calls ")" ts
          return (.list (first :: rest), ← expectOp ")" stop ts)

/-- What follows an opening bracket: the elements of a list or a comprehension. -/
def parseBracket (stop : Nat) : Nat → List Token → Read (Term × List Token)
  | 0, ts => fail .tooDeep stop ts
  | calls + 1, ts =>
    match accept? (.op "]") ts with
    | some ts => .ok (.list [], ts)
    | none => do
      let (first, ts) ← parseTest stop calls ts
      match accept? (.name "for") ts with
      | some _ =>
        let (clauses, ts) ← parseClauses stop calls ts
        return (.listOver first clauses, ← expectOp "]" stop ts)
      | none =>
        let (rest, ts) ← elementsRest stop calls "]" ts
        return (.list (first :: rest), ← expectOp "]" stop ts)

/-- What follows an opening brace: the entries of a dict or a comprehension. -/
def parseBrace (stop : Nat) : Nat → List Token → Read (Term × List Token)
  | 0, ts => fail .tooDeep stop ts
  | calls + 1, ts =>
    match accept? (.op "\x7d") ts with
    | some ts => .ok (.dict [], ts)
    | none => do
      let (key, ts) ← parseTest stop calls ts
      match accept? (.op ":") ts with
      | none => fail .setDisplay stop ts
      | some ts =>
        let (value, ts) ← parseTest stop calls ts
        match accept? (.name "for") ts with
        | some _ =>
          let (clauses, ts) ← parseClauses stop calls ts
          return (.dictOver key value clauses, ← expectOp "\x7d" stop ts)
        | none =>
          let (rest, ts) ← entriesRest stop calls ts
          return (.dict ((key, value) :: rest), ← expectOp "\x7d" stop ts)

/-- Further elements, each after a comma; a comma may stand before the closing sign. -/
def elementsRest (stop : Nat) : Nat → String → List Token → Read (List Term × List Token)
  | 0, _, ts => fail .tooDeep stop ts
  | calls + 1, closing, ts =>
    match accept? (.op ",") ts with
    | none => .ok ([], ts)
    | some ts =>
      match accept? (.op closing) ts with
      | some _ => .ok ([], ts)
      | none => do
        let (element, ts) ← parseTest stop calls ts
        let (rest, ts) ← elementsRest stop calls closing ts
        return (element :: rest, ts)

/-- Further entries of a dict, each after a comma; a comma may stand before the brace. -/
def entriesRest (stop : Nat) : Nat → List Token → Read (List (Term × Term) × List Token)
  | 0, ts => fail .tooDeep stop ts
  | calls + 1, ts =>
    match accept? (.op ",") ts with
    | none => .ok ([], ts)
    | some ts =>
      match accept? (.op "\x7d") ts with
      | some _ => .ok ([], ts)
      | none => do
        let (key, ts) ← parseTest stop calls ts
        let ts ← expectOp ":" stop ts
        let (value, ts) ← parseTest stop calls ts
        let (rest, ts) ← entriesRest stop calls ts
        return ((key, value) :: rest, ts)

/-- What a word stands for: a constant, a call or a dotted name. -/
def parseName (stop : Nat) : Nat → String → List Token → Read (Term × List Token)
  | 0, _, ts => fail .tooDeep stop ts
  | calls + 1, text, ts =>
    match text with
    | "True" => .ok (.literal (.bool true), ts)
    | "False" => .ok (.literal (.bool false), ts)
    | "None" => .ok (.literal .none, ts)
    | _ =>
      if text ∈ keywords then fail (.unexpectedKeyword text) stop ts
      else
        match accept? (.op "(") ts with
        | some rest =>
          match Function.ofName? text with
          | none => fail (.notCallable text) stop ts
          | some function => parseArguments stop calls function rest
        | none =>
          let (more, ts) := segments ts
          .ok (.name text more, ts)

/-- The arguments of a call up to the closing parenthesis; a comprehension may be the only one. -/
def parseArguments (stop : Nat) : Nat → Function → List Token → Read (Term × List Token)
  | 0, _, ts => fail .tooDeep stop ts
  | calls + 1, function, ts =>
    match accept? (.op ")") ts with
    | some ts => .ok (.call function [], ts)
    | none => do
      let (first, ts) ← parseTest stop calls ts
      match accept? (.name "for") ts with
      | some _ =>
        let (clauses, ts) ← parseClauses stop calls ts
        return (.call function [.listOver first clauses], ← expectOp ")" stop ts)
      | none =>
        let (rest, ts) ← elementsRest stop calls ")" ts
        return (.call function (first :: rest), ← expectOp ")" stop ts)

/-- The clauses of a comprehension. -/
def parseClauses (stop : Nat) : Nat → List Token → Read (List Clause × List Token)
  | 0, ts => fail .tooDeep stop ts
  | calls + 1, ts =>
    match accept? (.name "for") ts with
    | none => .ok ([], ts)
    | some ts => do
      let (names, ts) ← targets stop ts
      match accept? (.name "in") ts with
      | none => fail .inMissing stop ts
      | some ts =>
        let (iterable, ts) ← parseOr stop calls ts
        let (conditions, ts) ← parseConditions stop calls ts
        let (rest, ts) ← parseClauses stop calls ts
        return (.mk names iterable conditions :: rest, ts)

/-- The conditions of a clause. -/
def parseConditions (stop : Nat) : Nat → List Token → Read (List Term × List Token)
  | 0, ts => fail .tooDeep stop ts
  | calls + 1, ts =>
    match accept? (.name "if") ts with
    | none => .ok ([], ts)
    | some ts => do
      let (condition, ts) ← parseOr stop calls ts
      let (rest, ts) ← parseConditions stop calls ts
      return (condition :: rest, ts)

end

/-- The budget of calls for reading a row of tokens. -/
def callBudget (ts : List Token) : Nat := 16 * (ts.length + 2)

/-- The term that a row of tokens writes as a whole. -/
def parseAll (stop : Nat) (ts : List Token) : Except ExpressionError Term := do
  let (term, rest) ← parseTest stop (callBudget ts) ts
  match rest with
  | [] => return term
  | t :: _ => fail (.unexpected t.lexeme.text) stop rest

/-- The term that a text writes. -/
def Term.read (s : String) : Except ExpressionError Term := do
  parseAll s.length (← tokenize s)

end EnergyPlan.Expr
