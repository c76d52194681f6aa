/-
# The tokens of an expression

The text of an expression is read from left to right into numbers, strings in
quotes of either kind, names and operator signs; blanks only separate. A number
takes in a point, further digits and a complete exponent. In a string a backslash
makes the next byte stand for itself. Every token keeps the byte offset at which
it starts.

Key definitions: `Lexeme`, `Token`, `tokenize`.
Key theorems: `numberText_prefix`, `scanToken_pos`.
-/
import EnergyPlan.Expr.Error

namespace EnergyPlan.Expr

/-- What a token is. -/
inductive Lexeme where
  | number (text : String)
  | string (text : String)
  | name (text : String)
  | op (text : String)
deriving DecidableEq, Repr

namespace Lexeme

/-- The text of a token as messages show it. -/
def text : Lexeme → String
  | .number text => text
  | .string text => text
  | .name text => text
  | .op text => text

end Lexeme

/-- A token and the byte offset at which it starts. -/
structure Token where
  lexeme : Lexeme
  position : Nat
deriving DecidableEq, Repr

/-- A letter or an underscore, which start a name. -/
def startsName (c : Char) : Bool := c.isAlpha || c = '_'

/-- A letter, a digit or an underscore, which continue a name. -/
def continuesName (c : Char) : Bool := c.isAlphanum || c = '_'

/-- The sign at the front of a text, if there is one. -/
def signPart : List Char → List Char
  | '+' :: _ => ['+']
  | '-' :: _ => ['-']
  | _ => []

/-- A complete exponent at the front of a text: `e`, an optional sign and digits. An incomplete one
is not taken. -/
def exponentPart : List Char → List Char
  | e :: rest =>
    let sign := signPart rest
    let digits := (rest.drop sign.length).takeWhile Char.isDigit
    if (e = 'e' ∨ e = 'E') ∧ digits ≠ [] then e :: sign ++ digits else []
  | [] => []

/-- The point and the digits after it at the front of a text. -/
def fractionPart : List Char → List Char
  | '.' :: rest => '.' :: rest.takeWhile Char.isDigit
  | _ => []

/-- The number at the front of a text that starts with a digit. -/
def numberText (cs : List Char) : List Char :=
  let whole := cs.takeWhile Char.isDigit
  let rest := cs.dropWhile Char.isDigit
  let fraction := fractionPart rest
  whole ++ fraction ++ exponentPart (rest.drop fraction.length)

/-- The text of a string up to its closing quote, and the count of bytes up to and with it. -/
def stringText (quote : Char) : List Char → Option (List Char × Nat)
  | [] => none
  | '\\' :: c :: cs => (stringText quote cs).map fun (text, taken) => (c :: text, taken + 2)
  | c :: cs =>
    if c = quote then some ([], 1)
    else (stringText quote cs).map fun (text, taken) => (c :: text, taken + 1)

/-- The operator signs of two bytes. -/
def doubleSigns : List (List Char) :=
  [['*', '*'], ['/', '/'], ['=', '='], ['!', '='], ['<', '='], ['>', '=']]

/-- The operator signs of one byte. -/
def singleSigns : List Char :=
  ['+', '-', '*', '/', '%', '^', '(', ')', '[', ']', '\x7b', '\x7d', ',', ':', '.', '<', '>']

/-- The operator sign at the front of a text. -/
def sign? (cs : List Char) : Option (List Char) :=
  if cs.take 2 ∈ doubleSigns then some (cs.take 2)
  else
    match cs with
    | c :: _ => if c ∈ singleSigns then some [c] else none
    | [] => none

/-- The token at the front of a text that is not blank there, and the count of bytes it takes. -/
def scanToken (position : Nat) (c : Char) (cs : List Char) :
    Except ExpressionError (Lexeme × Nat) :=
  if c.isDigit then
    let text := numberText (c :: cs)
    .ok (.number (String.ofList text), text.length)
  else if startsName c then
    let text := (c :: cs).takeWhile continuesName
    .ok (.name (String.ofList text), text.length)
  else if c = '\x27' ∨ c = '\x22' then
    match stringText c cs with
    | some (text, taken) => .ok (.string (String.ofList text), taken + 1)
    | none => .error (.unterminatedString position)
  else
    match sign? (c :: cs) with
    | some sign => .ok (.op (String.ofList sign), sign.length)
    | none => .error (.unexpectedCharacter c position)

/-- The tokens of the end of a text that starts at an offset. Every token takes at least one byte
(`scanToken_pos`), so the count of bytes left bounds the count of steps. -/
def tokensFrom : Nat → Nat → List Char → Except ExpressionError (List Token)
  | 0, _, _ => .ok []
  | steps + 1, offset, cs =>
    match cs.dropWhile Text.isBlank with
    | [] => .ok []
    | c :: rest => do
      let position := offset + (cs.takeWhile Text.isBlank).length
      let (lexeme, taken) ← scanToken position c rest
      return ⟨lexeme, position⟩ :: (← tokensFrom steps (position + taken) ((c :: rest).drop taken))

/-- The tokens of an expression. -/
def tokenize (s : String) : Except ExpressionError (List Token) :=
  let cs := s.toList
  tokensFrom cs.length 0 cs

/-! ### What the scanning functions take -/

theorem signPart_prefix (cs : List Char) : signPart cs <+: cs := by
  unfold signPart
  split
  · exact List.cons_prefix_cons.2 ⟨rfl, List.nil_prefix⟩
  · exact List.cons_prefix_cons.2 ⟨rfl, List.nil_prefix⟩
  · exact List.nil_prefix

theorem exponentPart_prefix (cs : List Char) : exponentPart cs <+: cs := by
  cases cs with
  | nil => exact List.nil_prefix
  | cons e rest =>
    obtain ⟨tail, ht⟩ := signPart_prefix rest
    have hd : rest.drop (signPart rest).length = tail := by
      conv => lhs; arg 2; rw [← ht]
      exact List.drop_left
    unfold exponentPart
    dsimp only
    rw [hd]
    split
    · conv => rhs; rw [← ht]
      exact (List.prefix_append_right_inj (e :: signPart rest)).2 (List.takeWhile_prefix _)
    · exact List.nil_prefix

theorem fractionPart_prefix (cs : List Char) : fractionPart cs <+: cs := by
  unfold fractionPart
  split
  · exact List.cons_prefix_cons.2 ⟨rfl, List.takeWhile_prefix _⟩
  · exact List.nil_prefix

/-- The text of a number is the front of what it is read from. -/
theorem numberText_prefix (cs : List Char) : numberText cs <+: cs := by
  obtain ⟨tail, ht⟩ := fractionPart_prefix (cs.dropWhile Char.isDigit)
  have hd : (cs.dropWhile Char.isDigit).drop (fractionPart (cs.dropWhile Char.isDigit)).length =
      tail := by
    conv => lhs; arg 2; rw [← ht]
    exact List.drop_left
  unfold numberText
  dsimp only
  rw [hd]
  conv => rhs; rw [← List.takeWhile_append_dropWhile (p := Char.isDigit) (l := cs), ← ht]
  rw [List.append_assoc]
  refine (List.prefix_append_right_inj _).2 ((List.prefix_append_right_inj _).2 ?_)
  exact exponentPart_prefix tail

/-- Every token takes at least one byte. -/
theorem scanToken_pos {position : Nat} {c : Char} {cs : List Char} {lexeme : Lexeme} {taken : Nat}
    (h : scanToken position c cs = .ok (lexeme, taken)) : 0 < taken := by
  unfold scanToken at h
  dsimp only at h
  split at h
  · next hc =>
    cases h
    simp [numberText, hc]
  · split at h
    · next hc =>
      cases h
      have : continuesName c = true := by
        simp only [startsName, continuesName, Char.isAlphanum, Bool.or_eq_true] at hc ⊢
        exact hc.imp_left Or.inl
      simp [this]
    · split at h
      · split at h
        · cases h; omega
        · cases h
      · split at h
        · next sign hs =>
          cases h
          unfold sign? at hs
          split at hs
          · cases hs; simp
          · dsimp only at hs
            split at hs
            · cases hs; simp
            · cases hs
        · cases h

end EnergyPlan.Expr
