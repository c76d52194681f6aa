/-
# Numbers as text with a given count of digits

A double is written with at most `precision` significant digits, the decimal
nearest to it (halves to the even digit), without trailing zeros. The exponent
form is used when the first digit stands before the fourth place after the point
or at a place that `precision` digits do not reach.

Results of expressions are written with the fewest digits that read back as the
same double and never look like an integer (`shortest`); messages about a number
round it to six digits (`brief`).

Key definitions: `decimalDigits`, `general`, `shortest`, `brief`.
-/
import EnergyPlan.Decimal.Binary

namespace EnergyPlan.Decimal

/-- The exponent `x` with `10 ^ x ≤ num / den < 10 ^ (x + 1)`. -/
def log10Quotient (num den : Nat) : Int :=
  let guess := log2Quotient num den * 30103 / 100000
  let reaches (k : Int) : Bool :=
    let (n, d) := scaleDown 10 num den k
    decide (d ≤ n)
  if reaches (guess + 1) then guess + 1
  else if reaches guess then guess
  else guess - 1

/-- The `precision` decimal digits nearest to `num / den`, and the exponent of the first. -/
def decimalDigits (precision num den : Nat) : Nat × Int :=
  let x := log10Quotient num den
  let (n, d) := scaleDown 10 num den (x - (precision - 1 : Nat))
  let digits := divHalfEven n d
  if digits = Nat.pow 10 precision then (Nat.pow 10 (precision - 1), x + 1) else (digits, x)

/-- A row of digits without its trailing zeros. -/
def stripZeros (cs : List Char) : List Char :=
  (cs.reverse.dropWhile (· = '0')).reverse

/-- A point and digits, or nothing if there are no digits. -/
def fraction (cs : List Char) : List Char :=
  if cs.isEmpty then [] else '.' :: cs

/-- An exponent with its sign and at least two digits. -/
def exponentText (x : Int) : List Char :=
  let digits := Nat.toDigits 10 x.natAbs
  'e' :: (if x < 0 then '-' else '+') :: (if digits.length < 2 then '0' :: digits else digits)

/-- The text of `digits`, the first standing at exponent `x`. -/
def placed (precision digits : Nat) (x : Int) : List Char :=
  let cs := Nat.toDigits 10 digits
  if x < -4 ∨ (precision : Int) ≤ x then
    cs.take 1 ++ fraction (stripZeros (cs.drop 1)) ++ exponentText x
  else if x < 0 then
    '0' :: fraction (List.replicate (-x - 1).toNat '0' ++ stripZeros cs)
  else
    cs.take (x.toNat + 1) ++ fraction (stripZeros (cs.drop (x.toNat + 1)))

/-- A finite double as the quotient of its magnitude. -/
def magnitude (mantissa : Nat) (exponent : Int) : Nat × Nat :=
  scaleDown 2 mantissa 1 (-exponent)

/-- A double with at most `precision` significant digits. -/
def general (precision : Nat) (x : Float) : String :=
  match decode x with
  | .notANumber => "nan"
  | .infinite negative => if negative then "-inf" else "inf"
  | .finite negative m e =>
    let body :=
      if m = 0 then ['0']
      else
        let (num, den) := magnitude m e
        let (digits, x) := decimalDigits precision num den
        placed precision digits x
    String.ofList (if negative then '-' :: body else body)

/-- Whether `precision` digits of a magnitude read back as the same double. -/
def readsBack (precision m : Nat) (e : Int) : Bool :=
  let (num, den) := magnitude m e
  let (digits, x) := decimalDigits precision num den
  let literal : Literal := ⟨false, digits, x - (precision - 1 : Nat)⟩
  literal.round.1 == (roundQuotient num den).1

/-- The fewest digits, up to 17, that read back as the same double. -/
def enoughDigits (x : Float) : Nat :=
  match decode x with
  | .finite _ m e =>
    if m = 0 then 1
    else ((List.range 16).find? fun p => readsBack (p + 1) m e).elim 17 (· + 1)
  | _ => 1

/-- The fewest digits that read back as the same double; an integral value keeps `.0`. -/
def shortest (x : Float) : String :=
  let text := general (enoughDigits x) x
  if text.toList.any fun c => c = '.' || c = 'e' || c = 'n' then text else text ++ ".0"

/-- A number as messages show it: six significant digits. -/
def brief (x : Float) : String :=
  general 6 x

end EnergyPlan.Decimal
