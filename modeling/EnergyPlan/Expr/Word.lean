/-
# Integer arithmetic step by step

The arithmetic of a machine has results of 64 bits only. An operation on integers is
made of such steps, and looks before it takes one whether the result will fit: for a
sum by comparing one operand with what the other leaves of the range, for a product
with a quotient. A power is a product of squares of its base, none of which is taken
before a bit of the exponent asks for it. Where the result does not fit the operation
ends with `overflow`; a step that was taken and has no result of 64 bits would end it
with `escaped`.

Key definitions: `Halt`, `Word.step`, `Word.add`, `Word.multiply`, `Word.floorDivide`,
`Word.power`.
-/
import EnergyPlan.Decimal.Literal

namespace EnergyPlan.Expr

open Decimal

/-- Why an operation on integers ends without a result. -/
inductive Halt where
  /-- It found that its result does not fit in 64 bits. -/
  | overflow
  /-- It took a step whose result does not fit, or divided by zero. -/
  | escaped
deriving DecidableEq, Repr

/-- The outcome of steps on integers of 64 bits. -/
abbrev Word := Except Halt Int

namespace Word

/-- Whether an integer fits in 64 bits. -/
def Fits (n : Int) : Prop := minInt64 ≤ n ∧ n ≤ maxInt64

instance (n : Int) : Decidable (Fits n) := inferInstanceAs (Decidable (_ ∧ _))

/-! ### Steps -/

/-- A step with the exact result `n`. -/
def step (n : Int) : Word := if Fits n then .ok n else .error .escaped

/-- The quotient, rounded toward zero. -/
def quotient (a b : Int) : Word := if b = 0 then .error .escaped else step (a.tdiv b)

/-- The remainder to the quotient rounded toward zero. It is there only if that quotient is. -/
def remainder (a b : Int) : Word := do
  let _ ← quotient a b
  step (a.tmod b)

/-! ### Operations -/

/-- A step that is taken unless its result leaves the range. -/
def unlessLeaving (leaves : Except Halt Bool) (n : Int) : Word := do
  if ← leaves then .error .overflow else step n

/-- `-a`. -/
def negate (a : Int) : Word := if a = minInt64 then .error .overflow else step (-a)

/-- `|a|`. -/
def absolute (a : Int) : Word := if a < 0 then negate a else .ok a

/-- Whether `a + b` leaves the range. -/
def sumLeaves (a b : Int) : Except Halt Bool :=
  if 0 < b then do return decide ((← step (maxInt64 - b)) < a)
  else if b < 0 then do return decide (a < (← step (minInt64 - b)))
  else .ok false

/-- `a + b`. -/
def add (a b : Int) : Word := unlessLeaving (sumLeaves a b) (a + b)

/-- Whether `a - b` leaves the range. -/
def differenceLeaves (a b : Int) : Except Halt Bool :=
  if b < 0 then do return decide ((← step (maxInt64 + b)) < a)
  else if 0 < b then do return decide (a < (← step (minInt64 + b)))
  else .ok false

/-- `a - b`. -/
def subtract (a b : Int) : Word := unlessLeaving (differenceLeaves a b) (a - b)

/-- Whether `a * b` leaves the range; neither operand is 0 or -1. -/
def productLeaves (a b : Int) : Except Halt Bool :=
  if 0 < a then
    if 0 < b then do return decide ((← quotient maxInt64 b) < a)
    else do return decide (b < (← quotient minInt64 a))
  else
    if 0 < b then do return decide (a < (← quotient minInt64 b))
    else do return decide (a < (← quotient maxInt64 b))

/-- `a * b`. -/
def multiply (a b : Int) : Word :=
  if a = 0 ∨ b = 0 then .ok 0
  else if a = -1 then negate b
  else if b = -1 then negate a
  else unlessLeaving (productLeaves a b) (a * b)

/-- The quotient, rounded toward minus infinity. -/
def floorDivide (a b : Int) : Word :=
  if a = minInt64 ∧ b = -1 then .error .overflow
  else do
    let q ← quotient a b
    let r ← remainder a b
    if r ≠ 0 ∧ (a < 0) ≠ (b < 0) then step (q - 1) else .ok q

/-- The remainder to the quotient rounded toward minus infinity. -/
def floorModulo (a b : Int) : Word :=
  if b = -1 then .ok 0
  else do
    let r ← remainder a b
    if r ≠ 0 ∧ (r < 0) ≠ (b < 0) then step (r + b) else .ok r

/-- `result * base` if the last bit of the exponent is set, and `result` otherwise. -/
def multiplyBit (result base : Int) (exponent : Nat) : Word :=
  if exponent % 2 = 1 then multiply result base else .ok result

/-- `result * base ^ exponent`, bit by bit of the exponent; the base is squared only while bits are
left. -/
def powerFrom (result base : Int) (exponent : Nat) : Word :=
  if exponent = 0 then .ok result
  else do
    let next ← multiplyBit result base exponent
    if exponent / 2 = 0 then .ok next
    else
      let square ← multiply base base
      powerFrom next square (exponent / 2)
termination_by exponent

/-- `base ^ exponent`. -/
def power (base : Int) (exponent : Nat) : Word := powerFrom 1 base exponent

end Word

end EnergyPlan.Expr
