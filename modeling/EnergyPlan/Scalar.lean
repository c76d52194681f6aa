/-
# The numbers a model is computed with

A model is read, checked and compiled with numbers of any type that has the
arithmetic operations and a comparison; they are taken as they are, without laws,
so that floating-point numbers qualify. `Scalar` adds what is not arithmetic: how
a number is read from configuration text, which integer it is, how a message shows
it, and powers with whole and half-odd exponents for discounting.

Key definitions: `Scalar`.
-/
import EnergyPlan.Decimal.General

namespace EnergyPlan

/-- What a number type offers beyond arithmetic and comparison. -/
class Scalar (R : Type) where
  /-- The number equal to an integer. -/
  ofInt : Int → R
  /-- The number that a configuration text writes. -/
  ofText : String → Option R
  /-- The number that a compiler option writes, with no blanks before it. -/
  ofOption : String → Option R
  /-- The integer that a number is, if it is one. -/
  whole? : R → Option Int
  /-- The text that messages show for a number. -/
  brief : R → String
  /-- `power b n` is `b` to the power `n`. -/
  power : R → Int → R
  /-- `powerMid b n` is `b` to the power `n + 1/2`. -/
  powerMid : R → Int → R

/-- Doubles, with the powers of the floating-point library. -/
instance : Scalar Float where
  ofInt := Float.ofInt
  ofText := Decimal.real
  ofOption := Decimal.extended
  whole? := Decimal.whole?
  brief := Decimal.brief
  power b n := Float.pow b (Float.ofInt n)
  powerMid b n := Float.pow b (Float.ofInt n + 0.5)

/-- The distance of a number from zero. -/
def magnitude {R : Type} [Zero R] [Neg R] [LT R] [DecidableLT R] (x : R) : R :=
  if x < 0 then -x else x

end EnergyPlan
