/-
# Whole numbers in base eight, ten or sixteen

A numeral may say its base by the way it begins: `0x` or `0X` before digits in base
sixteen, a zero before digits in base eight, anything else in base ten. A sign may stand
in front. `Numeral.read` accepts a text only as a whole.

Key definitions: `Numeral.digits?`, `Numeral.magnitude?`, `Numeral.read`.
Key theorems: `Numeral.digits?_ten`, `Numeral.read_eq_readInt`.
-/
import EnergyPlan.Decimal.Literal

namespace EnergyPlan.Decimal.Numeral

/-- The value of a digit or a letter from `a` to `f`. -/
def digitValue? (c : Char) : Option Nat :=
  if '0' ≤ c ∧ c ≤ '9' then some (c.toNat - '0'.toNat)
  else if 'a' ≤ c ∧ c ≤ 'f' then some (10 + (c.toNat - 'a'.toNat))
  else if 'A' ≤ c ∧ c ≤ 'F' then some (10 + (c.toNat - 'A'.toNat))
  else none

/-- The value of a digit of a base. -/
def digit? (base : Nat) (c : Char) : Option Nat := (digitValue? c).filter (· < base)

/-- The number that digits of a base write behind those that write `n`. -/
def digitsAfter? (base : Nat) (n : Nat) (cs : List Char) : Option Nat :=
  cs.foldlM (fun n c => (digit? base c).map (n * base + ·)) n

/-- The number that a row of digits of a base writes; there is at least one. -/
def digits? (base : Nat) (cs : List Char) : Option Nat :=
  if cs.isEmpty then none else digitsAfter? base 0 cs

/-- The number that a numeral without a sign writes. -/
def magnitude? : List Char → Option Nat
  | '0' :: 'x' :: cs => digits? 16 cs
  | '0' :: 'X' :: cs => digits? 16 cs
  | '0' :: cs => digits? 8 ('0' :: cs)
  | cs => digits? 10 cs

/-- The whole number that the whole text writes. -/
def read (cs : List Char) : Option Int :=
  let (negative, body) := sign cs
  (magnitude? body).map fun (n : Nat) => if negative then -(n : Int) else n

/-! ### Base ten -/

theorem digit?_ten (c : Char) :
    digit? 10 c = if c.isDigit then some (c.toNat - '0'.toNat) else none := by
  have hd : c.isDigit = true ↔ '0' ≤ c ∧ c ≤ '9' := by
    simp [Char.isDigit, Char.le_def]
  unfold digit? digitValue?
  split
  · next h =>
    have hc : c.toNat ≤ 57 := h.2
    have hlt : c.toNat - '0'.toNat < 10 := by
      rw [show '0'.toNat = 48 from rfl]
      omega
    rw [if_pos (hd.2 h)]
    simp only [Option.filter, hlt, decide_true, if_true]
  · next h =>
    rw [if_neg fun h' => h (hd.1 h')]
    split
    · simp
    · split <;> simp

theorem digitsAfter?_ten (n : Nat) (cs : List Char) :
    digitsAfter? 10 n cs =
      if cs.all Char.isDigit then some (cs.foldl (fun n c => n * 10 + (c.toNat - '0'.toNat)) n)
      else none := by
  induction cs generalizing n with
  | nil => rfl
  | cons c cs ih =>
    have step : digitsAfter? 10 n (c :: cs) =
        ((digit? 10 c).map (n * 10 + ·)).bind fun m => digitsAfter? 10 m cs := List.foldlM_cons ..
    rw [step, digit?_ten, List.all_cons, List.foldl_cons]
    cases c.isDigit with
    | false => rfl
    | true => exact ih _

theorem digits?_ten (cs : List Char) :
    digits? 10 cs = if cs.isEmpty || !cs.all Char.isDigit then none else some (ofDigits cs) := by
  unfold digits?
  rw [digitsAfter?_ten]
  cases cs.isEmpty <;> cases cs.all Char.isDigit <;> rfl

/-- A numeral whose digits do not begin with a zero is in base ten. -/
theorem read_eq_readInt {cs : List Char} (h : (sign cs).2.head? ≠ some '0') :
    read cs = readInt cs := by
  have hm : magnitude? (sign cs).2 = digits? 10 (sign cs).2 := by
    unfold magnitude?
    split
    · next heq => exact absurd (congrArg List.head? heq) h
    · next heq => exact absurd (congrArg List.head? heq) h
    · next heq => exact absurd (congrArg List.head? heq) h
    · rfl
  unfold read readInt
  simp only [hm, digits?_ten]
  cases (sign cs).2.isEmpty || !(sign cs).2.all Char.isDigit <;> rfl

end EnergyPlan.Decimal.Numeral
