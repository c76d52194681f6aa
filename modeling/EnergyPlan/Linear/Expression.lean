/-
# Linear expressions

A linear expression is a weighted sum of variables plus a constant. Terms on the same
variable are merged, and a term whose coefficient is or becomes zero is dropped, so
that no coefficient is zero. A variable is named by its family and its key; terms are
listed by family, then by key.

Key definitions: `VariableRef`, `LinearExpression`, `LinearExpression.addTerm`,
`LinearExpression.addScaled`, `LinearExpression.coefficient`.
Key theorems: `VariableRef.compare_eq_iff`, `getElem?_addTerm_of_ne`, `coefficient_addTerm_of_ne`.
-/
import EnergyPlan.Index.Dimension
import Std.Data.ExtTreeMap

namespace EnergyPlan

/-- The name of a variable: its family and its key there. -/
structure VariableRef where
  family : String
  key : Key
deriving DecidableEq, Repr

namespace VariableRef

instance : Ord VariableRef :=
  ⟨compareLex (compareOn VariableRef.family) (compareOn VariableRef.key)⟩

instance : Std.TransOrd VariableRef :=
  inferInstanceAs (Std.TransCmp
    (compareLex (compareOn VariableRef.family) (compareOn VariableRef.key)))

theorem compare_eq_iff {a b : VariableRef} : compare a b = .eq ↔ a = b := by
  obtain ⟨f, k⟩ := a
  obtain ⟨g, l⟩ := b
  show compareLex (compareOn VariableRef.family) (compareOn VariableRef.key) _ _ = .eq ↔ _
  simp only [compareLex_eq_eq, compareOn, Std.compare_eq_iff_eq, mk.injEq]

instance : Std.LawfulEqOrd VariableRef where
  eq_of_compare := compare_eq_iff.1

end VariableRef

/-- A weighted sum of variables plus a constant. -/
structure LinearExpression (R : Type) where
  terms : Std.ExtTreeMap VariableRef R
  constant : R

namespace LinearExpression

variable {R : Type}

/-- The expression that is a constant. -/
def ofConstant (constant : R) : LinearExpression R := ⟨∅, constant⟩

instance [Zero R] : Zero (LinearExpression R) := ⟨ofConstant 0⟩

/-- The terms by family, then by key. -/
def termList (e : LinearExpression R) : List (VariableRef × R) := e.terms.toList

/-- Whether any variable occurs. -/
def hasTerms (e : LinearExpression R) : Bool := !e.terms.isEmpty

/-- The coefficient of a variable; of one that does not occur it is zero. -/
def coefficient [Zero R] (e : LinearExpression R) (v : VariableRef) : R := (e.terms[v]?).getD 0

/-- Adds a constant. -/
def addConstant [Add R] (e : LinearExpression R) (value : R) : LinearExpression R :=
  { e with constant := e.constant + value }

variable [Zero R] [Add R] [BEq R]

/-- Adds a multiple of a variable. -/
def addTerm (e : LinearExpression R) (v : VariableRef) (coefficient : R) : LinearExpression R :=
  if coefficient == 0 then e
  else
    match e.terms[v]? with
    | none => { e with terms := e.terms.insert v coefficient }
    | some c =>
      let sum := c + coefficient
      if sum == 0 then { e with terms := e.terms.erase v }
      else { e with terms := e.terms.insert v sum }

/-- Adds a multiple of each variable of a list. -/
def addTerms (e : LinearExpression R) (terms : List (VariableRef × R)) : LinearExpression R :=
  terms.foldl (fun e (v, c) => e.addTerm v c) e

/-- Adds a multiple of another expression. -/
def addScaled [Mul R] (e other : LinearExpression R) (scale : R) : LinearExpression R :=
  (e.addTerms (other.termList.map fun (v, c) => (v, c * scale))).addConstant
    (other.constant * scale)

/-- Adds another expression. -/
def add [Mul R] [One R] (e other : LinearExpression R) : LinearExpression R :=
  e.addScaled other 1

/-- A multiple of an expression. -/
def scaled [Mul R] (e : LinearExpression R) (factor : R) : LinearExpression R :=
  addScaled 0 e factor

/-- The sum of multiples of several expressions. -/
def sum [Mul R] (parts : List (LinearExpression R × R)) : LinearExpression R :=
  parts.foldl (fun e (part, scale) => e.addScaled part scale) 0

/-- The expression with these terms and no constant. -/
def ofTerms (terms : List (VariableRef × R)) : LinearExpression R := addTerms 0 terms

/-- Adding a term leaves the terms of other variables. -/
theorem getElem?_addTerm_of_ne (e : LinearExpression R) {v w : VariableRef} (c : R)
    (h : v ≠ w) : (e.addTerm v c).terms[w]? = e.terms[w]? := by
  have hc : ¬ compare v w = .eq := fun h' => h (VariableRef.compare_eq_iff.1 h')
  unfold addTerm
  split
  · rfl
  · split
    · rw [Std.ExtTreeMap.getElem?_insert, if_neg hc]
    · dsimp only
      split
      · rw [Std.ExtTreeMap.getElem?_erase, if_neg hc]
      · rw [Std.ExtTreeMap.getElem?_insert, if_neg hc]

theorem coefficient_addTerm_of_ne (e : LinearExpression R) {v w : VariableRef} (c : R)
    (h : v ≠ w) : (e.addTerm v c).coefficient w = e.coefficient w := by
  rw [coefficient, coefficient, getElem?_addTerm_of_ne e c h]

end LinearExpression

end EnergyPlan
