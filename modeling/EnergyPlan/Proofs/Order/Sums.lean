/-
# The order of a sum does not matter

Where addition is exact, that is commutative and associative, an expression keeps for each
variable what was added up for it, or nothing if that is zero; so terms can be added in any
order, and the parts of a sum can be taken in any order. Multiplication plays no part in
this: a part is scaled before it is added.

Key definitions: `LinearExpression.kept`.
Key theorems: `getElem?_addTerm_self`, `addTerm_comm`, `ofTerms_perm`, `addScaled_comm`,
`sum_perm`.
-/
import EnergyPlan.Linear.Expression
import Mathlib.Algebra.Group.Basic

namespace EnergyPlan.LinearExpression

variable {R : Type} [AddCommMonoid R]

/-- Constants can be added in any order. -/
theorem addConstant_comm (e : LinearExpression R) (a b : R) :
    (e.addConstant a).addConstant b = (e.addConstant b).addConstant a := by
  simp only [addConstant, add_right_comm]

variable [BEq R]

/-- What an expression keeps of a coefficient: nothing if it is zero. -/
def kept (c : R) : Option R := if c == 0 then none else some c

theorem constant_addTerm (e : LinearExpression R) (v : VariableRef) (c : R) :
    (e.addTerm v c).constant = e.constant := by
  unfold addTerm
  split
  · rfl
  · split
    · rfl
    · dsimp only
      split <;> rfl

/-- A term can be added before or after a constant. -/
theorem addTerm_addConstant (e : LinearExpression R) (a : R) (v : VariableRef) (c : R) :
    (e.addConstant a).addTerm v c = (e.addTerm v c).addConstant a := by
  by_cases hc : (c == 0) = true
  · simp only [addTerm, hc, if_true]
  · cases h : e.terms[v]? with
    | none => simp [addTerm, addConstant, hc, h]
    | some x =>
      by_cases hs : (x + c == 0) = true
      · simp [addTerm, addConstant, hc, h, hs]
      · simp [addTerm, addConstant, hc, h, hs]

theorem addTerms_addConstant (e : LinearExpression R) (a : R) (terms : List (VariableRef × R)) :
    (e.addConstant a).addTerms terms = (e.addTerms terms).addConstant a := by
  induction terms generalizing e with
  | nil => rfl
  | cons t rest ih =>
    show ((e.addConstant a).addTerm t.1 t.2).addTerms rest = _
    rw [addTerm_addConstant, ih]
    rfl

variable [LawfulBEq R]

theorem addTerm_zero (e : LinearExpression R) (v : VariableRef) : e.addTerm v 0 = e := by
  rw [addTerm, if_pos (beq_iff_eq.2 rfl)]

/-- A variable keeps what was added up for it. -/
theorem getElem?_addTerm_self (e : LinearExpression R) (v : VariableRef) {c : R} (hc : c ≠ 0) :
    (e.addTerm v c).terms[v]? = kept (e.coefficient v + c) := by
  rw [addTerm, if_neg (mt beq_iff_eq.1 hc), coefficient, kept]
  cases e.terms[v]? with
  | none =>
    have hs : ¬ ((none : Option R).getD 0 + c == 0) = true := by
      rw [Option.getD_none, zero_add, beq_iff_eq]
      exact hc
    rw [if_neg hs, Option.getD_none, zero_add]
    exact Std.ExtTreeMap.getElem?_insert_self
  | some x =>
    dsimp only [Option.getD_some]
    split
    · exact Std.ExtTreeMap.getElem?_erase_self
    · exact Std.ExtTreeMap.getElem?_insert_self

theorem coefficient_addTerm_self (e : LinearExpression R) (v : VariableRef) (c : R) :
    (e.addTerm v c).coefficient v = e.coefficient v + c := by
  by_cases hc : c = 0
  · rw [hc, addTerm_zero, add_zero]
  · rw [coefficient, getElem?_addTerm_self e v hc, kept]
    split
    · next h => exact (beq_iff_eq.1 h).symm
    · rfl

/-- Two terms can be added in either order: a variable that is in one of them keeps what it
gets from it, and one that is in both keeps the same sum. -/
theorem addTerm_comm (e : LinearExpression R) (v w : VariableRef) (a b : R) :
    (e.addTerm v a).addTerm w b = (e.addTerm w b).addTerm v a := by
  by_cases ha : a = 0
  · rw [ha, addTerm_zero, addTerm_zero]
  by_cases hb : b = 0
  · rw [hb, addTerm_zero, addTerm_zero]
  have hterms : ((e.addTerm v a).addTerm w b).terms = ((e.addTerm w b).addTerm v a).terms := by
    refine Std.ExtTreeMap.ext_getElem? fun u => ?_
    by_cases hv : v = u
    · by_cases hw : w = u
      · subst hv
        subst hw
        rw [getElem?_addTerm_self _ _ ha, getElem?_addTerm_self _ _ hb,
          coefficient_addTerm_self, coefficient_addTerm_self, add_right_comm]
      · subst hv
        rw [getElem?_addTerm_of_ne _ b hw, getElem?_addTerm_self _ _ ha,
          getElem?_addTerm_self _ _ ha, coefficient_addTerm_of_ne e b hw]
    · by_cases hw : w = u
      · subst hw
        rw [getElem?_addTerm_of_ne _ a hv, getElem?_addTerm_self _ _ hb,
          getElem?_addTerm_self _ _ hb, coefficient_addTerm_of_ne e a hv]
      · rw [getElem?_addTerm_of_ne _ a hv, getElem?_addTerm_of_ne _ b hw,
          getElem?_addTerm_of_ne _ b hw, getElem?_addTerm_of_ne _ a hv]
  have hconstant : ((e.addTerm v a).addTerm w b).constant =
      ((e.addTerm w b).addTerm v a).constant := by
    simp only [constant_addTerm]
  calc (e.addTerm v a).addTerm w b
      = ⟨((e.addTerm v a).addTerm w b).terms, ((e.addTerm v a).addTerm w b).constant⟩ := rfl
    _ = ⟨((e.addTerm w b).addTerm v a).terms, ((e.addTerm w b).addTerm v a).constant⟩ := by
      rw [hterms, hconstant]
    _ = (e.addTerm w b).addTerm v a := rfl

/-! ### Lists of terms and of parts -/

/-- Terms can be added in any order. -/
theorem addTerms_perm {terms terms' : List (VariableRef × R)} (h : terms.Perm terms')
    (e : LinearExpression R) : e.addTerms terms = e.addTerms terms' :=
  h.foldl_eq' (fun s _ t _ e => addTerm_comm e s.1 t.1 s.2 t.2) e

theorem ofTerms_perm {terms terms' : List (VariableRef × R)} (h : terms.Perm terms') :
    ofTerms terms = ofTerms terms' :=
  addTerms_perm h 0

theorem addTerms_comm (e : LinearExpression R) (terms terms' : List (VariableRef × R)) :
    (e.addTerms terms).addTerms terms' = (e.addTerms terms').addTerms terms := by
  calc (e.addTerms terms).addTerms terms'
      = e.addTerms (terms ++ terms') := List.foldl_append.symm
    _ = e.addTerms (terms' ++ terms) := addTerms_perm List.perm_append_comm e
    _ = (e.addTerms terms').addTerms terms := List.foldl_append

variable [Mul R]

/-- Multiples of two expressions can be added in either order. -/
theorem addScaled_comm (e p q : LinearExpression R) (a b : R) :
    (e.addScaled p a).addScaled q b = (e.addScaled q b).addScaled p a := by
  unfold addScaled
  rw [addTerms_addConstant, addTerms_addConstant, addTerms_comm, addConstant_comm]

/-- The parts of a sum can be taken in any order. -/
theorem sum_perm {parts parts' : List (LinearExpression R × R)} (h : parts.Perm parts') :
    sum parts = sum parts' :=
  h.foldl_eq' (fun p _ q _ e => addScaled_comm e p.1 q.1 p.2 q.2) 0

end EnergyPlan.LinearExpression
