/-
# The variables of a linear expression

An expression is over a class of variables if every variable with a term is in it.
All ways to build an expression keep the class: terms that cancel only take variables
away, and a sum has no variables but those of its parts.

Key definitions: `LinearExpression.Over`.
Key theorems: `Over.addTerms`, `Over.addScaled`, `Over.sum`, `Constraint.over_of`.
-/
import EnergyPlan.Linear.Problem

namespace EnergyPlan

variable {R : Type}

namespace LinearExpression

/-- Every variable with a term is in a class. -/
def Over (S : VariableRef → Prop) (e : LinearExpression R) : Prop := ∀ v, v ∈ e.terms → S v

/-- The terms of a list are on variables of a class. -/
abbrev TermsOver (S : VariableRef → Prop) (terms : List (VariableRef × R)) : Prop :=
  ∀ t ∈ terms, S t.1

variable {S : VariableRef → Prop} {e other : LinearExpression R}

theorem over_ofConstant (c : R) : (ofConstant c).Over S := fun v h => by
  simp [ofConstant] at h

theorem over_zero [Zero R] : (0 : LinearExpression R).Over S := over_ofConstant 0

/-- The terms that an expression lists are on its variables. -/
theorem Over.termList (h : e.Over S) : TermsOver S e.termList := by
  rintro ⟨v, c⟩ hv
  have hm : e.terms[v]? = some c := Std.ExtTreeMap.mem_toList_iff_getElem?_eq_some.1 hv
  exact h v (Std.ExtTreeMap.mem_iff_isSome_getElem?.2 (by rw [hm]; rfl))

theorem Over.addConstant [Add R] (h : e.Over S) (c : R) : (e.addConstant c).Over S := h

variable [Zero R] [Add R] [BEq R]

theorem Over.addTerm (h : e.Over S) {v : VariableRef} (hv : S v) (c : R) :
    (e.addTerm v c).Over S := by
  intro w hw
  unfold LinearExpression.addTerm at hw
  split at hw
  · exact h w hw
  · split at hw
    · rcases Std.ExtTreeMap.mem_insert.1 hw with he | he
      · exact VariableRef.compare_eq_iff.1 he ▸ hv
      · exact h w he
    · dsimp only at hw
      split at hw
      · exact h w (Std.ExtTreeMap.mem_erase.1 hw).2
      · rcases Std.ExtTreeMap.mem_insert.1 hw with he | he
        · exact VariableRef.compare_eq_iff.1 he ▸ hv
        · exact h w he

theorem Over.addTerms (h : e.Over S) {terms : List (VariableRef × R)} (ht : TermsOver S terms) :
    (e.addTerms terms).Over S := by
  induction terms generalizing e with
  | nil => exact h
  | cons t rest ih =>
    have hrest : TermsOver S rest := fun t' ht' => ht t' (List.mem_cons_of_mem t ht')
    exact ih (h.addTerm (ht t List.mem_cons_self) t.2) hrest

theorem over_ofTerms {terms : List (VariableRef × R)} (ht : TermsOver S terms) :
    (ofTerms terms).Over S := over_zero.addTerms ht

variable [Mul R]

theorem Over.addScaled (h : e.Over S) (ho : other.Over S) (scale : R) :
    (e.addScaled other scale).Over S := by
  refine (h.addTerms ?_).addConstant _
  intro t ht
  obtain ⟨t', ht', rfl⟩ := List.mem_map.1 ht
  exact ho.termList t' ht'

theorem Over.scaled (h : e.Over S) (factor : R) : (e.scaled factor).Over S :=
  over_zero.addScaled h factor

/-- A sum has no variables but those of its parts. -/
theorem over_sum {parts : List (LinearExpression R × R)} (h : ∀ p ∈ parts, p.1.Over S) :
    (sum parts).Over S := by
  suffices hs : ∀ e : LinearExpression R, e.Over S →
      (parts.foldl (fun e p => e.addScaled p.1 p.2) e).Over S from hs 0 over_zero
  induction parts with
  | nil => exact fun e he => he
  | cons p rest ih =>
    intro e he
    refine ih (fun q hq => h q (List.mem_cons_of_mem p hq)) _ ?_
    exact he.addScaled (h p List.mem_cons_self) p.2

end LinearExpression

open LinearExpression

/-- Moving the constant of an expression to the right leaves its variables. -/
theorem Constraint.over_of [Zero R] [Add R] [Sub R] [BEq R] {S : VariableRef → Prop}
    {e : LinearExpression R} (h : e.Over S) (index : Key) (relation : Relation) (rhs : R) :
    (Constraint.of index e relation rhs).lhs.Over S :=
  over_ofTerms h.termList

end EnergyPlan
