/-
# What a variable counts for in an expression

With exact arithmetic an expression is determined by what it adds up: the coefficient of a
variable is the sum of what the terms on it contribute, in whatever way the expression is put
together from terms, multiples and sums; and under an assignment of numbers to the variables
an expression has the value that its parts add up to. Moving the constant of an expression to
the right, as a constraint does, changes neither.

Key definitions: `LinearExpression.amount`, `LinearExpression.worth`,
`LinearExpression.eval`, `Constraint.Holds`.
Key theorems: `coefficient_addTerms`, `coefficient_sum`, `coefficient_of`, `eval_addTerms`,
`eval_sum`, `holds_of_iff`.
-/
import EnergyPlan.Linear.Problem
import EnergyPlan.Proofs.Order.Sums
import Mathlib.Algebra.BigOperators.Group.Finset.Piecewise
import Mathlib.Algebra.BigOperators.Ring.List
import Mathlib.Algebra.Order.Ring.Defs

namespace EnergyPlan

/-! ### Sums over lists -/

/-- A sum over rows is added up row by row. -/
theorem sum_map_flatMap {α β M : Type} [AddMonoid M] {as : List α} {f : α → List β} {g : β → M} :
    ((as.flatMap f).map g).sum = (as.map fun a => ((f a).map g).sum).sum := by
  induction as with
  | nil => rfl
  | cons a rest ih =>
    rw [List.flatMap_cons, List.map_append, List.sum_append, ih, List.map_cons, List.sum_cons]

section

variable {α M : Type} [AddCommMonoid M] {as : List α} (hn : as.Nodup) {f : α → M}

include hn

/-- A sum over distinct things that has one summand is that summand. -/
theorem sum_map_single {a : α} (ha : a ∈ as) (h : ∀ b ∈ as, b ≠ a → f b = 0) :
    (as.map f).sum = f a := by
  classical
  rw [← List.sum_toFinset f hn]
  refine Finset.sum_eq_single a (fun b hb => h b (List.mem_toFinset.1 hb)) fun hno => ?_
  exact absurd (List.mem_toFinset.2 ha) hno

end

section

variable {α κ M : Type} [AddCommMonoid M] [BEq κ] [LawfulBEq κ]

/-- Where each thing has one of some distinct keys, a sum over the things is the sum over the keys
of the sums over the things with a key. -/
theorem sum_fibers {as : List α} {keys : List κ} (hn : keys.Nodup) {key : α → Option κ}
    (h : ∀ a ∈ as, ∃ k ∈ keys, key a = some k) (f : α → M) :
    (keys.map fun k => ((as.filter fun a => key a == some k).map f).sum).sum =
      (as.map f).sum := by
  classical
  induction as with
  | nil => simp
  | cons a rest ih =>
    obtain ⟨k, hk, hkey⟩ := h a List.mem_cons_self
    have hsplit : ∀ k', (((a :: rest).filter fun b => key b == some k').map f).sum =
        (if k = k' then f a else 0) + ((rest.filter fun b => key b == some k').map f).sum := by
      intro k'
      by_cases hk' : k = k'
      · have htrue : (key a == some k') = true := by rw [hkey, hk', beq_self_eq_true]
        rw [List.filter_cons, if_pos htrue, List.map_cons, List.sum_cons, if_pos hk']
      · have hfalse : ¬ (key a == some k') = true := by
          rw [hkey, beq_iff_eq, Option.some_inj]
          exact hk'
        rw [List.filter_cons, if_neg hfalse, if_neg hk', zero_add]
    have hrest := ih fun b hb => h b (List.mem_cons_of_mem a hb)
    simp only [hsplit]
    rw [List.sum_map_add, hrest, sum_map_single hn hk fun k' _ hne => if_neg (Ne.symm hne),
      if_pos rfl, List.map_cons, List.sum_cons]

end

namespace LinearExpression

variable {R : Type}

/-! ### Coefficients -/

section

variable [AddCommMonoid R]

/-- What the terms of a list contribute to a variable. -/
def amount (w : VariableRef) (terms : List (VariableRef × R)) : R :=
  (terms.map fun t => if t.1 = w then t.2 else 0).sum

variable {w : VariableRef}

theorem amount_nil : amount w ([] : List (VariableRef × R)) = 0 := rfl

theorem amount_cons (t : VariableRef × R) (terms : List (VariableRef × R)) :
    amount w (t :: terms) = (if t.1 = w then t.2 else 0) + amount w terms := by
  rw [amount, List.map_cons, List.sum_cons]
  rfl

theorem amount_append (terms terms' : List (VariableRef × R)) :
    amount w (terms ++ terms') = amount w terms + amount w terms' := by
  rw [amount, List.map_append, List.sum_append]
  rfl

theorem amount_flatMap {α : Type} (f : α → List (VariableRef × R)) (as : List α) :
    amount w (as.flatMap f) = (as.map fun a => amount w (f a)).sum :=
  sum_map_flatMap

/-- Terms on other variables contribute nothing. -/
theorem amount_eq_zero {terms : List (VariableRef × R)} (h : ∀ t ∈ terms, t.1 ≠ w) :
    amount w terms = 0 := by
  induction terms with
  | nil => rfl
  | cons t rest ih =>
    rw [amount_cons, if_neg (h t List.mem_cons_self), zero_add]
    exact ih fun s hs => h s (List.mem_cons_of_mem t hs)

/-- The only term on a variable is what the list contributes to it. -/
theorem amount_of_mem {terms : List (VariableRef × R)} (hn : (terms.map Prod.fst).Nodup) {c : R}
    (h : (w, c) ∈ terms) : amount w terms = c := by
  induction terms with
  | nil => cases h
  | cons t rest ih =>
    rw [List.map_cons, List.nodup_cons] at hn
    rw [amount_cons]
    rcases List.mem_cons.1 h with rfl | h
    · have hrest : amount w rest = 0 := by
        apply amount_eq_zero
        intro s hs he
        have hw : s.1 ∈ rest.map Prod.fst := List.mem_map_of_mem hs
        rw [he] at hw
        exact hn.1 hw
      rw [if_pos rfl, hrest, add_zero]
    · have hne : t.1 ≠ w := fun he => hn.1 (he ▸ List.mem_map_of_mem h)
      rw [if_neg hne, zero_add, ih hn.2 h]

omit [AddCommMonoid R] in
theorem nodup_termList (e : LinearExpression R) : (e.termList.map Prod.fst).Nodup := by
  rw [List.Nodup, List.pairwise_map]
  refine Std.ExtTreeMap.distinct_keys_toList.imp fun {a b} hne hab => ?_
  exact hne (VariableRef.compare_eq_iff.2 hab)

/-- The terms of an expression contribute its coefficients. -/
theorem amount_termList (e : LinearExpression R) : amount w e.termList = e.coefficient w := by
  rw [coefficient]
  cases h : e.terms[w]? with
  | none =>
    apply amount_eq_zero
    rintro ⟨v, c⟩ ht rfl
    rw [termList, Std.ExtTreeMap.mem_toList_iff_getElem?_eq_some, h] at ht
    cases ht
  | some c =>
    apply amount_of_mem (nodup_termList e)
    rw [termList, Std.ExtTreeMap.mem_toList_iff_getElem?_eq_some]
    exact h

variable [BEq R] [LawfulBEq R]

theorem coefficient_addTerm (e : LinearExpression R) (v : VariableRef) (c : R) :
    (e.addTerm v c).coefficient w = e.coefficient w + if v = w then c else 0 := by
  by_cases h : v = w
  · rw [if_pos h, ← h, coefficient_addTerm_self]
  · rw [if_neg h, add_zero, coefficient_addTerm_of_ne e c h]

theorem coefficient_addTerms (e : LinearExpression R) (terms : List (VariableRef × R)) :
    (e.addTerms terms).coefficient w = e.coefficient w + amount w terms := by
  induction terms generalizing e with
  | nil => rw [amount_nil, add_zero]; rfl
  | cons t rest ih =>
    show ((e.addTerm t.1 t.2).addTerms rest).coefficient w = _
    rw [ih, coefficient_addTerm, amount_cons, add_assoc]

omit [BEq R] [LawfulBEq R] in
theorem coefficient_zero : (0 : LinearExpression R).coefficient w = 0 := by
  have hterms : (0 : LinearExpression R).terms[w]? = none := Std.ExtTreeMap.getElem?_empty
  rw [coefficient, hterms]
  rfl

theorem coefficient_ofTerms (terms : List (VariableRef × R)) :
    (ofTerms terms).coefficient w = amount w terms := by
  rw [ofTerms, coefficient_addTerms, coefficient_zero, zero_add]

omit [LawfulBEq R] in
theorem constant_addTerms (e : LinearExpression R) (terms : List (VariableRef × R)) :
    (e.addTerms terms).constant = e.constant := by
  induction terms generalizing e with
  | nil => rfl
  | cons t rest ih => exact (ih _).trans (constant_addTerm e t.1 t.2)

end

section

variable [NonUnitalNonAssocSemiring R] {w : VariableRef}

theorem amount_map_mul (terms : List (VariableRef × R)) (scale : R) :
    amount w (terms.map fun (v, c) => (v, c * scale)) = amount w terms * scale := by
  induction terms with
  | nil => rw [List.map_nil, amount_nil, zero_mul]
  | cons t rest ih =>
    rw [List.map_cons, amount_cons, amount_cons, ih, add_mul, ite_mul, zero_mul]

variable [BEq R] [LawfulBEq R]

theorem coefficient_addScaled (e other : LinearExpression R) (scale : R) :
    (e.addScaled other scale).coefficient w =
      e.coefficient w + other.coefficient w * scale := by
  show (e.addTerms _).coefficient w = _
  rw [coefficient_addTerms, amount_map_mul, amount_termList]

theorem coefficient_scaled (e : LinearExpression R) (factor : R) :
    (e.scaled factor).coefficient w = e.coefficient w * factor := by
  rw [scaled, coefficient_addScaled, coefficient_zero, zero_add]

theorem coefficient_foldl_addScaled (parts : List (LinearExpression R × R))
    (e : LinearExpression R) :
    (parts.foldl (fun e (part, scale) => e.addScaled part scale) e).coefficient w =
      e.coefficient w + (parts.map fun p => p.1.coefficient w * p.2).sum := by
  induction parts generalizing e with
  | nil => rw [List.map_nil, List.sum_nil, add_zero]; rfl
  | cons p rest ih =>
    rw [List.foldl_cons, ih, coefficient_addScaled, List.map_cons, List.sum_cons, add_assoc]

/-- A variable has in a sum what it has in the parts. -/
theorem coefficient_sum (parts : List (LinearExpression R × R)) :
    (sum parts).coefficient w = (parts.map fun p => p.1.coefficient w * p.2).sum := by
  rw [sum, coefficient_foldl_addScaled, coefficient_zero, zero_add]

/-! ### Constants -/

omit [LawfulBEq R] in
theorem constant_ofTerms (terms : List (VariableRef × R)) : (ofTerms terms).constant = 0 :=
  constant_addTerms 0 terms

/-- What the terms of a list come to under an assignment. -/
def worth (assignment : VariableRef → R) (terms : List (VariableRef × R)) : R :=
  (terms.map fun t => t.2 * assignment t.1).sum

/-- The value of an expression under an assignment. -/
def eval (assignment : VariableRef → R) (e : LinearExpression R) : R :=
  worth assignment e.termList + e.constant

variable {assignment : VariableRef → R}

omit [BEq R] [LawfulBEq R] in
/-- Terms come to what they contribute to each variable, times the number assigned to it. -/
theorem worth_eq_sum {terms : List (VariableRef × R)} {vs : Finset VariableRef}
    (h : ∀ t ∈ terms, t.1 ∈ vs) :
    worth assignment terms = ∑ v ∈ vs, amount v terms * assignment v := by
  induction terms with
  | nil =>
    have hzero : ∀ v ∈ vs, amount v ([] : List (VariableRef × R)) * assignment v = 0 :=
      fun v _ => by rw [amount_nil, zero_mul]
    rw [Finset.sum_eq_zero hzero]
    rfl
  | cons t rest ih =>
    have ht : t.1 ∈ vs := h t List.mem_cons_self
    have hrest := ih fun s hs => h s (List.mem_cons_of_mem t hs)
    calc worth assignment (t :: rest)
        = t.2 * assignment t.1 + worth assignment rest := by
          rw [worth, List.map_cons, List.sum_cons]
          rfl
      _ = (∑ v ∈ vs, if t.1 = v then t.2 * assignment v else 0) +
            ∑ v ∈ vs, amount v rest * assignment v := by
          rw [Finset.sum_ite_eq, if_pos ht, hrest]
      _ = ∑ v ∈ vs, amount v (t :: rest) * assignment v := by
          rw [← Finset.sum_add_distrib]
          refine Finset.sum_congr rfl fun v _ => ?_
          rw [amount_cons, add_mul, ite_mul, zero_mul]

/-- Added terms add what they come to. -/
theorem eval_addTerms (e : LinearExpression R) (terms : List (VariableRef × R)) :
    (e.addTerms terms).eval assignment = e.eval assignment + worth assignment terms := by
  -- all variables that occur before or after
  let vs : Finset VariableRef :=
    ((e.addTerms terms).termList ++ (e.termList ++ terms)).map Prod.fst |>.toFinset
  have hvs : ∀ t ∈ (e.addTerms terms).termList ++ (e.termList ++ terms), t.1 ∈ vs :=
    fun t ht => List.mem_toFinset.2 (List.mem_map_of_mem ht)
  have hafter : ∀ t ∈ (e.addTerms terms).termList, t.1 ∈ vs :=
    fun t ht => hvs t (List.mem_append_left _ ht)
  have hbefore : ∀ t ∈ e.termList, t.1 ∈ vs :=
    fun t ht => hvs t (List.mem_append_right _ (List.mem_append_left _ ht))
  have hterms : ∀ t ∈ terms, t.1 ∈ vs :=
    fun t ht => hvs t (List.mem_append_right _ (List.mem_append_right _ ht))
  have hsum : worth assignment (e.addTerms terms).termList =
      worth assignment e.termList + worth assignment terms := by
    rw [worth_eq_sum hafter, worth_eq_sum hbefore, worth_eq_sum hterms,
      ← Finset.sum_add_distrib]
    refine Finset.sum_congr rfl fun v _ => ?_
    rw [amount_termList, amount_termList, coefficient_addTerms, add_mul]
  rw [eval, eval, hsum, constant_addTerms, add_right_comm]

omit [BEq R] [LawfulBEq R] in
theorem eval_zero : (0 : LinearExpression R).eval assignment = 0 := by
  have hterms : (0 : LinearExpression R).termList = [] :=
    Std.ExtTreeMap.toList_eq_nil_iff.2 rfl
  rw [eval, hterms]
  exact add_zero 0

theorem eval_ofTerms (terms : List (VariableRef × R)) :
    (ofTerms terms).eval assignment = worth assignment terms := by
  rw [ofTerms, eval_addTerms, eval_zero, zero_add]

omit [BEq R] [LawfulBEq R] in
theorem eval_addConstant (e : LinearExpression R) (c : R) :
    (e.addConstant c).eval assignment = e.eval assignment + c :=
  (add_assoc ..).symm

theorem eval_ofConstant_addTerms (c : R) (terms : List (VariableRef × R)) :
    ((ofConstant c).addTerms terms).eval assignment = c + worth assignment terms := by
  have hterms : (ofConstant c).termList = [] := Std.ExtTreeMap.toList_eq_nil_iff.2 rfl
  rw [eval_addTerms, eval, hterms]
  exact congrArg (· + worth assignment terms) (zero_add c)

omit [BEq R] [LawfulBEq R]

theorem worth_singleton (v : VariableRef) (c : R) : worth assignment [(v, c)] = c * assignment v :=
  add_zero _

theorem worth_flatMap {α : Type} (f : α → List (VariableRef × R)) (as : List α) :
    worth assignment (as.flatMap f) = (as.map fun a => worth assignment (f a)).sum :=
  sum_map_flatMap

end

section

variable [NonUnitalCommSemiring R] {assignment : VariableRef → R}

theorem worth_map_mul (terms : List (VariableRef × R)) (scale : R) :
    worth assignment (terms.map fun (v, c) => (v, c * scale)) =
      worth assignment terms * scale := by
  rw [worth, worth, List.map_map, ← List.sum_map_mul_right]
  congr 1
  exact List.map_congr_left fun t _ => mul_right_comm t.2 scale (assignment t.1)

variable [BEq R] [LawfulBEq R]

theorem eval_addScaled (e other : LinearExpression R) (scale : R) :
    (e.addScaled other scale).eval assignment =
      e.eval assignment + other.eval assignment * scale := by
  show ((e.addTerms _).addConstant _).eval assignment = _
  rw [eval_addConstant, eval_addTerms, worth_map_mul, add_assoc, ← add_mul]
  rfl

end

end LinearExpression

/-! ### Constraints -/

namespace Relation

/-- Two numbers compare as a relation says. -/
def Relates {R : Type} [LE R] : Relation → R → R → Prop
  | .atMost, a, b => a ≤ b
  | .atLeast, a, b => b ≤ a
  | .equal, a, b => a = b

end Relation

namespace Constraint

open LinearExpression

variable {R : Type}

/-- An assignment satisfies a constraint. -/
def Holds [NonUnitalNonAssocSemiring R] [LE R] (assignment : VariableRef → R)
    (c : Constraint R) : Prop :=
  c.relation.Relates (c.lhs.eval assignment) c.rhs

/-- A constraint on an expression keeps the coefficients of the expression. -/
theorem coefficient_of [AddCommGroup R] [BEq R] [LawfulBEq R] {index : Key}
    {e : LinearExpression R} {relation : Relation} {rhs : R} {w : VariableRef} :
    (Constraint.of index e relation rhs).lhs.coefficient w = e.coefficient w := by
  show (ofTerms e.termList).coefficient w = _
  rw [coefficient_ofTerms, amount_termList]

section

variable [Ring R] [BEq R] [LawfulBEq R] {index : Key} {e : LinearExpression R}
  {relation : Relation} {rhs : R} {assignment : VariableRef → R}

/-- The left side of a constraint on an expression is the expression without its constant. -/
theorem eval_of : (Constraint.of index e relation rhs).lhs.eval assignment =
    e.eval assignment - e.constant := by
  show (ofTerms e.termList).eval assignment = _
  rw [eval_ofTerms, eval, add_sub_cancel_right]

/-- A constraint on an expression holds exactly if the value of the expression compares so. -/
theorem holds_of_iff [LinearOrder R] [IsStrictOrderedRing R] :
    (Constraint.of index e relation rhs).Holds assignment ↔
      relation.Relates (e.eval assignment) rhs := by
  rw [Holds, eval_of]
  show relation.Relates (e.eval assignment - e.constant) (rhs - e.constant) ↔ _
  cases relation with
  | atMost => exact sub_le_sub_iff_right e.constant
  | atLeast => exact sub_le_sub_iff_right e.constant
  | equal => exact sub_left_inj

end

end Constraint

end EnergyPlan
