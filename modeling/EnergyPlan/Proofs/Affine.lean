/-
# Expressions are affine functions in normal form

However an expression is put together, no coefficient in it is zero, and its value under an
assignment is what the same steps come to on values. An expression without a zero coefficient
is determined by its values: the constant is the value where all variables are zero, and a
coefficient is what a variable adds when it alone is one. So two expressions are the same
exactly if they are the same affine function, whatever the steps and their order. A family of
constraints keeps an expression without its constant, and the constraint it keeps holds under
the assignments under which the expression compares as it was said to.

Key definitions: `LinearExpression.Reduced`, `Assembly`, `Assembly.run`, `Assembly.value`.
Key theorems: `LinearExpression.Reduced.addTerm`, `LinearExpression.Reduced.eq_iff_eval`,
`Assembly.reduced_run`, `Assembly.eval_run`, `assemblies_canonical`.
-/
import EnergyPlan.Proofs.Coefficients
import EnergyPlan.Proofs.Exact

namespace EnergyPlan

variable {R : Type}

namespace LinearExpression

/-! ### No coefficient is zero -/

/-- No variable stands in an expression with the coefficient zero. -/
def Reduced [Zero R] (e : LinearExpression R) : Prop :=
  ∀ (v : VariableRef) (c : R), e.terms[v]? = some c → c ≠ 0

theorem reduced_ofConstant [Zero R] (c : R) : (ofConstant c).Reduced := by
  intro v d h
  have hterms : (ofConstant c).terms[v]? = none := Std.ExtTreeMap.getElem?_empty
  rw [hterms] at h
  cases h

theorem Reduced.addConstant [Zero R] [Add R] {e : LinearExpression R} (he : e.Reduced) (c : R) :
    (e.addConstant c).Reduced := he

section

variable [AddCommMonoid R] [BEq R] [LawfulBEq R] {e : LinearExpression R}

/-- A term that is added leaves no zero coefficient: one that cancels goes. -/
theorem Reduced.addTerm (he : e.Reduced) (v : VariableRef) (c : R) : (e.addTerm v c).Reduced := by
  intro w d h
  by_cases hc : c = 0
  · rw [hc, addTerm_zero] at h
    exact he w d h
  by_cases hw : v = w
  · subst hw
    rw [getElem?_addTerm_self e v hc, kept] at h
    split at h
    · cases h
    · next hsum =>
      cases h
      exact mt beq_iff_eq.2 hsum
  · rw [getElem?_addTerm_of_ne e c hw] at h
    exact he w d h

theorem Reduced.addTerms (he : e.Reduced) (terms : List (VariableRef × R)) :
    (e.addTerms terms).Reduced :=
  List.foldlRecOn (motive := Reduced) terms _ he fun _ hb t _ => hb.addTerm t.1 t.2

theorem Reduced.addScaled [Mul R] (he : e.Reduced) (other : LinearExpression R) (scale : R) :
    (e.addScaled other scale).Reduced :=
  (he.addTerms _).addConstant _

/-- Where no coefficient is zero, a variable stands in an expression with its coefficient, unless
that is zero. -/
theorem Reduced.getElem?_eq (he : e.Reduced) (v : VariableRef) :
    e.terms[v]? = kept (e.coefficient v) := by
  rw [coefficient, kept]
  cases h : e.terms[v]? with
  | none =>
    rw [Option.getD_none, if_pos (beq_self_eq_true 0)]
  | some c =>
    rw [Option.getD_some, if_neg (mt beq_iff_eq.1 (he v c h))]

end

/-! ### What values tell -/

section

variable [CommRing R]

/-- The value of an expression adds up what its variables come to, over any variables that include
those that occur. -/
theorem eval_eq_sum (e : LinearExpression R) (assignment : VariableRef → R)
    {vs : Finset VariableRef} (h : ∀ t ∈ e.termList, t.1 ∈ vs) :
    e.eval assignment = (∑ v ∈ vs, e.coefficient v * assignment v) + e.constant := by
  rw [eval, worth_eq_sum h]
  simp only [amount_termList]

/-- Where all variables are zero, an expression comes to its constant. -/
theorem eval_zero_assignment (e : LinearExpression R) : e.eval (fun _ => 0) = e.constant := by
  have hvs : ∀ t ∈ e.termList, t.1 ∈ (e.termList.map Prod.fst).toFinset :=
    fun t ht => List.mem_toFinset.2 (List.mem_map_of_mem ht)
  rw [eval_eq_sum e _ hvs]
  simp

/-- Where one variable is one and all others are zero, an expression comes to the coefficient of
that variable and its constant. -/
theorem eval_single (e : LinearExpression R) (v : VariableRef) :
    e.eval (Pi.single v 1) = e.coefficient v + e.constant := by
  have hvs : ∀ t ∈ e.termList, t.1 ∈ insert v (e.termList.map Prod.fst).toFinset :=
    fun t ht => Finset.mem_insert_of_mem (List.mem_toFinset.2 (List.mem_map_of_mem ht))
  have hsum : ∑ w ∈ insert v (e.termList.map Prod.fst).toFinset,
      e.coefficient w * Pi.single (M := fun _ => R) v 1 w = e.coefficient v := by
    rw [Finset.sum_eq_single_of_mem v (Finset.mem_insert_self _ _)]
    · rw [Pi.single_eq_same, mul_one]
    · intro w _ hw
      rw [Pi.single_eq_of_ne hw, mul_zero]
  rw [eval_eq_sum e _ hvs, hsum]

variable [BEq R] [LawfulBEq R]

/-- **An expression without a zero coefficient is determined by its values.** -/
theorem Reduced.eq_iff_eval {e f : LinearExpression R} (he : e.Reduced) (hf : f.Reduced) :
    e.terms = f.terms ∧ e.constant = f.constant ↔
      ∀ assignment, e.eval assignment = f.eval assignment := by
  constructor
  · rintro ⟨hterms, hconstant⟩ assignment
    rw [eval, eval, termList, termList, hterms, hconstant]
  · intro h
    have hconstant : e.constant = f.constant := by
      rw [← eval_zero_assignment, ← eval_zero_assignment]
      exact h _
    refine ⟨Std.ExtTreeMap.ext_getElem? fun v => ?_, hconstant⟩
    have hv : e.coefficient v + e.constant = f.coefficient v + f.constant := by
      rw [← eval_single, ← eval_single]
      exact h _
    rw [hconstant, add_left_inj] at hv
    rw [he.getElem?_eq, hf.getElem?_eq, hv]

end

end LinearExpression

/-! ### How expressions are put together -/

/-- The steps that put an expression together. -/
inductive Assembly (R : Type) where
  /-- A constant to begin with. -/
  | constant (c : R)
  /-- A multiple of a variable is added. -/
  | addTerm (before : Assembly R) (v : VariableRef) (c : R)
  /-- A constant is added. -/
  | addConstant (before : Assembly R) (c : R)
  /-- A multiple of another expression is added. -/
  | addScaled (before other : Assembly R) (scale : R)
  /-- A multiple is taken. -/
  | scaled (before : Assembly R) (factor : R)

namespace Assembly

/-- The expression that the steps lead to. -/
def run [Zero R] [Add R] [Mul R] [BEq R] : Assembly R → LinearExpression R
  | constant c => .ofConstant c
  | addTerm before v c => before.run.addTerm v c
  | addConstant before c => before.run.addConstant c
  | addScaled before other scale => before.run.addScaled other.run scale
  | scaled before factor => before.run.scaled factor

/-- What the same steps come to on the values of the variables. -/
def value [Add R] [Mul R] (assignment : VariableRef → R) : Assembly R → R
  | constant c => c
  | addTerm before v c => before.value assignment + c * assignment v
  | addConstant before c => before.value assignment + c
  | addScaled before other scale => before.value assignment + other.value assignment * scale
  | scaled before factor => before.value assignment * factor

variable [CommRing R] [BEq R] [LawfulBEq R]

open LinearExpression in
/-- No step leaves a zero coefficient. -/
theorem reduced_run (a : Assembly R) : a.run.Reduced := by
  induction a with
  | constant c => exact reduced_ofConstant c
  | addTerm before v c ih => exact ih.addTerm v c
  | addConstant before c ih => exact ih.addConstant c
  | addScaled before other scale ih _ => exact ih.addScaled other.run scale
  | scaled before factor _ => exact (reduced_ofConstant 0).addScaled before.run factor

/-- The value of an expression is what the steps come to on values. -/
theorem eval_run (assignment : VariableRef → R) (a : Assembly R) :
    a.run.eval assignment = a.value assignment := by
  induction a with
  | constant c =>
    show ((LinearExpression.ofConstant c).addTerms []).eval assignment = c
    rw [LinearExpression.eval_ofConstant_addTerms]
    exact add_zero c
  | addTerm before v c ih =>
    show (before.run.addTerms [(v, c)]).eval assignment = _
    rw [LinearExpression.eval_addTerms, LinearExpression.worth_singleton, ih]
    rfl
  | addConstant before c ih => rw [run, value, LinearExpression.eval_addConstant, ih]
  | addScaled before other scale ih ih' =>
    rw [run, value, LinearExpression.eval_addScaled, ih, ih']
  | scaled before factor ih =>
    rw [run, value, LinearExpression.scaled, LinearExpression.eval_addScaled,
      LinearExpression.eval_zero, zero_add, ih]

end Assembly

/-! ### Constraints that are kept -/

/-- A family keeps a constraint exactly if its index fits the dimensions. -/
theorem ConstraintFamily.settled_add {family family' : ConstraintFamily R} {c : Constraint R} :
    (family.add c).settled = .ok family' ↔
      c.index.length = family.dimensions.length ∧ family.insert c = family' := by
  rw [Noted.settled_eq_ok_iff]
  show family.misfit c.index = [] ∧ family.insert c = family' ↔ _
  rw [ConstraintFamily.misfit]
  split <;> simp [*]

theorem ConstraintFamily.get_insert (family : ConstraintFamily R) (c : Constraint R) :
    (family.insert c).get c.index = .ok c := by
  have hentry : (family.insert c).entries[c.index]? = some c :=
    Std.ExtTreeMap.getElem?_insert_self
  rw [get, hentry]

section

variable [CommRing R] [LinearOrder R] [IsStrictOrderedRing R] [BEq R] [LawfulBEq R]

/-- **Expressions are affine functions in normal form, and constraints keep their meaning.** Any
steps lead to an expression without a zero coefficient, whose value is what the steps come to on
values; so two rows of steps lead to the same terms and the same constant exactly if they come to
the same under every assignment. A family takes a constraint on any expression exactly if the index
fits, and keeps it without a constant on its left side; it then holds under exactly the assignments
under which the expression compares with the number as it was said to. -/
theorem assemblies_canonical :
    (∀ (a : Assembly R) (assignment : VariableRef → R),
      a.run.Reduced ∧ a.run.eval assignment = a.value assignment) ∧
    (∀ a b : Assembly R, a.run.terms = b.run.terms ∧ a.run.constant = b.run.constant ↔
      ∀ assignment, a.value assignment = b.value assignment) ∧
    ∀ (family : ConstraintFamily R) (index : Key) (e : LinearExpression R) (relation : Relation)
      (rhs : R),
      ((∃ family', (family.add (.of index e relation rhs)).settled = .ok family') ↔
        index.length = family.dimensions.length) ∧
      ∀ family', (family.add (.of index e relation rhs)).settled = .ok family' →
        ∃ c, family'.get index = .ok c ∧ c.lhs.constant = 0 ∧
          ∀ assignment, c.Holds assignment ↔ relation.Relates (e.eval assignment) rhs := by
  refine ⟨fun a assignment => ⟨a.reduced_run, a.eval_run assignment⟩, fun a b => ?_, ?_⟩
  · rw [a.reduced_run.eq_iff_eval b.reduced_run]
    simp only [Assembly.eval_run]
  · intro family index e relation rhs
    simp only [ConstraintFamily.settled_add]
    refine ⟨⟨fun ⟨_, hl, _⟩ => hl, fun hl => ⟨_, hl, rfl⟩⟩, ?_⟩
    rintro family' ⟨-, rfl⟩
    refine ⟨_, family.get_insert (.of index e relation rhs), ?_, fun assignment => ?_⟩
    · exact LinearExpression.constant_ofTerms e.termList
    · exact Constraint.holds_of_iff

end

/-- Three times the input and two, for what is put out cancels. -/
def Assembly.cancelling : Assembly Rat :=
  .addScaled (.addTerm (.addTerm (.constant 4) ⟨"Output", []⟩ 2) ⟨"Input", []⟩ 3)
    (.addTerm (.constant 1) ⟨"Output", []⟩ 1) (-2)

/-- Three times the input and two, from a sixth part of it. -/
def Assembly.multiplied : Assembly Rat :=
  .addConstant (.scaled (.addTerm (.constant 0) ⟨"Input", []⟩ (1 / 2)) 6) 2

/-- Two ways to the same function lead to the same expression, from which the output is gone; a
bound on it is kept with its constant on the right. -/
theorem assemblies_canonical_sample :
    Assembly.cancelling.run.Reduced ∧
    Assembly.cancelling.run.terms = Assembly.multiplied.run.terms ∧
    Assembly.cancelling.run.termList = [(⟨"Input", []⟩, 3)] ∧
    ∃ family', (ConstraintFamily.add ⟨"Bound", [], ∅⟩
        (.of [] Assembly.cancelling.run .atMost 5)).settled = .ok family' ∧
      ∃ c, family'.get [] = .ok c ∧ c.lhs.constant = 0 ∧ c.rhs = 3 ∧
        ∀ assignment, c.Holds assignment ↔ Assembly.cancelling.value assignment ≤ 5 := by
  obtain ⟨hrun, hsame, hkeeps⟩ := assemblies_canonical (R := Rat)
  have hvalues : ∀ assignment, Assembly.cancelling.value assignment =
      Assembly.multiplied.value assignment := by
    intro assignment
    simp only [Assembly.cancelling, Assembly.multiplied, Assembly.value]
    ring
  obtain ⟨hfits, hkept⟩ := hkeeps ⟨"Bound", [], ∅⟩ [] Assembly.cancelling.run .atMost 5
  obtain ⟨family', hadd⟩ := hfits.2 rfl
  obtain ⟨c, hget, hconstant, hholds⟩ := hkept family' hadd
  refine ⟨(hrun _ fun _ => 0).1, ((hsame _ _).2 hvalues).1, by decide +kernel, family', hadd, c,
    hget, hconstant, ?_, fun assignment => ?_⟩
  · obtain ⟨-, rfl⟩ := ConstraintFamily.settled_add.1 hadd
    cases hget
    decide +kernel
  · rw [hholds, (hrun _ assignment).2]
    rfl

end EnergyPlan
