/-
# Terms as rows of lexemes

A term that can be written is a row of lexemes with parentheses around every operand: those of
an operator, the three parts of a conditional, what a subscript picks from, and what a clause of a
comprehension runs over and asks for. Elements, arguments, indices, and the keys and values of
dicts stand between signs of their own and have none. Integers are written in digits, so they
are not negative; the first segment of a name and the variables of a clause are not keywords.

Key definitions: `Value.literal?`, `Term.lexemes`, `Term.Writable`, `Term.render`.
Key theorems: `spellable_lexemes`, `spells_render`.
-/
import EnergyPlan.Expr.Parser
import EnergyPlan.Proofs.Syntax.Spelling

namespace EnergyPlan.Expr

/-- The lexeme that writes a value, if there is one that reads as it. -/
def Value.literal? : Value → Option Lexeme
  | .none => some (.name "None")
  | .bool true => some (.name "True")
  | .bool false => some (.name "False")
  | .int n =>
    if 0 ≤ n.toInt then some (.number (String.ofList (Nat.toDigits 10 n.toInt.toNat)))
    else Option.none
  | .string s => some (.string s)
  | _ => Option.none

/-- The lexeme of an operator on one operand. -/
def UnaryOp.lexeme : UnaryOp → Lexeme
  | .not => .name "not"
  | op => .op op.symbol

/-- The lexemes of a comparison operator. -/
def CompareOp.lexemes : CompareOp → List Lexeme
  | .isIn => [.name "in"]
  | .notIn => [.name "not", .name "in"]
  | op => [.op op.symbol]

/-- A row of lexemes in parentheses. -/
def enclosed (ls : List Lexeme) : List Lexeme := .op "(" :: (ls ++ [.op ")"])

/-- The segments of a dotted name after the first. -/
def dotted (segments : List String) : List Lexeme :=
  segments.flatMap fun segment => [.op ".", .name segment]

/-- The variables of a clause. -/
def variableLexemes : List String → List Lexeme
  | [] => []
  | [name] => [.name name]
  | name :: rest => .name name :: .op "," :: variableLexemes rest

mutual

/-- A term as a row of lexemes, with parentheses around every operand. -/
@[simp] def Term.lexemes : Term → List Lexeme
  | .literal value => value.literal?.toList
  | .name head rest => .name head :: dotted rest
  | .unary op operand => op.lexeme :: enclosed operand.lexemes
  | .binary op left right =>
    enclosed left.lexemes ++ .op op.symbol :: enclosed right.lexemes
  | .compare first rest => enclosed first.lexemes ++ linkLexemes rest
  | .both left right => enclosed left.lexemes ++ .name "and" :: enclosed right.lexemes
  | .either left right => enclosed left.lexemes ++ .name "or" :: enclosed right.lexemes
  | .conditional whenTrue condition whenFalse =>
    enclosed whenTrue.lexemes ++ .name "if" :: (enclosed condition.lexemes ++
      .name "else" :: enclosed whenFalse.lexemes)
  | .call function args => .name function.name :: .op "(" :: (elementLexemes args ++ [.op ")"])
  | .subscript target index =>
    enclosed target.lexemes ++ .op "[" :: (index.lexemes ++ [.op "]"])
  | .list elements => .op "[" :: (elementLexemes elements ++ [.op "]"])
  | .dict entries => .op "\x7b" :: (entryLexemes entries ++ [.op "\x7d"])
  | .listOver value clauses =>
    .op "[" :: (value.lexemes ++ (clauseLexemes clauses ++ [.op "]"]))
  | .dictOver key value clauses =>
    .op "\x7b" :: (key.lexemes ++ .op ":" :: (value.lexemes ++
      (clauseLexemes clauses ++ [.op "\x7d"])))

/-- Terms with commas between them. -/
def elementLexemes : List Term → List Lexeme
  | [] => []
  | element :: rest => element.lexemes ++ furtherElements rest

/-- Terms with a comma before each. -/
def furtherElements : List Term → List Lexeme
  | [] => []
  | element :: rest => .op "," :: (element.lexemes ++ furtherElements rest)

/-- Entries with commas between them. -/
def entryLexemes : List (Term × Term) → List Lexeme
  | [] => []
  | (key, value) :: rest => key.lexemes ++ .op ":" :: (value.lexemes ++ furtherEntries rest)

/-- Entries with a comma before each. -/
def furtherEntries : List (Term × Term) → List Lexeme
  | [] => []
  | (key, value) :: rest =>
    .op "," :: (key.lexemes ++ .op ":" :: (value.lexemes ++ furtherEntries rest))

/-- The links of a chain of comparisons. -/
def linkLexemes : List (CompareOp × Term) → List Lexeme
  | [] => []
  | (op, term) :: rest => op.lexemes ++ (enclosed term.lexemes ++ linkLexemes rest)

/-- The conditions of a clause. -/
def conditionLexemes : List Term → List Lexeme
  | [] => []
  | condition :: rest => .name "if" :: (enclosed condition.lexemes ++ conditionLexemes rest)

/-- The clauses of a comprehension. -/
def clauseLexemes : List Clause → List Lexeme
  | [] => []
  | .mk targets iterable conditions :: rest =>
    .name "for" :: (variableLexemes targets ++ .name "in" :: (enclosed iterable.lexemes ++
      (conditionLexemes conditions ++ clauseLexemes rest)))

end

/-- A text for a term. -/
def Term.render (t : Term) : String := String.ofList (spellAll t.lexemes)

namespace Clause

/-- The variables of a clause. -/
def targets : Clause → List String
  | .mk targets _ _ => targets

/-- What a clause runs over. -/
def iterable : Clause → Term
  | .mk _ iterable _ => iterable

/-- What a clause asks for. -/
def conditions : Clause → List Term
  | .mk _ _ conditions => conditions

end Clause

/-- A name that is not a keyword. -/
def IsVariable (name : String) : Prop := isIdentifier name.toList = true ∧ name ∉ keywords

instance (name : String) : Decidable (IsVariable name) :=
  inferInstanceAs (Decidable (_ ∧ _))

/-- A term that can be written: its literals and names can be, and chains of comparisons,
comprehensions and clauses have the parts that they need. -/
inductive Term.Writable : Term → Prop where
  | literal {value : Value} : value.literal?.isSome = true → Term.Writable (.literal value)
  | name {head : String} {rest : List String} : IsVariable head →
      (∀ segment ∈ rest, isIdentifier segment.toList = true) → Term.Writable (.name head rest)
  | unary {op : UnaryOp} {operand : Term} : operand.Writable → Term.Writable (.unary op operand)
  | binary {op : BinaryOp} {left right : Term} : left.Writable → right.Writable →
      Term.Writable (.binary op left right)
  | compare {first : Term} {rest : List (CompareOp × Term)} : first.Writable → rest ≠ [] →
      (∀ link ∈ rest, link.2.Writable) → Term.Writable (.compare first rest)
  | both {left right : Term} : left.Writable → right.Writable → Term.Writable (.both left right)
  | either {left right : Term} : left.Writable → right.Writable →
      Term.Writable (.either left right)
  | conditional {whenTrue condition whenFalse : Term} : whenTrue.Writable → condition.Writable →
      whenFalse.Writable → Term.Writable (.conditional whenTrue condition whenFalse)
  | call {function : Function} {args : List Term} : (∀ arg ∈ args, arg.Writable) →
      Term.Writable (.call function args)
  | subscript {target index : Term} : target.Writable → index.Writable →
      Term.Writable (.subscript target index)
  | list {elements : List Term} : (∀ element ∈ elements, element.Writable) →
      Term.Writable (.list elements)
  | dict {entries : List (Term × Term)} :
      (∀ entry ∈ entries, entry.1.Writable) → (∀ entry ∈ entries, entry.2.Writable) →
        Term.Writable (.dict entries)
  | listOver {value : Term} {clauses : List Clause} : value.Writable → clauses ≠ [] →
      (∀ clause ∈ clauses, clause.targets ≠ [] ∧ ∀ name ∈ clause.targets, IsVariable name) →
      (∀ clause ∈ clauses, clause.iterable.Writable) →
      (∀ clause ∈ clauses, ∀ condition ∈ clause.conditions, condition.Writable) →
        Term.Writable (.listOver value clauses)
  | dictOver {key value : Term} {clauses : List Clause} : key.Writable → value.Writable →
      clauses ≠ [] →
      (∀ clause ∈ clauses, clause.targets ≠ [] ∧ ∀ name ∈ clause.targets, IsVariable name) →
      (∀ clause ∈ clauses, clause.iterable.Writable) →
      (∀ clause ∈ clauses, ∀ condition ∈ clause.conditions, condition.Writable) →
        Term.Writable (.dictOver key value clauses)

/-! ### Every lexeme of a term can be written -/

/-- Each lexeme of a row is spelled by its text. -/
def Spellable (ls : List Lexeme) : Prop := ∀ l ∈ ls, l.Spelled l.spell

theorem spellable_nil : Spellable [] := fun _ h => absurd h List.not_mem_nil

theorem Spellable.append {ls more : List Lexeme} (h : Spellable ls) (hmore : Spellable more) :
    Spellable (ls ++ more) :=
  List.forall_mem_append.2 ⟨h, hmore⟩

theorem Spellable.op {sign : String} {ls : List Lexeme} (h : Spellable ls)
    (hsign : sign.toList ∈ doubleSigns ∨ sign.toList ∈ singleSigns.map fun c => [c]) :
    Spellable (.op sign :: ls) :=
  List.forall_mem_cons.2 ⟨⟨rfl, hsign⟩, h⟩

theorem Spellable.name {name : String} {ls : List Lexeme} (h : Spellable ls)
    (hname : isIdentifier name.toList = true) : Spellable (.name name :: ls) :=
  List.forall_mem_cons.2 ⟨⟨rfl, hname⟩, h⟩

theorem Spellable.enclosed {ls : List Lexeme} (h : Spellable ls) : Spellable (enclosed ls) :=
  (h.append (spellable_nil.op (by decide))).op (by decide)

theorem spellable_literal {value : Value} : Spellable value.literal?.toList := by
  intro l hl
  have hl : value.literal? = some l := Option.mem_toList.1 hl
  unfold Value.literal? at hl
  split at hl
  · cases hl
    exact ⟨rfl, by decide⟩
  · cases hl
    exact ⟨rfl, by decide⟩
  · cases hl
    exact ⟨rfl, by decide⟩
  · next n =>
    split at hl
    · cases hl
      exact spelled_number Nat.toDigits_ne_nil (Decimal.isDigit_of_mem_toDigits _)
    · cases hl
  · cases hl
    exact spelled_string _
  · cases hl

theorem spellable_dotted {segments : List String}
    (h : ∀ segment ∈ segments, isIdentifier segment.toList = true) :
    Spellable (dotted segments) := by
  induction segments with
  | nil => exact spellable_nil
  | cons segment rest ih =>
    rw [List.forall_mem_cons] at h
    exact ((ih h.2).name h.1).op (by decide)

theorem spellable_variables {names : List String} (h : ∀ name ∈ names, IsVariable name) :
    Spellable (variableLexemes names) := by
  induction names with
  | nil => exact spellable_nil
  | cons name rest ih =>
    rw [List.forall_mem_cons] at h
    cases rest with
    | nil => exact spellable_nil.name h.1.1
    | cons second rest => exact ((ih h.2).op (by decide)).name h.1.1

theorem spellable_further {es : List Term} (h : ∀ e ∈ es, Spellable e.lexemes) :
    Spellable (furtherElements es) := by
  induction es with
  | nil => exact spellable_nil
  | cons e rest ih =>
    rw [List.forall_mem_cons] at h
    exact (h.1.append (ih h.2)).op (by decide)

theorem spellable_elements {es : List Term} (h : ∀ e ∈ es, Spellable e.lexemes) :
    Spellable (elementLexemes es) := by
  cases es with
  | nil => exact spellable_nil
  | cons e rest =>
    rw [List.forall_mem_cons] at h
    exact h.1.append (spellable_further h.2)

theorem spellable_furtherEntries {es : List (Term × Term)}
    (hkeys : ∀ e ∈ es, Spellable e.1.lexemes) (hvalues : ∀ e ∈ es, Spellable e.2.lexemes) :
    Spellable (furtherEntries es) := by
  induction es with
  | nil => exact spellable_nil
  | cons e rest ih =>
    rw [List.forall_mem_cons] at hkeys hvalues
    have hvalue := hvalues.1.append (ih hkeys.2 hvalues.2)
    exact (hkeys.1.append (hvalue.op (by decide))).op (by decide)

theorem spellable_entries {es : List (Term × Term)}
    (hkeys : ∀ e ∈ es, Spellable e.1.lexemes) (hvalues : ∀ e ∈ es, Spellable e.2.lexemes) :
    Spellable (entryLexemes es) := by
  cases es with
  | nil => exact spellable_nil
  | cons e rest =>
    rw [List.forall_mem_cons] at hkeys hvalues
    have hvalue := hvalues.1.append (spellable_furtherEntries hkeys.2 hvalues.2)
    exact hkeys.1.append (hvalue.op (by decide))

theorem spellable_comparison (op : CompareOp) : Spellable op.lexemes := by
  cases op with
  | isIn => exact spellable_nil.name (by decide)
  | notIn => exact (spellable_nil.name (by decide)).name (by decide)
  | _ => exact spellable_nil.op (by decide)

theorem spellable_links {links : List (CompareOp × Term)}
    (h : ∀ link ∈ links, Spellable link.2.lexemes) : Spellable (linkLexemes links) := by
  induction links with
  | nil => exact spellable_nil
  | cons link rest ih =>
    rw [List.forall_mem_cons] at h
    exact (spellable_comparison link.1).append (h.1.enclosed.append (ih h.2))

theorem spellable_conditions {conditions : List Term}
    (h : ∀ condition ∈ conditions, Spellable condition.lexemes) :
    Spellable (conditionLexemes conditions) := by
  induction conditions with
  | nil => exact spellable_nil
  | cons condition rest ih =>
    rw [List.forall_mem_cons] at h
    exact (h.1.enclosed.append (ih h.2)).name (by decide)

theorem spellable_clauses {clauses : List Clause}
    (htargets : ∀ clause ∈ clauses, ∀ name ∈ clause.targets, IsVariable name)
    (hiterables : ∀ clause ∈ clauses, Spellable clause.iterable.lexemes)
    (hconditions : ∀ clause ∈ clauses, ∀ condition ∈ clause.conditions,
      Spellable condition.lexemes) : Spellable (clauseLexemes clauses) := by
  induction clauses with
  | nil => exact spellable_nil
  | cons clause rest ih =>
    obtain ⟨names, iterable, conditions⟩ := clause
    rw [List.forall_mem_cons] at htargets hiterables hconditions
    have hlast := (spellable_conditions hconditions.1).append
      (ih htargets.2 hiterables.2 hconditions.2)
    have hsource : Spellable (.name "in" :: _) :=
      (hiterables.1.enclosed.append hlast).name (by decide)
    exact ((spellable_variables htargets.1).append hsource).name (by decide)

/-- Each lexeme of a term that can be written is spelled by its text. -/
theorem spellable_lexemes {t : Term} (h : t.Writable) : Spellable t.lexemes := by
  induction h with
  | literal _ => exact spellable_literal
  | name hhead hrest => exact (spellable_dotted hrest).name hhead.1
  | @unary op _ _ ih =>
    cases op with
    | not => exact ih.enclosed.name (by decide)
    | _ => exact ih.enclosed.op (by decide)
  | @binary op _ _ _ _ hleft hright =>
    refine hleft.enclosed.append (hright.enclosed.op ?_)
    cases op <;> decide
  | compare _ _ _ hfirst hrest => exact hfirst.enclosed.append (spellable_links hrest)
  | both _ _ hleft hright => exact hleft.enclosed.append (hright.enclosed.name (by decide))
  | either _ _ hleft hright => exact hleft.enclosed.append (hright.enclosed.name (by decide))
  | conditional _ _ _ hvalue hcondition hother =>
    have hlast : Spellable (_ ++ .name "else" :: _) :=
      hcondition.enclosed.append (hother.enclosed.name (by decide))
    exact hvalue.enclosed.append (hlast.name (by decide))
  | @call function _ _ hargs =>
    have hclosed : Spellable (_ ++ [.op ")"]) :=
      (spellable_elements hargs).append (spellable_nil.op (by decide))
    refine (hclosed.op (by decide)).name ?_
    cases function <;> decide
  | subscript _ _ htarget hindex =>
    exact htarget.enclosed.append
      ((hindex.append (spellable_nil.op (by decide))).op (by decide))
  | list _ helements =>
    exact ((spellable_elements helements).append (spellable_nil.op (by decide))).op (by decide)
  | dict _ _ hkeys hvalues =>
    exact ((spellable_entries hkeys hvalues).append (spellable_nil.op (by decide))).op (by decide)
  | listOver _ _ htargets _ _ hvalue hiterables hconditions =>
    have hclauses := spellable_clauses (fun c hc => (htargets c hc).2) hiterables hconditions
    have hclosed : Spellable (_ ++ [.op "]"]) := hclauses.append (spellable_nil.op (by decide))
    exact (hvalue.append hclosed).op (by decide)
  | dictOver _ _ _ htargets _ _ hkey hvalue hiterables hconditions =>
    have hclauses := spellable_clauses (fun c hc => (htargets c hc).2) hiterables hconditions
    have hclosed : Spellable (_ ++ [.op "\x7d"]) :=
      hclauses.append (spellable_nil.op (by decide))
    exact (hkey.append ((hvalue.append hclosed).op (by decide))).op (by decide)

/-- The text of a term that can be written spells its lexemes. -/
theorem spells_render {t : Term} (h : t.Writable) : Spells t.lexemes t.render.toList := by
  rw [Term.render, String.toList_ofList]
  exact spells_spellAll (spellable_lexemes h)

end EnergyPlan.Expr
