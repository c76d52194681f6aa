/-
# Rows of parts

The parts of a term that may be repeated are read by loops: the elements of a display after the
first, the entries of a dict, the links of a chain of comparisons, the variables, conditions and
clauses of a comprehension. Each loop takes exactly the parts that were written, given that every
term in them is read back, and stops at what follows.

Key definitions: `ReadBack`, `Recovered`, `further`.
Key theorems: `elementsRest_further`, `entriesRest_further`, `comparisonRest_links`,
`parseConditions_conditions`, `parseClauses_clauses`.
-/
import EnergyPlan.Proofs.Syntax.Levels
import Mathlib.Data.List.Forall2

namespace EnergyPlan.Expr

/-- A row of lexemes is read back as a term. -/
structure ReadBack (ls : List Lexeme) (t : Term) : Prop where
  reads : Reads .test ls t
  opens : Opens ls

/-- A term is read back from its lexemes. -/
abbrev Recovered (t : Term) : Prop := ReadBack t.lexemes t

variable {t : Term} {ls : List Lexeme} {stop n : Nat} {ts rest : List Token}

theorem ReadBack.read (h : ReadBack ls t) (hts : ts.map Token.lexeme = ls)
    (hends : Ends .test rest) (hcalls : 16 * ts.length ≤ n) :
    parseTest stop n (ts ++ rest) = .ok (t, rest) :=
  h.reads stop n ts rest hts hends (Nat.le_trans hcalls (Nat.le_add_right _ _))

/-- In parentheses, a row is read back by the function of any level. -/
theorem ReadBack.operand (h : ReadBack ls t) (level : Level) (stop n : Nat)
    (hts : ts.map Token.lexeme = enclosed ls) (hends : Ends level rest)
    (hcalls : 16 * ts.length ≤ n) : level.parse stop n (ts ++ rest) = .ok (t, rest) :=
  h.reads.enclosed h.opens level stop n ts rest hts hends
    (Nat.le_trans hcalls (Nat.le_add_right _ _))

/-! ### Displays -/

/-- Rows with a comma before each. -/
def further (rows : List (List Lexeme)) : List Lexeme := rows.flatMap fun row => .op "," :: row

/-- Rows with commas between them. -/
def separated : List (List Lexeme) → List Lexeme
  | [] => []
  | row :: rows => row ++ further rows

/-- The rows of a key and a value with a colon between them. -/
def entryRow (entry : List Lexeme × List Lexeme) : List Lexeme := entry.1 ++ .op ":" :: entry.2

/-- The rows of a key and a value are read back. -/
def EntryBack (row : List Lexeme × List Lexeme) (entry : Term × Term) : Prop :=
  ReadBack row.1 entry.1 ∧ ReadBack row.2 entry.2

theorem further_head (rows : List (List Lexeme)) : ∀ l ∈ (further rows).head?, l = .op "," := by
  cases rows with
  | nil => simp [further]
  | cons row rows => simp [further]

/-- After a part of a display comes a comma or what closes the display. -/
theorem follows_further {rows : List (List Lexeme)} (hts : ts.map Token.lexeme = further rows)
    (hrest : Follows closers rest) : Follows (.op "," :: closers) (ts ++ rest) := by
  refine Next.append hts (fun l hl => ?_) fun t ht => List.mem_cons_of_mem _ (hrest t ht)
  rw [further_head rows l hl]
  exact List.mem_cons_self

theorem elementsRest_further {closing : String} (hc : Lexeme.op closing ∈ closers)
    {rows : List (List Lexeme)} {es : List Term} (hes : List.Forall₂ ReadBack rows es)
    (hts : ts.map Token.lexeme = further rows) (hrest : Follows closers rest)
    (hcalls : 16 * ts.length ≤ n) :
    elementsRest stop (n + 1) closing (ts ++ rest) = .ok (es, rest) := by
  induction hes generalizing n ts with
  | nil =>
    cases List.map_eq_nil_iff.1 hts
    have hcomma : accept? (.op ",") rest = none := hrest.accept? (by decide)
    rw [List.nil_append, elementsRest]
    simp only [hcomma]
  | @cons row e rows es he _ ih =>
    rw [further, List.flatMap_cons, List.cons_append] at hts
    obtain ⟨comma, tail, rfl, htail⟩ := exists_cons_of_lexemes hts
    obtain ⟨first, more, rfl, hfirst, hmore⟩ := List.map_eq_append_iff.1 htail
    simp only [List.length_cons, List.length_append] at hcalls
    obtain ⟨m, rfl⟩ : ∃ m, n = m + 1 := ⟨n - 1, by omega⟩
    have hnext := follows_further hmore hrest
    have hclose : accept? (.op closing) (first ++ (more ++ rest)) = none :=
      he.opens.accept? hfirst hc
    have hread : parseTest stop (m + 1) (first ++ (more ++ rest)) = .ok (e, more ++ rest) :=
      he.read hfirst (hnext.ends (by decide)) (by omega)
    have hothers : elementsRest stop (m + 1) closing (more ++ rest) = .ok (es, rest) :=
      ih hmore (by omega)
    rw [List.cons_append, List.append_assoc, elementsRest]
    simp only [accept?_self, hclose, hread, ok_bind, hothers]
    rfl

/-- The first element of a display is read, and then the others up to what closes it. -/
theorem exists_elements (stop n : Nat) {closing : String} (hc : Lexeme.op closing ∈ closers)
    {row : List Lexeme} {rows : List (List Lexeme)} {e : Term} {es : List Term}
    (he : ReadBack row e) (hes : List.Forall₂ ReadBack rows es)
    (hts : ts.map Token.lexeme = separated (row :: rows)) (hrest : Follows closers rest)
    (hcalls : 16 * ts.length ≤ n) :
    ∃ more, accept? (.op closing) (ts ++ rest) = none ∧
      parseTest stop (n + 1) (ts ++ rest) = .ok (e, more) ∧ accept? (.name "for") more = none ∧
        elementsRest stop (n + 1) closing more = .ok (es, rest) := by
  rw [separated] at hts
  obtain ⟨first, others, rfl, hfirst, hothers⟩ := List.map_eq_append_iff.1 hts
  rw [List.length_append] at hcalls
  have hnext := follows_further hothers hrest
  rw [List.append_assoc]
  refine ⟨others ++ rest, he.opens.accept? hfirst hc, ?_, hnext.accept? (by decide), ?_⟩
  · exact he.read hfirst (hnext.ends (by decide)) (by omega)
  · exact elementsRest_further hc hes hothers hrest (by omega)

theorem entriesRest_further {rows : List (List Lexeme × List Lexeme)} {es : List (Term × Term)}
    (hes : List.Forall₂ EntryBack rows es)
    (hts : ts.map Token.lexeme = further (rows.map entryRow)) (hrest : Follows closers rest)
    (hcalls : 16 * ts.length ≤ n) :
    entriesRest stop (n + 1) (ts ++ rest) = .ok (es, rest) := by
  induction hes generalizing n ts with
  | nil =>
    cases List.map_eq_nil_iff.1 hts
    have hcomma : accept? (.op ",") rest = none := hrest.accept? (by decide)
    rw [List.nil_append, entriesRest]
    simp only [hcomma]
  | @cons row e rows es he _ ih =>
    obtain ⟨key, value⟩ := e
    obtain ⟨hkeys, hvalues⟩ := he
    rw [List.map_cons, further, List.flatMap_cons, entryRow, List.cons_append,
      List.append_assoc, List.cons_append] at hts
    obtain ⟨comma, entry, rfl, hentry⟩ := exists_cons_of_lexemes hts
    obtain ⟨first, tail, rfl, hfirst, htail⟩ := List.map_eq_append_iff.1 hentry
    obtain ⟨colon, last, rfl, hlast⟩ := exists_cons_of_lexemes htail
    obtain ⟨second, more, rfl, hsecond, hmore⟩ := List.map_eq_append_iff.1 hlast
    simp only [List.length_cons, List.length_append] at hcalls
    obtain ⟨m, rfl⟩ : ∃ m, n = m + 1 := ⟨n - 1, by omega⟩
    have hnext := follows_further hmore hrest
    have hclose : accept? (.op "\x7d") (first ++ ⟨.op ":", colon⟩ :: (second ++ (more ++ rest))) =
        none := hkeys.opens.accept? hfirst (by decide)
    have hkey : parseTest stop (m + 1) (first ++ ⟨.op ":", colon⟩ :: (second ++ (more ++ rest))) =
        .ok (key, ⟨.op ":", colon⟩ :: (second ++ (more ++ rest))) :=
      hkeys.read hfirst (next_cons (by decide) _ _) (by omega)
    have hvalue : parseTest stop (m + 1) (second ++ (more ++ rest)) = .ok (value, more ++ rest) :=
      hvalues.read hsecond (hnext.ends (by decide)) (by omega)
    have hothers : entriesRest stop (m + 1) (more ++ rest) = .ok (es, rest) :=
      ih hmore (by omega)
    simp only [List.cons_append, List.append_assoc]
    rw [entriesRest]
    simp only [accept?_self, hclose, hkey, ok_bind, expectOp, hvalue, hothers]
    rfl

/-- The first entry of a dict is read, and then the others up to what closes it. -/
theorem exists_entries (stop n : Nat) {row : List Lexeme × List Lexeme}
    {rows : List (List Lexeme × List Lexeme)} {entry : Term × Term} {es : List (Term × Term)}
    (he : EntryBack row entry) (hes : List.Forall₂ EntryBack rows es)
    (hts : ts.map Token.lexeme = separated ((row :: rows).map entryRow))
    (hrest : Follows closers rest) (hcalls : 16 * ts.length ≤ n) :
    ∃ position tail more, accept? (.op "\x7d") (ts ++ rest) = none ∧
      parseTest stop (n + 1) (ts ++ rest) = .ok (entry.1, ⟨.op ":", position⟩ :: tail) ∧
        parseTest stop (n + 1) tail = .ok (entry.2, more) ∧ accept? (.name "for") more = none ∧
          entriesRest stop (n + 1) more = .ok (es, rest) := by
  obtain ⟨hkeys, hvalues⟩ := he
  rw [List.map_cons, separated, entryRow, List.append_assoc, List.cons_append] at hts
  obtain ⟨first, last, rfl, hfirst, hentry⟩ := List.map_eq_append_iff.1 hts
  obtain ⟨position, last, rfl, hlast⟩ := exists_cons_of_lexemes hentry
  obtain ⟨second, others, rfl, hsecond, hothers⟩ := List.map_eq_append_iff.1 hlast
  simp only [List.length_append, List.length_cons] at hcalls
  have hnext := follows_further hothers hrest
  simp only [List.append_assoc, List.cons_append]
  refine ⟨position, second ++ (others ++ rest), others ++ rest,
    hkeys.opens.accept? hfirst (by decide), ?_, ?_, hnext.accept? (by decide), ?_⟩
  · exact hkeys.read hfirst (next_cons (by decide) _ _) (by omega)
  · exact hvalues.read hsecond (hnext.ends (by decide)) (by omega)
  · exact entriesRest_further hes hothers hrest (by omega)

/-! ### Displays of terms -/

theorem furtherElements_eq (es : List Term) :
    furtherElements es = further (es.map Term.lexemes) := by
  induction es with
  | nil => rfl
  | cons e es ih => rw [furtherElements, ih]; rfl

theorem elementLexemes_eq (es : List Term) :
    elementLexemes es = separated (es.map Term.lexemes) := by
  cases es with
  | nil => rfl
  | cons e es => rw [elementLexemes, furtherElements_eq]; rfl

/-- The lexemes of the key and of the value of an entry. -/
def entryRows (entry : Term × Term) : List Lexeme × List Lexeme :=
  (entry.1.lexemes, entry.2.lexemes)

theorem furtherEntries_eq (es : List (Term × Term)) :
    furtherEntries es = further ((es.map entryRows).map entryRow) := by
  induction es with
  | nil => rfl
  | cons e es ih =>
    obtain ⟨key, value⟩ := e
    rw [furtherEntries, ih]
    simp [further, entryRow, entryRows]

theorem entryLexemes_eq (es : List (Term × Term)) :
    entryLexemes es = separated ((es.map entryRows).map entryRow) := by
  cases es with
  | nil => rfl
  | cons e es =>
    obtain ⟨key, value⟩ := e
    rw [entryLexemes, furtherEntries_eq]
    simp [separated, entryRow, entryRows]

theorem forall₂_recovered {es : List Term} (h : ∀ e ∈ es, Recovered e) :
    List.Forall₂ ReadBack (es.map Term.lexemes) es :=
  List.forall₂_map_left_iff.2 (List.forall₂_same.2 h)

theorem forall₂_entries {es : List (Term × Term)} (hkeys : ∀ e ∈ es, Recovered e.1)
    (hvalues : ∀ e ∈ es, Recovered e.2) : List.Forall₂ EntryBack (es.map entryRows) es :=
  List.forall₂_map_left_iff.2 (List.forall₂_same.2 fun e he => ⟨hkeys e he, hvalues e he⟩)

/-! ### Chains of comparisons -/

/-- A comparison operator is found by its one or two lexemes. -/
theorem comparison?_op (op : CompareOp) (hts : ts.map Token.lexeme = op.lexemes) :
    comparison? (ts ++ rest) = some (op, rest) := by
  cases op with
  | notIn =>
    obtain ⟨p, tail, rfl, htail⟩ := exists_cons_of_lexemes hts
    obtain ⟨q, none, rfl, hnone⟩ := exists_cons_of_lexemes htail
    cases List.map_eq_nil_iff.1 hnone
    rfl
  | _ =>
    obtain ⟨p, tail, rfl, htail⟩ := exists_cons_of_lexemes hts
    cases List.map_eq_nil_iff.1 htail
    rfl

/-- After an operand of a chain comes the next operator or what ends the chain. -/
theorem ends_links (links : List (CompareOp × Term)) (hts : ts.map Token.lexeme = linkLexemes links)
    (hrest : Ends .comparison rest) : Ends .sum (ts ++ rest) := by
  refine Next.append hts (fun l hl => ?_) (hrest.mono (by decide))
  cases links with
  | nil => cases hl
  | cons link links =>
    obtain ⟨op, term⟩ := link
    cases op <;> cases hl <;> decide

theorem linkLexemes_ne_nil {links : List (CompareOp × Term)} (h : links ≠ []) :
    linkLexemes links ≠ [] := by
  obtain ⟨⟨op, term⟩, others, rfl⟩ := List.exists_cons_of_ne_nil h
  rw [linkLexemes]
  cases op <;> exact List.cons_ne_nil _ _

theorem comparisonRest_links {links : List (CompareOp × Term)}
    (hlinks : ∀ link ∈ links, Recovered link.2) (hts : ts.map Token.lexeme = linkLexemes links)
    (hrest : Ends .comparison rest) (hcalls : 16 * ts.length ≤ n) :
    comparisonRest stop (n + 1) (ts ++ rest) = .ok (links, rest) := by
  induction links generalizing n ts with
  | nil =>
    rw [linkLexemes] at hts
    cases List.map_eq_nil_iff.1 hts
    rw [List.nil_append, comparisonRest]
    simp only [hrest.comparison?]
  | cons link links ih =>
    obtain ⟨op, term⟩ := link
    rw [linkLexemes] at hts
    obtain ⟨sign, tail, rfl, hsign, htail⟩ := List.map_eq_append_iff.1 hts
    obtain ⟨operand, more, rfl, hoperand, hmore⟩ := List.map_eq_append_iff.1 htail
    rw [List.forall_mem_cons] at hlinks
    simp only [List.length_append] at hcalls
    have hpos := length_pos_of_lexemes hsign (by cases op <;> exact List.cons_ne_nil _ _)
    obtain ⟨m, rfl⟩ : ∃ m, n = m + 1 := ⟨n - 1, by omega⟩
    have hterm : Recovered term := hlinks.1
    have hread : parseArith stop (m + 1) (operand ++ (more ++ rest)) = .ok (term, more ++ rest) :=
      hterm.operand .sum stop (m + 1) hoperand (ends_links links hmore hrest) (by omega)
    have hothers : comparisonRest stop (m + 1) (more ++ rest) = .ok (links, rest) :=
      ih hlinks.2 hmore (by omega)
    rw [List.append_assoc, List.append_assoc, comparisonRest]
    simp only [comparison?_op op hsign, hread, ok_bind, hothers]
    rfl

/-! ### Clauses -/

/-- A clause has variables, and its terms are read back. -/
structure Clause.Recovered (clause : Clause) : Prop where
  named : clause.targets ≠ []
  assignable : ∀ name ∈ clause.targets, IsVariable name
  iterable : Expr.Recovered clause.iterable
  conditions : ∀ condition ∈ clause.conditions, Expr.Recovered condition

theorem Clause.recovered_of_forall {clauses : List Clause}
    (htargets : ∀ clause ∈ clauses, clause.targets ≠ [] ∧ ∀ name ∈ clause.targets, IsVariable name)
    (hiterables : ∀ clause ∈ clauses, Expr.Recovered clause.iterable)
    (hconditions : ∀ clause ∈ clauses, ∀ condition ∈ clause.conditions,
      Expr.Recovered condition) : ∀ clause ∈ clauses, clause.Recovered :=
  fun clause hc =>
    ⟨(htargets clause hc).1, (htargets clause hc).2, hiterables clause hc, hconditions clause hc⟩

theorem targetNames_assigned {names : List String} (hne : names ≠ [])
    (hnames : ∀ name ∈ names, IsVariable name) (hts : ts.map Token.lexeme = variableLexemes names)
    (hcomma : accept? (.op ",") rest = none) :
    targetNames stop (ts ++ rest) = .ok (names, rest) := by
  induction names generalizing ts with
  | nil => exact absurd rfl hne
  | cons name others ih =>
    rw [List.forall_mem_cons] at hnames
    cases others with
    | nil =>
      obtain ⟨p, tail, rfl, htail⟩ := exists_cons_of_lexemes hts
      cases List.map_eq_nil_iff.1 htail
      rw [List.cons_append, List.nil_append, targetNames, if_neg hnames.1.2]
      rintro q more rfl
      cases hcomma
    | cons second others =>
      obtain ⟨p, tail, rfl, htail⟩ := exists_cons_of_lexemes hts
      obtain ⟨q, more, rfl, hmore⟩ := exists_cons_of_lexemes htail
      have hothers := ih (List.cons_ne_nil _ _) hnames.2 hmore
      rw [List.cons_append, List.cons_append, targetNames, if_neg hnames.1.2]
      dsimp only
      rw [hothers]
      rfl

theorem targets_assigned {names : List String} (hne : names ≠ [])
    (hnames : ∀ name ∈ names, IsVariable name) (hts : ts.map Token.lexeme = variableLexemes names)
    (hcomma : accept? (.op ",") rest = none) : targets stop (ts ++ rest) = .ok (names, rest) := by
  have hopen : accept? (.op "(") (ts ++ rest) = none := by
    obtain ⟨name, others, rfl⟩ := List.exists_cons_of_ne_nil hne
    have hhead : (variableLexemes (name :: others)).head? = some (.name name) := by
      cases others <;> rfl
    cases ts with
    | nil =>
      rw [← hts] at hhead
      cases hhead
    | cons t ts =>
      rw [← hts] at hhead
      have hname : t.lexeme = .name name := Option.some.inj hhead
      refine accept?_of_ne fun t' ht' he => ?_
      cases ht'
      rw [hname] at he
      cases he
  rw [targets, hopen]
  exact targetNames_assigned hne hnames hts hcomma

/-- After an operand in a clause comes a condition, a clause, or what closes the display. -/
theorem ends_conditions (conditions : List Term)
    (hts : ts.map Token.lexeme = conditionLexemes conditions)
    (hrest : Follows (.name "for" :: closers) rest) : Ends .either (ts ++ rest) := by
  refine Next.append hts (fun l hl => ?_) (hrest.ends (by decide))
  cases conditions with
  | nil => cases hl
  | cons condition conditions =>
    cases hl
    decide

/-- After a clause comes another one, or what closes the display. -/
theorem follows_clauses (clauses : List Clause)
    (hts : ts.map Token.lexeme = clauseLexemes clauses) (hrest : Follows closers rest) :
    Follows (.name "for" :: closers) (ts ++ rest) := by
  refine Next.append hts (fun l hl => ?_) fun t ht => List.mem_cons_of_mem _ (hrest t ht)
  cases clauses with
  | nil => cases hl
  | cons clause clauses =>
    obtain ⟨names, iterable, conditions⟩ := clause
    cases hl
    exact List.mem_cons_self

theorem parseConditions_conditions {conditions : List Term}
    (hconditions : ∀ condition ∈ conditions, Recovered condition)
    (hts : ts.map Token.lexeme = conditionLexemes conditions)
    (hrest : Follows (.name "for" :: closers) rest) (hcalls : 16 * ts.length ≤ n) :
    parseConditions stop (n + 1) (ts ++ rest) = .ok (conditions, rest) := by
  induction conditions generalizing n ts with
  | nil =>
    rw [conditionLexemes] at hts
    cases List.map_eq_nil_iff.1 hts
    have hif : accept? (.name "if") rest = none := hrest.accept? (by decide)
    rw [List.nil_append, parseConditions]
    simp only [hif]
  | cons condition conditions ih =>
    rw [conditionLexemes] at hts
    obtain ⟨p, tail, rfl, htail⟩ := exists_cons_of_lexemes hts
    obtain ⟨operand, more, rfl, hoperand, hmore⟩ := List.map_eq_append_iff.1 htail
    rw [List.forall_mem_cons] at hconditions
    simp only [List.length_cons, List.length_append] at hcalls
    obtain ⟨m, rfl⟩ : ∃ m, n = m + 1 := ⟨n - 1, by omega⟩
    have hread : parseOr stop (m + 1) (operand ++ (more ++ rest)) = .ok (condition, more ++ rest) :=
      hconditions.1.operand .either stop (m + 1) hoperand (ends_conditions conditions hmore hrest)
        (by omega)
    have hothers : parseConditions stop (m + 1) (more ++ rest) = .ok (conditions, rest) :=
      ih hconditions.2 hmore (by omega)
    rw [List.cons_append, List.append_assoc, parseConditions]
    simp only [accept?_self, hread, ok_bind, hothers]
    rfl

theorem parseClauses_clauses {clauses : List Clause}
    (hclauses : ∀ clause ∈ clauses, clause.Recovered)
    (hts : ts.map Token.lexeme = clauseLexemes clauses)
    (hrest : Follows closers rest) (hcalls : 16 * ts.length ≤ n) :
    parseClauses stop (n + 1) (ts ++ rest) = .ok (clauses, rest) := by
  induction clauses generalizing n ts with
  | nil =>
    rw [clauseLexemes] at hts
    cases List.map_eq_nil_iff.1 hts
    have hfor : accept? (.name "for") rest = none := hrest.accept? (by decide)
    rw [List.nil_append, parseClauses]
    simp only [hfor]
  | cons clause clauses ih =>
    obtain ⟨names, iterable, conditions⟩ := clause
    rw [clauseLexemes] at hts
    obtain ⟨p, head, rfl, hhead⟩ := exists_cons_of_lexemes hts
    obtain ⟨assigned, tail, rfl, hassigned, htail⟩ := List.map_eq_append_iff.1 hhead
    obtain ⟨q, source, rfl, hsource⟩ := exists_cons_of_lexemes htail
    obtain ⟨operand, last, rfl, hoperand, hlast⟩ := List.map_eq_append_iff.1 hsource
    obtain ⟨filters, more, rfl, hfilters, hmore⟩ := List.map_eq_append_iff.1 hlast
    rw [List.forall_mem_cons] at hclauses
    obtain ⟨⟨hne, hnames, hiterable, hconditions⟩, hlater⟩ := hclauses
    simp only [List.length_cons, List.length_append] at hcalls
    obtain ⟨m, rfl⟩ : ∃ m, n = m + 1 := ⟨n - 1, by omega⟩
    have hnext := follows_clauses clauses hmore hrest
    have htargets (after : List Token) : targets stop (assigned ++ ⟨.name "in", q⟩ :: after) =
        .ok (names, ⟨.name "in", q⟩ :: after) := targets_assigned hne hnames hassigned rfl
    have hover : parseOr stop (m + 1) (operand ++ (filters ++ (more ++ rest))) =
        .ok (iterable, filters ++ (more ++ rest)) :=
      hiterable.operand .either stop (m + 1) hoperand (ends_conditions conditions hfilters hnext)
        (by omega)
    have hasked : parseConditions stop (m + 1) (filters ++ (more ++ rest)) =
        .ok (conditions, more ++ rest) :=
      parseConditions_conditions hconditions hfilters hnext (by omega)
    have hothers : parseClauses stop (m + 1) (more ++ rest) = .ok (clauses, rest) :=
      ih hlater hmore (by omega)
    simp only [List.cons_append, List.append_assoc]
    rw [parseClauses]
    simp only [accept?_self, htargets, ok_bind, hover, hasked, hothers]
    rfl

/-- After the value of a comprehension come its clauses, up to what closes it. -/
theorem exists_clauses (stop n : Nat) {clauses : List Clause} (hne : clauses ≠ [])
    (hclauses : ∀ clause ∈ clauses, clause.Recovered)
    (hts : ts.map Token.lexeme = clauseLexemes clauses) (hrest : Follows closers rest)
    (hcalls : 16 * ts.length ≤ n) :
    Ends .test (ts ++ rest) ∧ (∃ more, accept? (.name "for") (ts ++ rest) = some more) ∧
      parseClauses stop (n + 1) (ts ++ rest) = .ok (clauses, rest) := by
  refine ⟨(follows_clauses clauses hts hrest).ends (by decide), ?_,
    parseClauses_clauses hclauses hts hrest hcalls⟩
  obtain ⟨⟨names, iterable, conditions⟩, others, rfl⟩ := List.exists_cons_of_ne_nil hne
  rw [clauseLexemes] at hts
  obtain ⟨p, tail, rfl, -⟩ := exists_cons_of_lexemes hts
  exact ⟨_, accept?_self _ _ _⟩

end EnergyPlan.Expr
