/-
# Every term is read back

Calls, displays and comprehensions are read between their signs, if their parts are read back.
Every term that can be written is then read back as a test, by induction on how it can be
written. Together with the tokens of a text this gives the term that any spelling of it writes.

Key theorems: `Term.Writable.recovered`, `Term.read_render`.
-/
import EnergyPlan.Proofs.Syntax.Operators

namespace EnergyPlan.Expr

/-! ### Calls and displays -/

theorem reads_call {function : Function} {args : List Term} (hargs : ∀ arg ∈ args, Recovered arg) :
    Reads .atom (Term.call function args).lexemes (.call function args) := by
  have hrows := forall₂_recovered hargs
  rw [Term.lexemes, elementLexemes_eq]
  refine reads_of_calls (List.cons_ne_nil _ _) fun stop n all rest hall _ hcalls => ?_
  obtain ⟨p, tail, rfl, htail⟩ := exists_cons_of_lexemes hall
  obtain ⟨q, more, rfl, hmore⟩ := exists_cons_of_lexemes htail
  obtain ⟨ts, r, rfl, hts⟩ := exists_closed_of_lexemes hmore
  simp only [List.length_append, List.length_cons, List.length_nil] at hcalls
  simp only [Level.parse, List.append_assoc, List.cons_append, List.nil_append]
  rw [parseAtom]
  dsimp only
  rw [parseName_function, parseArguments]
  generalize args.map Term.lexemes = rows at hrows hts
  cases hrows with
  | nil =>
    cases List.map_eq_nil_iff.1 hts
    simp only [List.nil_append, accept?_self]
  | cons harg hothers =>
    have hparenthesis : Lexeme.op ")" ∈ closers := by decide
    have hcloses : Follows closers (⟨.op ")", r⟩ :: rest) := next_cons hparenthesis r rest
    obtain ⟨others, hclose, hread, hfor, hrest⟩ :=
      exists_elements stop (n + 1) hparenthesis harg hothers hts hcloses (by omega)
    simp only [hclose, hread, ok_bind, hfor, hrest, expectOp, accept?_self]
    rfl

/-- Rows that are read back are read in brackets as a list. -/
theorem reads_elements {rows : List (List Lexeme)} {elements : List Term}
    (h : List.Forall₂ ReadBack rows elements) :
    Reads .atom (.op "[" :: (separated rows ++ [.op "]"])) (.list elements) := by
  refine reads_of_calls (List.cons_ne_nil _ _) fun stop n all rest hall _ hcalls => ?_
  obtain ⟨p, tail, rfl, htail⟩ := exists_cons_of_lexemes hall
  obtain ⟨ts, q, rfl, hts⟩ := exists_closed_of_lexemes htail
  simp only [List.length_append, List.length_cons, List.length_nil] at hcalls
  simp only [Level.parse, List.append_assoc, List.cons_append, List.nil_append]
  rw [parseAtom]
  dsimp only
  rw [parseBracket]
  cases h with
  | nil =>
    cases List.map_eq_nil_iff.1 hts
    simp only [List.nil_append, accept?_self]
  | cons he hes =>
    have hbracket : Lexeme.op "]" ∈ closers := by decide
    have hcloses : Follows closers (⟨.op "]", q⟩ :: rest) := next_cons hbracket q rest
    obtain ⟨others, hclose, hread, hfor, hothers⟩ :=
      exists_elements stop (n + 2) hbracket he hes hts hcloses (by omega)
    simp only [hclose, hread, ok_bind, hfor, hothers, expectOp, accept?_self]
    rfl

theorem reads_list {elements : List Term} (helements : ∀ e ∈ elements, Recovered e) :
    Reads .atom (Term.list elements).lexemes (.list elements) := by
  rw [Term.lexemes, elementLexemes_eq]
  exact reads_elements (forall₂_recovered helements)

/-- Rows of entries that are read back are read in braces as a dict. -/
theorem reads_entries {rows : List (List Lexeme × List Lexeme)} {entries : List (Term × Term)}
    (h : List.Forall₂ EntryBack rows entries) :
    Reads .atom (.op "\x7b" :: (separated (rows.map entryRow) ++ [.op "\x7d"]))
      (.dict entries) := by
  refine reads_of_calls (List.cons_ne_nil _ _) fun stop n all rest hall _ hcalls => ?_
  obtain ⟨p, tail, rfl, htail⟩ := exists_cons_of_lexemes hall
  obtain ⟨ts, q, rfl, hts⟩ := exists_closed_of_lexemes htail
  simp only [List.length_append, List.length_cons, List.length_nil] at hcalls
  simp only [Level.parse, List.append_assoc, List.cons_append, List.nil_append]
  rw [parseAtom]
  dsimp only
  rw [parseBrace]
  cases h with
  | nil =>
    cases List.map_eq_nil_iff.1 hts
    simp only [List.nil_append, accept?_self]
  | cons he hes =>
    have hcloses : Follows closers (⟨.op "\x7d", q⟩ :: rest) := next_cons (by decide) q rest
    obtain ⟨colon, tail, others, hclose, hkey, hvalue, hfor, hothers⟩ :=
      exists_entries stop (n + 2) he hes hts hcloses (by omega)
    simp only [hclose, hkey, hvalue, ok_bind, hfor, hothers, expectOp, accept?_self]
    rfl

theorem reads_dict {entries : List (Term × Term)} (hkeys : ∀ e ∈ entries, Recovered e.1)
    (hvalues : ∀ e ∈ entries, Recovered e.2) :
    Reads .atom (Term.dict entries).lexemes (.dict entries) := by
  rw [Term.lexemes, entryLexemes_eq]
  exact reads_entries (forall₂_entries hkeys hvalues)

theorem reads_listOver {value : Term} {clauses : List Clause} (hvalue : Recovered value)
    (hne : clauses ≠ []) (hclauses : ∀ clause ∈ clauses, clause.Recovered) :
    Reads .atom (Term.listOver value clauses).lexemes (.listOver value clauses) := by
  rw [Term.lexemes]
  refine reads_of_calls (List.cons_ne_nil _ _) fun stop n all rest hall _ hcalls => ?_
  obtain ⟨p, tail, rfl, htail⟩ := exists_cons_of_lexemes hall
  obtain ⟨ts, more, rfl, hts, hmore⟩ := List.map_eq_append_iff.1 htail
  obtain ⟨loops, q, rfl, hloops⟩ := exists_closed_of_lexemes hmore
  simp only [List.length_append, List.length_cons, List.length_nil] at hcalls
  have hcloses : Follows closers (⟨.op "]", q⟩ :: rest) := next_cons (by decide) q rest
  obtain ⟨hends, ⟨body, hfor⟩, hread⟩ :=
    exists_clauses stop (n + 2) hne hclauses hloops hcloses (by omega)
  have hclose : accept? (.op "]") (ts ++ (loops ++ ⟨.op "]", q⟩ :: rest)) = none :=
    hvalue.opens.accept? hts (by decide)
  have hfirst : parseTest stop (n + 3) (ts ++ (loops ++ ⟨.op "]", q⟩ :: rest)) = .ok (value, _) :=
    hvalue.read hts hends (by omega)
  simp only [Level.parse, List.append_assoc, List.cons_append, List.nil_append]
  rw [parseAtom]
  dsimp only
  rw [parseBracket]
  simp only [hclose, hfirst, ok_bind, hfor, hread, expectOp, accept?_self]
  rfl

theorem reads_dictOver {key value : Term} {clauses : List Clause} (hkey : Recovered key)
    (hvalue : Recovered value) (hne : clauses ≠ [])
    (hclauses : ∀ clause ∈ clauses, clause.Recovered) :
    Reads .atom (Term.dictOver key value clauses).lexemes (.dictOver key value clauses) := by
  rw [Term.lexemes]
  refine reads_of_calls (List.cons_ne_nil _ _) fun stop n all rest hall _ hcalls => ?_
  obtain ⟨p, tail, rfl, htail⟩ := exists_cons_of_lexemes hall
  obtain ⟨first, entry, rfl, hfirst, hentry⟩ := List.map_eq_append_iff.1 htail
  obtain ⟨colon, result, rfl, hresult⟩ := exists_cons_of_lexemes hentry
  obtain ⟨second, more, rfl, hsecond, hmore⟩ := List.map_eq_append_iff.1 hresult
  obtain ⟨loops, q, rfl, hloops⟩ := exists_closed_of_lexemes hmore
  simp only [List.length_append, List.length_cons, List.length_nil] at hcalls
  have hcloses : Follows closers (⟨.op "\x7d", q⟩ :: rest) := next_cons (by decide) q rest
  obtain ⟨hends, ⟨body, hfor⟩, hread⟩ :=
    exists_clauses stop (n + 2) hne hclauses hloops hcloses (by omega)
  simp only [Level.parse, List.append_assoc, List.cons_append, List.nil_append]
  generalize loops ++ ⟨.op "\x7d", q⟩ :: rest = more at hends hfor hread ⊢
  have hclose : accept? (.op "\x7d") (first ++ ⟨.op ":", colon⟩ :: (second ++ more)) = none :=
    hkey.opens.accept? hfirst (by decide)
  have hname : parseTest stop (n + 3) (first ++ ⟨.op ":", colon⟩ :: (second ++ more)) =
      .ok (key, _) :=
    hkey.read hfirst (next_cons (by decide) _ _) (by omega)
  have hbody : parseTest stop (n + 3) (second ++ more) = .ok (value, more) :=
    hvalue.read hsecond hends (by omega)
  rw [parseAtom]
  dsimp only
  rw [parseBrace]
  simp only [hclose, hname, hbody, ok_bind, hfor, hread, expectOp, accept?_self]
  rfl

/-! ### Every term -/

/-- **Every term that can be written is read back.** -/
theorem Term.Writable.recovered {t : Term} (h : t.Writable) : Recovered t := by
  induction h with
  | @literal value hvalue =>
    obtain ⟨l, hl⟩ := Option.isSome_iff_exists.1 hvalue
    have hlexemes : (Term.literal value).lexemes = [l] := by
      rw [Term.lexemes, hl]
      rfl
    have hreads := reads_literal hl
    rw [← hlexemes] at hreads
    exact hreads.recovered_of_plain hlexemes (plain_literal hl)
  | name hhead _ =>
    exact (reads_name hhead).recovered_of_plain (by rw [Term.lexemes]) (plain_name hhead.2)
  | @unary op _ _ ih => exact recovered_unary op ih
  | @binary op _ _ _ _ hleft hright => exact recovered_binary op hleft hright
  | compare _ hne _ hfirst hlinks =>
    exact (reads_compare hfirst hne hlinks).recovered_of_plain (by rw [Term.lexemes]; rfl)
      (by decide)
  | both _ _ hleft hright =>
    exact (reads_both hleft hright).recovered_of_plain (by rw [Term.lexemes]; rfl) (by decide)
  | either _ _ hleft hright =>
    exact (reads_either hleft hright).recovered_of_plain (by rw [Term.lexemes]; rfl) (by decide)
  | conditional _ _ _ htrue hcondition hfalse =>
    exact (reads_conditional htrue hcondition hfalse).recovered_of_plain
      (by rw [Term.lexemes]; rfl) (by decide)
  | @call function _ _ hargs =>
    exact (reads_call hargs).recovered_of_plain (by rw [Term.lexemes])
      (by cases function <;> decide)
  | subscript _ _ htarget hindex =>
    exact (reads_subscript htarget hindex).recovered_of_plain (by rw [Term.lexemes]; rfl)
      (by decide)
  | list _ helements =>
    exact (reads_list helements).recovered_of_plain (by rw [Term.lexemes]) (by decide)
  | dict _ _ hkeys hvalues =>
    exact (reads_dict hkeys hvalues).recovered_of_plain (by rw [Term.lexemes]) (by decide)
  | listOver _ hne htargets _ _ hvalue hiterables hconditions =>
    have hclauses := Clause.recovered_of_forall htargets hiterables hconditions
    exact (reads_listOver hvalue hne hclauses).recovered_of_plain (by rw [Term.lexemes]) (by decide)
  | dictOver _ _ hne htargets _ _ hkey hvalue hiterables hconditions =>
    have hclauses := Clause.recovered_of_forall htargets hiterables hconditions
    exact (reads_dictOver hkey hvalue hne hclauses).recovered_of_plain (by rw [Term.lexemes])
      (by decide)

/-- A row that is read back is all that is read of its tokens. -/
theorem ReadBack.parseAll {ls : List Lexeme} {t : Term} (h : ReadBack ls t) {stop : Nat}
    {ts : List Token} (hts : ts.map Token.lexeme = ls) : parseAll stop ts = .ok t := by
  have hread : parseTest stop (callBudget ts) (ts ++ []) = .ok (t, []) :=
    h.read hts (fun _ ht => by cases ht) (by unfold callBudget; omega)
  rw [List.append_nil] at hread
  rw [Expr.parseAll, hread, ok_bind]
  rfl

/-- **Reading recovers every term that can be written from its text,** and from every other text
that spells the same lexemes, with other blanks between them and other quotes and escapes in
strings. -/
theorem Term.read_render {t : Term} (h : t.Writable) :
    Term.read t.render = .ok t ∧
      ∀ text : String, Spells t.lexemes text.toList → Term.read text = .ok t := by
  have hread (text : String) (hs : Spells t.lexemes text.toList) : Term.read text = .ok t := by
    obtain ⟨ts, htokens, hts⟩ := tokenize_spells hs
    rw [Term.read, htokens, ok_bind, h.recovered.parseAll hts]
  exact ⟨hread _ (spells_render h), hread⟩

/-- A comprehension over pairs, with a chain of comparisons in a conditional and a string in need of
escapes. -/
def samplePairs : Term :=
  .listOver
    (.conditional (.name "x" [])
      (.compare (.name "x" []) [(.notIn, .name "seen" ["if"]), (.less, .literal (.int 9))])
      (.unary .minus (.literal (.string "a\"b\\c"))))
    [.mk ["x", "y"] (.call .zip [.list [.name "n" []], .dict []]) [.unary .not (.name "y" [])]]

theorem samplePairs_writable : samplePairs.Writable := by
  have hname (name : String) (rest : List String) (h : IsVariable name)
      (hrest : ∀ segment ∈ rest, isIdentifier segment.toList = true) :
      (Term.name name rest).Writable := .name h hrest
  have hx := hname "x" [] (by decide) (by decide)
  have hn := hname "n" [] (by decide) (by decide)
  have hy := hname "y" [] (by decide) (by decide)
  have hseen := hname "seen" ["if"] (by decide) (by decide)
  have hlinks : ∀ link ∈ [(CompareOp.notIn, Term.name "seen" ["if"]),
      (.less, .literal (.int 9))], link.2.Writable :=
    List.forall_mem_cons.2 ⟨hseen, List.forall_mem_singleton.2 (.literal (by decide))⟩
  have hargs : ∀ arg ∈ [Term.list [.name "n" []], .dict []], arg.Writable :=
    List.forall_mem_cons.2 ⟨.list (List.forall_mem_singleton.2 hn),
      List.forall_mem_singleton.2 (.dict (by simp) (by simp))⟩
  refine .listOver (.conditional hx (.compare hx (by simp) hlinks) (.unary (.literal rfl)))
    (by simp) ?_ ?_ ?_
  · exact List.forall_mem_singleton.2 ⟨by decide, by decide⟩
  · exact List.forall_mem_singleton.2 (.call hargs)
  · exact List.forall_mem_singleton.2 (List.forall_mem_singleton.2 (.unary hy))

theorem read_render_pairs : samplePairs.Writable ∧
    samplePairs.render = "[ ( x ) if ( ( x ) not in ( seen . if ) < ( 9 ) ) else " ++
      "( - ( \"a\\\"b\\\\c\" ) ) for x , y in ( zip ( [ n ] , \x7b \x7d ) ) if ( not ( y ) ) ] " ∧
    Term.read samplePairs.render = .ok samplePairs :=
  ⟨samplePairs_writable, by decide +kernel, (Term.read_render samplePairs_writable).1⟩

end EnergyPlan.Expr
