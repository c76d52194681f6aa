/-
# Texts that denote a value

A text denotes a value if it writes a row of lexemes that is read back as a term, and this term
has the value in every scope. The words of the constants denote them, a text in quotes denotes the
string, and a number denotes its value as a literal, unless it starts with its point. Displays
denote lists and maps, if their parts denote the items, keys and values. What denotes a value is
evaluated to it, whatever the tree.

Key definitions: `Denotes`, `EntryDenotes`, `insertAll`.
Key theorems: `denotes_numeral`, `denotes_list`, `denotes_map`, `Denotes.evaluate`.
-/
import EnergyPlan.Proofs.Loops.Frames
import EnergyPlan.Proofs.Signed
import EnergyPlan.Proofs.Syntax.Recovery
import EnergyPlan.Proofs.Syntax.Writing

namespace EnergyPlan.Expr

open Decimal Text

/-- A text writes a term that has a value in every scope. -/
inductive Denotes (cs : List Char) (v : Value) : Prop where
  | intro {ls : List Lexeme} {t : Term} (writes : Writes cs ls) (reads : ReadBack ls t)
      (value : ∀ scope, t.eval scope = .ok v) : Denotes cs v

variable {cs body : List Char} {s : String} {v : Value}

/-- **What denotes a value is evaluated to it,** whatever the tree. -/
theorem Denotes.evaluate (h : Denotes s.toList v) (root : Config.Node) :
    evaluate root s = .ok v := by
  obtain @⟨ls, t, hwrites, hreads, hvalue⟩ := h
  have hscans : Scans (ls ++ []) (s.toList ++ []) :=
    hwrites [] [] (fun _ hc => nomatch hc) (.blanks fun _ hc => absurd hc List.not_mem_nil)
  rw [List.append_nil, List.append_nil] at hscans
  obtain ⟨ts, htokens, hts⟩ := tokenize_scans hscans
  have hterm : Term.read s = .ok t := by rw [Term.read, htokens, ok_bind, hreads.parseAll hts]
  rw [evaluate_eq, hterm]
  exact hvalue ⟨root, []⟩

theorem Denotes.trimmed (h : Denotes (trimChars cs) v) : Denotes cs v := by
  obtain ⟨hwrites, hreads, hvalue⟩ := h
  exact ⟨hwrites.trimmed, hreads, hvalue⟩

/-! ### Constants and strings -/

theorem eval_literal (v : Value) (scope : Scope) : (Term.literal v).eval scope = .ok v := by
  rw [Term.eval]

theorem denotes_literal {l : Lexeme} (hv : v.literal? = some l) (h : Writes cs [l]) :
    Denotes cs v :=
  ⟨h, (reads_literal hv).readBack (plain_literal hv), eval_literal v⟩

theorem denotes_none : Denotes "None".toList .none :=
  denotes_literal rfl (writes_name (by decide))

theorem denotes_true : Denotes "True".toList (.bool true) :=
  denotes_literal rfl (writes_name (by decide))

theorem denotes_false : Denotes "False".toList (.bool false) :=
  denotes_literal rfl (writes_name (by decide))

theorem denotes_quoted (s : String) : Denotes (Config.quoted s).toList (.string s) :=
  denotes_literal rfl (writes_quoted s)

/-! ### Numbers -/

theorem not_blank_of_number (h : IsNumber body) : ∀ c ∈ body, isBlank c = false := by
  obtain ⟨_, hdigits, hfraction, hexponent⟩ := h
  refine List.forall_mem_append.2 ⟨fun c hc => isBlank_of_isDigit (hdigits c hc),
    List.forall_mem_append.2 ⟨?_, ?_⟩⟩
  · rcases hfraction with rfl | ⟨digits, rfl, hdigits⟩
    · exact fun _ hc => absurd hc List.not_mem_nil
    · exact List.forall_mem_cons.2 ⟨rfl, fun c hc => isBlank_of_isDigit (hdigits c hc)⟩
  · rcases hexponent with rfl | ⟨e, signs, digits, rfl, he, hsigns, -, hdigits⟩
    · exact fun _ hc => absurd hc List.not_mem_nil
    · have hsign : ∀ c ∈ signs, isBlank c = false := by
        simp only [List.mem_cons, List.not_mem_nil, or_false] at hsigns
        rcases hsigns with rfl | rfl | rfl
        · exact fun _ hc => absurd hc List.not_mem_nil
        · exact List.forall_mem_singleton.2 rfl
        · exact List.forall_mem_singleton.2 rfl
      refine List.forall_mem_cons.2 ⟨?_, List.forall_mem_append.2 ⟨hsign, ?_⟩⟩
      · rcases he with rfl | rfl <;> rfl
      · exact fun c hc => isBlank_of_isDigit (hdigits c hc)

/-- No sign stands before a number, and no blanks stand around it. -/
theorem sign_number (h : IsNumber body) :
    sign (trimChars (String.ofList body).toList) = (false, body) := by
  rw [String.toList_ofList, trimChars_of_not_blank (not_blank_of_number h)]
  obtain ⟨c, tail, rfl, hdigit⟩ := h.exists_digit
  unfold sign
  split
  · next heq =>
    cases heq
    exact absurd hdigit (by decide)
  · next heq =>
    cases heq
    exact absurd hdigit (by decide)
  · rfl

theorem reads_number (h : IsNumber body) (hreal : (real (String.ofList body)).isSome = true) :
    Reads .atom [.number (String.ofList body)] (.literal (.ofPlain (String.ofList body))) := by
  refine reads_of_calls (List.cons_ne_nil _ _) fun stop n ts rest hts _ _ => ?_
  obtain ⟨p, none, rfl, hnone⟩ := exists_cons_of_lexemes hts
  cases List.map_eq_nil_iff.1 hnone
  obtain ⟨x, hx⟩ := Option.isSome_iff_exists.1 hreal
  simp only [Level.parse, List.cons_append, List.nil_append]
  rw [parseAtom]
  dsimp only
  rw [numberLiteral, String.toList_ofList]
  cases hinteger : integer (String.ofList body) with
  | none =>
    rw [ite_self, hx, ofPlain_of_real hinteger hx]
  | some k =>
    obtain ⟨negative, digits, hsign, -, hdigits, -⟩ := exists_digits_of_integer hinteger
    cases (sign_number h).symm.trans hsign
    rw [not_marked_of_digits hdigits, if_neg Bool.false_ne_true, ofPlain_of_integer hinteger]

theorem denotes_unsigned (h : IsNumber body) (hreal : (real (String.ofList body)).isSome = true) :
    Denotes body (.ofPlain (String.ofList body)) :=
  ⟨writes_number h, (reads_number h hreal).readBack (plain_number _), eval_literal _⟩

/-- A sign before a number is applied to it. -/
theorem denotes_signed {op : UnaryOp} (hop : op ≠ .not) {c : Char} (hc : c ∈ loneSigns)
    (hlexeme : op.lexeme = .op (String.singleton c)) (h : IsNumber body)
    (hreal : (real (String.ofList body)).isSome = true)
    (hv : unaryOperation op (.ofPlain (String.ofList body)) = .ok v) : Denotes (c :: body) v := by
  have hnumber := (reads_number h hreal).loosen (starts_atom (plain_number _) [])
    (show Level.factor.rank ≤ Level.atom.rank by decide)
  have hsigned : ReadBack [op.lexeme, .number (String.ofList body)]
      (.unary op (.literal (.ofPlain (String.ofList body)))) := by
    cases op with
    | not => exact absurd rfl hop
    | plus => exact ⟨(reads_signed hnumber fun _ _ => rfl).loosen ⟨_, _, rfl, by decide⟩
        (Nat.zero_le _), _, _, rfl, by decide⟩
    | minus => exact ⟨(reads_signed hnumber fun _ _ => rfl).loosen ⟨_, _, rfl, by decide⟩
        (Nat.zero_le _), _, _, rfl, by decide⟩
  rw [hlexeme] at hsigned
  refine ⟨(writes_number h).sign hc, hsigned, fun scope => ?_⟩
  rw [Term.eval, eval_literal, ok_bind, hv]

/-- A sign or none, and what stands behind it. -/
theorem sign_cases (cs : List Char) : sign cs = (false, cs) ∨
    (∃ body, cs = '+' :: body ∧ sign cs = (false, body)) ∨
      ∃ body, cs = '-' :: body ∧ sign cs = (true, body) := by
  unfold sign
  split
  · exact Or.inr (Or.inr ⟨_, rfl, rfl⟩)
  · exact Or.inr (Or.inl ⟨_, rfl, rfl⟩)
  · exact Or.inl rfl

/-- **A number denotes its value as a literal,** if no point comes first. -/
theorem denotes_numeral (hreal : (real s).isSome = true)
    (hpoint : (sign (trimChars s.toList)).2.head? ≠ some '.') :
    Denotes s.toList (literalValue s) := by
  obtain ⟨x, hx⟩ := Option.isSome_iff_exists.1 hreal
  obtain ⟨l, hread, -, -⟩ := exists_literal_of_real hx
  have hnumber := isNumber_of_read hread hpoint
  have hunsigned := sign_number hnumber
  have hbody : (real (String.ofList (sign (trimChars s.toList)).2)).isSome = true := by
    obtain ⟨_, _, _, _, hbody⟩ := real_of_sign rfl hunsigned hx
    rw [hbody]
    rfl
  refine Denotes.trimmed ?_
  rcases sign_cases (trimChars s.toList) with h | ⟨body, hcs, h⟩ | ⟨body, hcs, h⟩
  · rw [h] at hnumber hunsigned hbody
    rw [literalValue_of_plus h, ofPlain_of_sign (h.trans hunsigned.symm) hreal]
    exact denotes_unsigned hnumber hbody
  · rw [h] at hnumber hunsigned hbody
    rw [literalValue_of_plus h, ofPlain_of_sign (h.trans hunsigned.symm) hreal, hcs]
    exact denotes_signed (by decide) (by decide) rfl hnumber hbody (plus_ofPlain hbody)
  · rw [h] at hnumber hunsigned hbody
    rw [hcs]
    exact denotes_signed (by decide) (by decide) rfl hnumber hbody
      (minus_ofPlain h hunsigned hreal)

/-! ### Displays -/

/-- The parts of a list display write rows that are read back as terms with the values. -/
theorem exists_terms {texts : List (List Char)} {vs : List Value}
    (h : List.Forall₂ Denotes texts vs) :
    ∃ rows terms, List.Forall₂ Writes texts rows ∧ List.Forall₂ ReadBack rows terms ∧
      ∀ scope, evalAll terms scope = .ok vs := by
  induction h with
  | nil => exact ⟨[], [], .nil, .nil, fun _ => by rw [evalAll]⟩
  | cons hfirst _ ih =>
    obtain ⟨hwrites, hreads, hvalue⟩ := hfirst
    obtain ⟨rows, terms, hrows, hterms, hvalues⟩ := ih
    refine ⟨_ :: rows, _ :: terms, .cons hwrites hrows, .cons hreads hterms, fun scope => ?_⟩
    rw [evalAll, hvalue scope, ok_bind, hvalues scope]
    rfl

/-- **A list display denotes the list** of what its parts denote. -/
theorem denotes_list {texts : List (List Char)} {vs : List Value}
    (h : List.Forall₂ Denotes texts vs) : Denotes ('[' :: (listed texts ++ [']'])) (.list vs) := by
  obtain ⟨rows, terms, hrows, hterms, hvalues⟩ := exists_terms h
  have hwrites := (writes_listed hrows).display '[' ']' (by decide) (by decide) (by decide)
  refine ⟨hwrites, (reads_elements hterms).readBack (by decide), fun scope => ?_⟩
  rw [Term.eval, hvalues scope]
  rfl

/-- A text of a key and a value, which denotes an entry of a map. -/
inductive EntryDenotes (cs : List Char) (entry : String × Value) : Prop where
  | intro {key value : List Char} {k : Value} (text : cs = key ++ ':' :: ' ' :: value)
      (key_denotes : Denotes key k) (key_text : k.text = entry.1)
      (value_denotes : Denotes value entry.2) : EntryDenotes cs entry

/-- Puts entries into a map one after the other. -/
def insertAll (entries found : List (String × Value)) : List (String × Value) :=
  entries.foldl (fun found entry => Value.insertEntry entry.1 entry.2 found) found

theorem exists_entryTerms {texts : List (List Char)} {entries : List (String × Value)}
    (h : List.Forall₂ EntryDenotes texts entries) :
    ∃ rows terms, List.Forall₂ Writes texts (rows.map entryRow) ∧
      List.Forall₂ EntryBack rows terms ∧
        ∀ scope found, evalEntries terms found scope = .ok (insertAll entries found) := by
  induction h with
  | nil =>
    refine ⟨[], [], .nil, .nil, fun _ _ => ?_⟩
    rw [evalEntries]
    rfl
  | @cons cs entry texts entries hfirst _ ih =>
    obtain ⟨rfl, ⟨hkeyWrites, hkeyReads, hkey⟩, htext, ⟨hwrites, hreads, hvalue⟩⟩ := hfirst
    obtain ⟨rows, terms, hrows, hterms, hvalues⟩ := ih
    refine ⟨(_, _) :: rows, (_, _) :: terms, .cons (hkeyWrites.entry hwrites) hrows,
      .cons ⟨hkeyReads, hreads⟩ hterms, fun scope found => ?_⟩
    rw [evalEntries, hvalue scope, ok_bind, hkey scope, ok_bind, hvalues scope, htext]
    rfl

/-- **A dict display denotes the map** of the entries that its parts denote. -/
theorem denotes_map {texts : List (List Char)} {entries : List (String × Value)}
    (h : List.Forall₂ EntryDenotes texts entries) :
    Denotes ('\x7b' :: (listed texts ++ ['\x7d'])) (.map (insertAll entries [])) := by
  obtain ⟨rows, terms, hrows, hterms, hvalues⟩ := exists_entryTerms h
  have hwrites := (writes_listed hrows).display '\x7b' '\x7d' (by decide) (by decide) (by decide)
  refine ⟨hwrites, (reads_entries hterms).readBack (by decide), fun scope => ?_⟩
  rw [Term.eval, hvalues scope]
  rfl

end EnergyPlan.Expr
