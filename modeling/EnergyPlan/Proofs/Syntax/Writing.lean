/-
# Texts that write rows

A text writes a row of lexemes if it is scanned as that row wherever it stands before a blank, a
comma, a colon or what closes a display: none of these runs on from a lexeme. Numbers, strings and
names write themselves, a sign may stand before a text and brackets around it, and texts with
commas between them write their rows with commas between them.

Key definitions: `Closed`, `Writes`, `listed`.
Key theorems: `writes_number`, `writes_quoted`, `Writes.trimmed`, `Writes.display`,
`writes_listed`, `Writes.entry`.
-/
import EnergyPlan.Proofs.Syntax.Loops
import EnergyPlan.Config.Render

namespace EnergyPlan.Expr

open Text

/-- The characters that may come after a literal. -/
def closes (c : Char) : Bool := isBlank c || [',', ':', ']', '\x7d'].contains c

/-- A literal may end before a text. -/
def Closed (rest : List Char) : Prop := ∀ c ∈ rest.head?, closes c = true

/-- A text is scanned as a row of lexemes, if it ends before what may come after a literal. -/
def Writes (cs : List Char) (ls : List Lexeme) : Prop :=
  ∀ more rest, Closed rest → Scans more rest → Scans (ls ++ more) (cs ++ rest)

variable {c : Char} {blanks cs rest : List Char} {l : Lexeme} {ls : List Lexeme}

/-! ### What may come after a literal -/

theorem endsNumber_of_closes (h : closes c = true) : EndsNumber c := by
  rw [closes, Bool.or_eq_true] at h
  rcases h with hblank | hsign
  · have hsmall := toNat_of_isBlank hblank
    refine ⟨Bool.eq_false_iff.2 fun hdigit => ?_, ?_⟩
    · have hlarge := toNat_of_isDigit hdigit
      omega
    · refine ⟨?_, ?_, ?_⟩ <;> rintro rfl <;> exact absurd hsmall (by decide)
  · have hall : [',', ':', ']', '\x7d'].all (fun d => decide (EndsNumber d)) = true := by decide
    exact of_decide_eq_true (List.all_eq_true.1 hall c (List.contains_iff_mem.1 hsign))

theorem continuesName_of_closes (h : closes c = true) : continuesName c = false := by
  rw [closes, Bool.or_eq_true] at h
  rcases h with hblank | hsign
  · refine Bool.eq_false_iff.2 fun hname => ?_
    rw [isBlank_of_continuesName hname] at hblank
    cases hblank
  · have hall : [',', ':', ']', '\x7d'].all (fun d => !continuesName d) = true := by decide
    rw [← Bool.not_eq_true']
    exact List.all_eq_true.1 hall c (List.contains_iff_mem.1 hsign)

theorem closed_append (hblanks : ∀ b ∈ blanks, isBlank b = true) (h : Closed rest) :
    Closed (blanks ++ rest) := by
  cases blanks with
  | nil => exact h
  | cons b blanks =>
    rintro c hc
    cases hc
    rw [closes, hblanks b List.mem_cons_self, Bool.true_or]

/-! ### One lexeme -/

/-- Blanks before a text change nothing. -/
theorem Scans.blanksBefore (hblanks : ∀ b ∈ blanks, isBlank b = true) (h : Scans ls rest) :
    Scans ls (blanks ++ rest) := by
  cases h with
  | blanks hrest => exact .blanks (List.forall_mem_append.2 ⟨hblanks, hrest⟩)
  | lexeme hfront hc hscan hmore =>
    rw [← List.append_assoc]
    exact .lexeme (List.forall_mem_append.2 ⟨hblanks, hfront⟩) hc hscan hmore

/-- A spelled lexeme is scanned before what does not run on from it. -/
theorem Scans.spelled (hspelled : l.Spelled cs) (hapart : l.Apart rest) (h : Scans ls rest) :
    Scans (l :: ls) (cs ++ rest) := by
  obtain ⟨c, tail, rfl, hc, hscan⟩ := scanToken_spelled hspelled hapart
  exact .lexeme (fun _ hb => absurd hb List.not_mem_nil) hc hscan h

/-- The signs that are read as they stand, whatever follows. -/
def loneSigns : List Char := ['[', ']', '\x7b', '\x7d', ',', ':', '+', '-']

theorem scans_sign (hc : c ∈ loneSigns) (h : Scans ls rest) :
    Scans (.op (String.singleton c) :: ls) (c :: rest) := by
  have hall : loneSigns.all (fun c => decide ((String.singleton c).toList = [c] ∧
      c ∈ singleSigns ∧ ∀ sign ∈ doubleSigns, sign.head? ≠ some c)) = true := by decide
  obtain ⟨htext, hsign, hdouble⟩ := of_decide_eq_true (List.all_eq_true.1 hall c hc)
  have hspelled : (Lexeme.op (String.singleton c)).Spelled [c] :=
    ⟨htext.symm, Or.inr (List.mem_map_of_mem hsign)⟩
  refine Scans.spelled hspelled ?_ h
  intro d _ hmem
  rw [htext] at hmem
  exact hdouble _ hmem rfl

theorem writes_number (h : IsNumber cs) : Writes cs [.number (String.ofList cs)] := by
  intro more rest hclosed hrest
  have htext : numberText (cs ++ rest) = cs :=
    numberText_append h fun c hc => endsNumber_of_closes (hclosed c hc)
  obtain ⟨c, tail, rfl, hdigit⟩ := h.exists_digit
  have hnone : ∀ b ∈ ([] : List Char), isBlank b = true := fun _ hb => absurd hb List.not_mem_nil
  refine .lexeme hnone (isBlank_of_isDigit hdigit) (fun position => ?_) hrest
  rw [scanToken, if_pos hdigit]
  dsimp only
  rw [← List.cons_append, htext]

theorem writes_name {name : String} (h : isIdentifier name.toList = true) :
    Writes name.toList [.name name] := fun _ _ hclosed hrest =>
  .spelled ⟨rfl, h⟩ (fun c hc => continuesName_of_closes (hclosed c hc)) hrest

theorem writes_quoted (s : String) : Writes (Config.quoted s).toList [.string s] := by
  intro more rest _ hrest
  rw [Config.quoted, String.toList_ofList]
  exact .spelled (l := .string s) ⟨'\x27', _, .inl rfl, escaped_all '\x27' s.toList, rfl⟩ trivial
    hrest

/-! ### Texts put together -/

theorem Writes.sign (hc : c ∈ loneSigns) (h : Writes cs ls) :
    Writes (c :: cs) (.op (String.singleton c) :: ls) := fun more rest hclosed hrest =>
  scans_sign hc (h more rest hclosed hrest)

/-- A text without the blanks at its ends, and these blanks. -/
theorem exists_blanks (cs : List Char) : ∃ front back, cs = front ++ (trimChars cs ++ back) ∧
    (∀ b ∈ front, isBlank b = true) ∧ ∀ b ∈ back, isBlank b = true := by
  refine ⟨cs.takeWhile isBlank, ((cs.dropWhile isBlank).reverse.takeWhile isBlank).reverse, ?_,
    List.all_eq_true.1 List.all_takeWhile, fun b hb => ?_⟩
  · rw [trimChars, trimEndChars, ← List.reverse_append, List.takeWhile_append_dropWhile,
      List.reverse_reverse, List.takeWhile_append_dropWhile]
  · exact List.all_eq_true.1 List.all_takeWhile b (List.mem_reverse.1 hb)

/-- The blanks at the ends of a text change nothing. -/
theorem Writes.trimmed (h : Writes (trimChars cs) ls) : Writes cs ls := by
  intro more rest hclosed hrest
  obtain ⟨front, back, hcs, hfront, hback⟩ := exists_blanks cs
  rw [hcs, List.append_assoc, List.append_assoc]
  exact (h more (back ++ rest) (closed_append hback hclosed) (hrest.blanksBefore hback)).blanksBefore hfront

/-- Two signs around a text, of which the second closes it. -/
theorem Writes.display (opening closing : Char) (hopening : opening ∈ loneSigns)
    (hclosing : closing ∈ loneSigns) (hcloses : closes closing = true) (h : Writes cs ls) :
    Writes (opening :: (cs ++ [closing]))
      (.op (String.singleton opening) :: (ls ++ [.op (String.singleton closing)])) := by
  intro more rest _ hrest
  simp only [List.cons_append, List.append_assoc, List.nil_append]
  refine scans_sign hopening (h _ _ ?_ (scans_sign hclosing hrest))
  rintro c hc
  cases hc
  exact hcloses

/-- A text, a sign that closes it and a further text. -/
theorem Writes.joined {sign : Char} {after : List Char} {row : List Lexeme}
    (hsign : sign ∈ loneSigns) (hcloses : closes sign = true) (h : Writes cs ls)
    (hafter : Writes after row) :
    Writes (cs ++ sign :: ' ' :: after) (ls ++ .op (String.singleton sign) :: row) := by
  intro more rest hclosed hrest
  simp only [List.append_assoc, List.cons_append]
  have hblank : ∀ b ∈ [' '], isBlank b = true := List.forall_mem_singleton.2 rfl
  have hfurther : Scans (row ++ more) (' ' :: (after ++ rest)) :=
    (hafter more rest hclosed hrest).blanksBefore hblank
  refine h _ _ ?_ (scans_sign hsign hfurther)
  rintro c hc
  cases hc
  exact hcloses

/-- The key and the value of an entry. -/
theorem Writes.entry {key value : List Char} {row : List Lexeme × List Lexeme}
    (hkey : Writes key row.1) (hvalue : Writes value row.2) :
    Writes (key ++ ':' :: ' ' :: value) (entryRow row) :=
  hkey.joined (by decide) (by decide) hvalue

/-- Texts with commas between them. -/
def listed (texts : List (List Char)) : List Char := [',', ' '].intercalate texts

theorem toList_join (texts : List String) :
    (join ", " texts).toList = listed (texts.map String.toList) := String.toList_intercalate

/-- Texts with commas between them write the rows with commas between them. -/
theorem writes_listed {texts : List (List Char)} {rows : List (List Lexeme)}
    (h : List.Forall₂ Writes texts rows) : Writes (listed texts) (separated rows) := by
  cases h with
  | nil => exact fun _ _ _ hrest => hrest
  | @cons cs row texts rows hfirst hothers =>
    induction hothers generalizing cs row with
    | nil => simpa [listed, separated, further] using hfirst
    | @cons next other texts rows hnext _ ih =>
      rw [listed, List.intercalate_cons_cons, List.append_assoc]
      exact hfirst.joined (by decide) (by decide) (ih hnext)

end EnergyPlan.Expr
