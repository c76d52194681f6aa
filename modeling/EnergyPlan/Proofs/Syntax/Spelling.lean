/-
# Texts that spell a row of lexemes

A text spells a row of lexemes if it is a row of spellings of them, with blanks between them
wherever one could otherwise run on into the next. A string may be written in quotes of either
kind, with a backslash before any character; it has to stand before a backslash and before the
quote. Whatever the blanks and the quotes, the tokens of the text are the lexemes of the row.

Spelling is one way to have a row of lexemes scanned; a text is scanned as a row whenever each
lexeme is what the next token turns out to be.

Key definitions: `Escaped`, `Lexeme.Spelled`, `Lexeme.Apart`, `Spells`, `Scans`, `spellAll`.
Key theorems: `stringText_escaped`, `scanToken_spelled`, `tokenize_scans`, `tokenize_spells`,
`spells_spellAll`.
-/
import EnergyPlan.Proofs.Syntax.Numbers

namespace EnergyPlan.Expr

open Text

/-- A name: a letter or an underscore, and then letters, digits and underscores. -/
def isIdentifier : List Char → Bool
  | [] => false
  | c :: rest => startsName c && rest.all continuesName

/-- A way to write a text between quotes of a kind. -/
inductive Escaped (quote : Char) : List Char → List Char → Prop where
  | done : Escaped quote [] []
  | plain {c : Char} {text body : List Char} : c ≠ '\\' → c ≠ quote → Escaped quote text body →
      Escaped quote (c :: text) (c :: body)
  | escape {c : Char} {text body : List Char} : Escaped quote text body →
      Escaped quote (c :: text) ('\\' :: c :: body)

namespace Lexeme

/-- The texts that write a lexeme; of numbers, those without point and exponent. -/
def Spelled : Lexeme → List Char → Prop
  | .number text, cs => cs = text.toList ∧ cs ≠ [] ∧ ∀ c ∈ cs, c.isDigit = true
  | .string text, cs => ∃ quote body, (quote = '\x27' ∨ quote = '\x22') ∧
      Escaped quote text.toList body ∧ cs = quote :: (body ++ [quote])
  | .name text, cs => cs = text.toList ∧ isIdentifier cs = true
  | .op text, cs => cs = text.toList ∧ (cs ∈ doubleSigns ∨ cs ∈ singleSigns.map fun c => [c])

/-- What follows a lexeme does not run on from it. -/
def Apart : Lexeme → List Char → Prop
  | .number _, rest => ∀ c ∈ rest.head?, c.isDigit = false ∧ c ≠ '.' ∧ c ≠ 'e' ∧ c ≠ 'E'
  | .string _, _ => True
  | .name _, rest => ∀ c ∈ rest.head?, continuesName c = false
  | .op text, rest => ∀ c ∈ rest.head?, text.toList ++ [c] ∉ doubleSigns

end Lexeme

/-- A text is a row of spellings of lexemes with blanks around them. -/
inductive Spells : List Lexeme → List Char → Prop where
  | blanks {cs : List Char} : (∀ c ∈ cs, isBlank c = true) → Spells [] cs
  | lexeme {blanks cs rest : List Char} {l : Lexeme} {ls : List Lexeme} :
      (∀ c ∈ blanks, isBlank c = true) → l.Spelled cs → l.Apart rest → Spells ls rest →
        Spells (l :: ls) (blanks ++ (cs ++ rest))

/-! ### One lexeme -/

/-- The text of a string is read back up to its closing quote. -/
theorem stringText_escaped {quote : Char} (hq : quote ≠ '\\') {text body rest : List Char}
    (h : Escaped quote text body) :
    stringText quote (body ++ quote :: rest) = some (text, body.length + 1) := by
  induction h with
  | done =>
    rw [List.nil_append, stringText.eq_3 _ _ _ (fun _ _ he _ => hq he), if_pos rfl]
    rfl
  | plain hc hcq _ ih =>
    rw [List.cons_append, stringText.eq_3 _ _ _ (fun _ _ he _ => hc he), if_neg hcq, ih]
    rfl
  | escape _ ih =>
    rw [List.cons_append, List.cons_append, stringText, ih]
    rfl

/-- The sign at the front is the longest one. -/
theorem sign?_sign {cs rest : List Char}
    (hcs : cs ∈ doubleSigns ∨ cs ∈ singleSigns.map fun c => [c])
    (hrest : ∀ c ∈ rest.head?, cs ++ [c] ∉ doubleSigns) : sign? (cs ++ rest) = some cs := by
  have htwo : ∀ sign ∈ doubleSigns, sign.length = 2 := by decide
  unfold sign?
  rcases hcs with hcs | hcs
  · have htake : (cs ++ rest).take 2 = cs := by rw [← htwo cs hcs, List.take_left]
    rw [htake, if_pos hcs]
  · obtain ⟨c, hc, rfl⟩ := List.mem_map.1 hcs
    have hnot : ([c] ++ rest).take 2 ∉ doubleSigns := by
      cases rest with
      | nil => exact fun h => absurd (htwo _ h) (by simp)
      | cons d rest => exact hrest d rfl
    rw [if_neg hnot]
    simp [hc]

/-- A character that a sign starts with starts nothing else. -/
theorem sign_front {cs : List Char}
    (hcs : cs ∈ doubleSigns ∨ cs ∈ singleSigns.map fun c => [c]) :
    ∃ c tail, cs = c :: tail ∧ c.isDigit = false ∧ startsName c = false ∧
      (c ≠ '\x27' ∧ c ≠ '\x22') ∧ isBlank c = false := by
  have hall : (doubleSigns ++ singleSigns.map fun c => [c]).all (fun cs => cs.head?.any fun c =>
      !c.isDigit && !startsName c && (c != '\x27' && c != '\x22') && !isBlank c) = true := by
    decide
  have hfront := List.all_eq_true.1 hall cs (List.mem_append.2 hcs)
  cases cs with
  | nil => cases hfront
  | cons c tail =>
    simp only [List.head?_cons, Option.any_some, Bool.and_eq_true, Bool.not_eq_true',
      bne_iff_ne] at hfront
    obtain ⟨⟨⟨hdigit, hname⟩, hquote⟩, hblank⟩ := hfront
    exact ⟨c, tail, rfl, hdigit, hname, hquote, hblank⟩

theorem toNat_of_isBlank {c : Char} (h : isBlank c = true) : c.toNat ≤ 32 := by
  simp only [isBlank, Bool.or_eq_true, Bool.and_eq_true, decide_eq_true_eq, Char.le_def] at h
  rcases h with rfl | ⟨-, h⟩
  · exact Nat.le_refl _
  · exact Nat.le_trans (UInt32.le_iff_toNat_le.1 h) (by decide)

theorem toNat_of_isDigit {c : Char} (h : c.isDigit = true) : 48 ≤ c.toNat ∧ c.toNat ≤ 57 := by
  simpa [Char.isDigit, UInt32.le_iff_toNat_le] using h

theorem toNat_of_startsName {c : Char} (h : startsName c = true) : 65 ≤ c.toNat := by
  delta startsName Char.isAlpha Char.isUpper Char.isLower at h
  simp only [Bool.or_eq_true, Bool.and_eq_true, decide_eq_true_eq, ge_iff_le] at h
  rcases h with (⟨h, -⟩ | ⟨h, -⟩) | rfl
  · exact UInt32.le_iff_toNat_le.1 h
  · exact Nat.le_trans (by decide) (UInt32.le_iff_toNat_le.1 h)
  · decide

theorem continuesName_eq (c : Char) : continuesName c = (startsName c || c.isDigit) := by
  simp only [continuesName, startsName, Char.isAlphanum, Bool.or_right_comm]

theorem isDigit_of_startsName {c : Char} (h : startsName c = true) : c.isDigit = false := by
  have hs := toNat_of_startsName h
  refine Bool.eq_false_iff.2 fun hd => ?_
  have := toNat_of_isDigit hd
  omega

theorem isBlank_of_continuesName {c : Char} (h : continuesName c = true) : isBlank c = false := by
  rw [continuesName_eq, Bool.or_eq_true] at h
  have hc : 48 ≤ c.toNat := by
    rcases h with h | h
    · exact Nat.le_trans (by decide) (toNat_of_startsName h)
    · exact (toNat_of_isDigit h).1
  refine Bool.eq_false_iff.2 fun hb => ?_
  have := toNat_of_isBlank hb
  omega

theorem isBlank_of_isDigit {c : Char} (h : c.isDigit = true) : isBlank c = false :=
  isBlank_of_continuesName (by rw [continuesName_eq, h, Bool.or_true])

/-- A spelled lexeme starts with a character that is not blank, and is what is read there. -/
theorem scanToken_spelled {l : Lexeme} {cs rest : List Char} (h : l.Spelled cs)
    (hapart : l.Apart rest) : ∃ c tail, cs = c :: tail ∧ isBlank c = false ∧
      ∀ position, scanToken position c (tail ++ rest) = .ok (l, cs.length) := by
  cases l with
  | number text =>
    obtain ⟨rfl, hne, hdigits⟩ := h
    obtain ⟨c, tail, hcs⟩ := List.exists_cons_of_ne_nil hne
    have hc : c.isDigit = true := hdigits c (by simp [hcs])
    refine ⟨c, tail, hcs, isBlank_of_isDigit hc, fun _ => ?_⟩
    have htext : numberText (c :: (tail ++ rest)) = text.toList := by
      rw [← List.cons_append, ← hcs]
      exact numberText_append (isNumber_of_digits hne hdigits) hapart
    rw [scanToken, if_pos hc]
    simp only [htext, String.ofList_toList]
  | string text =>
    obtain ⟨quote, body, hq, hbody, rfl⟩ := h
    have hquote : quote.isDigit = false ∧ startsName quote = false ∧ quote ≠ '\\' ∧
        isBlank quote = false := by
      rcases hq with rfl | rfl <;> decide
    obtain ⟨hd, hs, hb, hblank⟩ := hquote
    refine ⟨quote, body ++ [quote], rfl, hblank, fun position => ?_⟩
    have htext : stringText quote (body ++ [quote] ++ rest) =
        some (text.toList, body.length + 1) := by
      rw [List.append_assoc]
      exact stringText_escaped hb hbody
    rw [scanToken, if_neg (by simp [hd]), if_neg (by simp [hs]), if_pos hq, htext]
    simp
  | name text =>
    obtain ⟨rfl, hname⟩ := h
    cases hcs : text.toList with
    | nil =>
      rw [hcs] at hname
      cases hname
    | cons c tail =>
      rw [hcs, isIdentifier, Bool.and_eq_true, List.all_eq_true] at hname
      obtain ⟨hc, htail⟩ := hname
      have hall : ∀ d ∈ c :: tail, continuesName d = true :=
        List.forall_mem_cons.2 ⟨by simp [continuesName_eq, hc], htail⟩
      refine ⟨c, tail, rfl, isBlank_of_continuesName (hall c List.mem_cons_self), fun _ => ?_⟩
      have htext : (c :: (tail ++ rest)).takeWhile continuesName = text.toList := by
        rw [← List.cons_append, takeWhile_append_of_head hall hapart, hcs]
      rw [scanToken, if_neg (by simp [isDigit_of_startsName hc]), if_pos hc]
      simp only [htext, String.ofList_toList]
      rw [← hcs]
  | op text =>
    obtain ⟨rfl, hsign⟩ := h
    obtain ⟨c, tail, hcs, hd, hs, hq, hblank⟩ := sign_front hsign
    refine ⟨c, tail, hcs, hblank, fun _ => ?_⟩
    have htext : sign? (c :: (tail ++ rest)) = some text.toList := by
      rw [← List.cons_append, ← hcs]
      exact sign?_sign hsign hapart
    rw [scanToken, if_neg (by simp [hd]), if_neg (by simp [hs]), if_neg (by simp [hq]), htext]
    simp only [String.ofList_toList]

/-! ### A row of lexemes -/

/-- A text is scanned as a row of lexemes: behind blanks, each is the next token. -/
inductive Scans : List Lexeme → List Char → Prop where
  | blanks {cs : List Char} : (∀ c ∈ cs, isBlank c = true) → Scans [] cs
  | lexeme {blanks tail rest : List Char} {c : Char} {l : Lexeme} {ls : List Lexeme} :
      (∀ b ∈ blanks, isBlank b = true) → isBlank c = false →
      (∀ position, scanToken position c (tail ++ rest) = .ok (l, (c :: tail).length)) →
      Scans ls rest → Scans (l :: ls) (blanks ++ (c :: tail ++ rest))

/-- The tokens of a text are the lexemes that are scanned. -/
theorem tokensFrom_scans {ls : List Lexeme} {cs : List Char} (h : Scans ls cs)
    (steps offset : Nat) (hsteps : cs.length ≤ steps) :
    ∃ ts, tokensFrom steps offset cs = .ok ts ∧ ts.map Token.lexeme = ls := by
  induction h generalizing steps offset with
  | @blanks cs hblank =>
    refine ⟨[], ?_, rfl⟩
    cases steps with
    | zero => rfl
    | succ steps =>
      have hnone : cs.dropWhile isBlank = [] := by
        rw [← List.append_nil cs, dropWhile_append_of_head hblank (by simp)]
      rw [tokensFrom, hnone]
  | @lexeme blanks tail rest c l ls hblank hc hscan _ ih =>
    simp only [List.length_append, List.length_cons] at hsteps
    obtain ⟨steps, rfl⟩ : ∃ n, steps = n + 1 := ⟨steps - 1, by omega⟩
    have hfront : ∀ d ∈ (c :: tail ++ rest).head?, isBlank d = false := by
      intro d hd
      cases hd
      exact hc
    rw [tokensFrom, dropWhile_append_of_head hblank hfront]
    obtain ⟨ts, hts, hlexemes⟩ :=
      ih steps (offset + blanks.length + (c :: tail).length) (by omega)
    refine ⟨⟨l, offset + blanks.length⟩ :: ts, ?_, by rw [List.map_cons, hlexemes]⟩
    rw [takeWhile_append_of_head hblank hfront, List.cons_append]
    dsimp only
    rw [hscan]
    have hdrop : (c :: (tail ++ rest)).drop (c :: tail).length = rest := by
      rw [← List.cons_append, List.drop_left]
    show (tokensFrom steps _ ((c :: (tail ++ rest)).drop (c :: tail).length) >>= _) = _
    rw [hdrop, hts]
    rfl

theorem tokenize_scans {ls : List Lexeme} {s : String} (h : Scans ls s.toList) :
    ∃ ts, tokenize s = .ok ts ∧ ts.map Token.lexeme = ls :=
  tokensFrom_scans h _ _ (Nat.le_refl _)

/-- What a text spells is scanned. -/
theorem Spells.scans {ls : List Lexeme} {cs : List Char} (h : Spells ls cs) : Scans ls cs := by
  induction h with
  | blanks hblank => exact .blanks hblank
  | lexeme hblank hspelled hapart _ ih =>
    obtain ⟨c, tail, rfl, hc, hscan⟩ := scanToken_spelled hspelled hapart
    exact .lexeme hblank hc hscan ih

/-- **The tokens of a text are the lexemes that it spells, whatever its blanks and its quotes.** -/
theorem tokenize_spells {ls : List Lexeme} {s : String} (h : Spells ls s.toList) :
    ∃ ts, tokenize s = .ok ts ∧ ts.map Token.lexeme = ls :=
  tokenize_scans h.scans

/-! ### A spelling with a blank after each lexeme -/

/-- A character of a string, after a backslash where it would not stand for itself. -/
def escaped (c : Char) : List Char := if c = '\\' ∨ c = '\x22' then ['\\', c] else [c]

/-- A text for a lexeme. -/
def Lexeme.spell : Lexeme → List Char
  | .string text => '\x22' :: (text.toList.flatMap escaped ++ ['\x22'])
  | l => l.text.toList

/-- A text for a row of lexemes, with a blank after each of them. -/
def spellAll (ls : List Lexeme) : List Char := ls.flatMap fun l => l.spell ++ [' ']

/-- A backslash before each quote and each backslash is a way to write a text. -/
theorem escaped_all (quote : Char) (text : List Char) :
    Escaped quote text (text.flatMap fun c => if c = '\\' ∨ c = quote then ['\\', c] else [c]) := by
  induction text with
  | nil => exact .done
  | cons c text ih =>
    rw [List.flatMap_cons]
    split
    · exact .escape ih
    · next h =>
      rw [not_or] at h
      exact .plain h.1 h.2 ih

theorem escaped_flatMap (text : List Char) : Escaped '\x22' text (text.flatMap escaped) :=
  escaped_all '\x22' text

theorem spelled_string (text : String) : (Lexeme.string text).Spelled (Lexeme.string text).spell :=
  ⟨'\x22', _, .inr rfl, escaped_flatMap _, rfl⟩

theorem spelled_number {cs : List Char} (hne : cs ≠ []) (h : ∀ c ∈ cs, c.isDigit = true) :
    (Lexeme.number (String.ofList cs)).Spelled (Lexeme.number (String.ofList cs)).spell := by
  have hspell : (Lexeme.number (String.ofList cs)).spell = cs := String.toList_ofList
  rw [hspell]
  exact ⟨String.toList_ofList.symm, hne, h⟩

/-- A blank does not run on from any lexeme. -/
theorem apart_blank (l : Lexeme) (rest : List Char) : l.Apart (' ' :: rest) := by
  cases l with
  | number text =>
    rintro c hc
    cases hc
    decide
  | string text => trivial
  | name text =>
    rintro c hc
    cases hc
    decide
  | op text =>
    rintro c hc
    cases hc
    intro h
    have hlast : ∀ sign ∈ doubleSigns, sign.getLast? ≠ some ' ' := by decide
    exact hlast _ h List.getLast?_concat

theorem Spells.blank {ls : List Lexeme} {cs : List Char} (h : Spells ls cs) :
    Spells ls (' ' :: cs) := by
  cases h with
  | blanks hblank => exact .blanks (List.forall_mem_cons.2 ⟨rfl, hblank⟩)
  | lexeme hblank hspelled hapart hrest =>
    exact .lexeme (List.forall_mem_cons.2 ⟨rfl, hblank⟩) hspelled hapart hrest

/-- A row of lexemes that can be written is spelled by their texts with blanks after them. -/
theorem spells_spellAll {ls : List Lexeme} (h : ∀ l ∈ ls, l.Spelled l.spell) :
    Spells ls (spellAll ls) := by
  induction ls with
  | nil => exact .blanks fun _ hc => absurd hc List.not_mem_nil
  | cons l ls ih =>
    rw [List.forall_mem_cons] at h
    rw [spellAll, List.flatMap_cons, List.append_assoc, ← List.nil_append (l.spell ++ _)]
    exact .lexeme (fun _ hc => absurd hc List.not_mem_nil) h.1 (apart_blank l _) (ih h.2).blank

end EnergyPlan.Expr
