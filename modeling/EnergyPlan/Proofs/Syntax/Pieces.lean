/-
# The pieces of a path

Between its points a path has pieces: a name or a position each, with blanks around it. A piece is
scanned as its lexeme before a point, unless it is a position with no blank behind it: a number
takes the point in. The text of a path is scanned all the same, as a row of names, numbers and
points; the first number that took a point in is a segment of the name that the row starts with.

Key definitions: `IsPiece`, `takesPoint`, `pieceLexeme`, `joined`, `WordsApart`.
Key theorems: `scans_piece`, `scans_pieces`, `exists_scans`, `scans_taken`.
-/
import EnergyPlan.Proofs.Syntax.Spaced
import EnergyPlan.Proofs.Syntax.Writing

namespace EnergyPlan.Expr

open Text

/-- A position: digits alone. -/
def isPosition (cs : List Char) : Bool := !cs.isEmpty && cs.all Char.isDigit

/-- A piece of a path: a name or a position, with blanks around it. -/
def IsPiece (piece : List Char) : Prop :=
  isIdentifier (trimChars piece) = true ∨ isPosition (trimChars piece) = true

/-- The lexeme that a piece of a path writes. -/
def pieceLexeme (piece : List Char) : Lexeme :=
  if isPosition (trimChars piece) then .number (String.ofList (trimChars piece))
  else .name (String.ofList (trimChars piece))

/-- A position with no blank behind it. -/
def takesPoint (piece : List Char) : Bool := isPosition (piece.dropWhile isBlank)

variable {piece cs rest : List Char} {ls : List Lexeme}

theorem isPosition_iff : isPosition cs = true ↔ cs ≠ [] ∧ ∀ c ∈ cs, c.isDigit = true := by
  simp [isPosition]

theorem continuesName_of_isIdentifier (h : isIdentifier cs = true) :
    ∀ c ∈ cs, continuesName c = true := by
  cases cs with
  | nil => cases h
  | cons c cs =>
    rw [isIdentifier, Bool.and_eq_true, List.all_eq_true] at h
    exact List.forall_mem_cons.2 ⟨by rw [continuesName_eq, h.1, Bool.true_or], h.2⟩

theorem isPosition_of_isIdentifier (h : isIdentifier cs = true) : isPosition cs = false := by
  cases cs with
  | nil => rfl
  | cons c cs =>
    rw [isIdentifier, Bool.and_eq_true] at h
    simp [isPosition, isDigit_of_startsName h.1]

/-- The characters of a piece between its blanks are those of names. -/
theorem IsPiece.word (h : IsPiece piece) :
    trimChars piece ≠ [] ∧ ∀ c ∈ trimChars piece, continuesName c = true := by
  rcases h with h | h
  · refine ⟨fun hnil => ?_, continuesName_of_isIdentifier h⟩
    rw [hnil] at h
    cases h
  · obtain ⟨hne, hdigits⟩ := isPosition_iff.1 h
    exact ⟨hne, fun c hc => by rw [continuesName_eq, hdigits c hc, Bool.or_true]⟩

theorem isSegment_piece (piece : List Char) : (pieceLexeme piece).IsSegment := by
  unfold pieceLexeme
  split <;> trivial

theorem text_piece (piece : List Char) :
    (pieceLexeme piece).text = String.ofList (trimChars piece) := by
  unfold pieceLexeme
  split <;> rfl

theorem spelled_piece (h : IsPiece piece) : (pieceLexeme piece).Spelled (trimChars piece) := by
  unfold pieceLexeme
  split
  · next hposition => exact ⟨String.toList_ofList.symm, isPosition_iff.1 hposition⟩
  · next hposition => exact ⟨String.toList_ofList.symm, h.resolve_right hposition⟩

section

variable {front back : List Char}

theorem dropWhile_piece (h : IsPiece piece) (hpiece : piece = front ++ (trimChars piece ++ back))
    (hfront : ∀ b ∈ front, isBlank b = true) :
    piece.dropWhile isBlank = trimChars piece ++ back := by
  obtain ⟨hne, hword⟩ := h.word
  obtain ⟨c, tail, hcs⟩ := List.exists_cons_of_ne_nil hne
  conv_lhs => rw [hpiece]
  refine dropWhile_append_of_head hfront fun d hd => ?_
  rw [hcs] at hd hword
  cases hd
  exact isBlank_of_continuesName (hword c List.mem_cons_self)

/-- A name takes no point. -/
theorem takesPoint_of_isIdentifier (h : isIdentifier (trimChars piece) = true) :
    takesPoint piece = false := by
  obtain ⟨front, back, hpiece, hfront, -⟩ := exists_blanks piece
  refine Bool.eq_false_iff.2 fun htakes => ?_
  rw [takesPoint, dropWhile_piece (.inl h) hpiece hfront] at htakes
  have hdigits := (isPosition_iff.1 htakes).2
  have hposition : isPosition (trimChars piece) = true :=
    isPosition_iff.2 ⟨(IsPiece.word (.inl h)).1, fun c hc => hdigits c (List.mem_append_left _ hc)⟩
  rw [isPosition_of_isIdentifier h] at hposition
  cases hposition

/-- What follows a piece does not run on from it, unless it is the point that the piece takes. -/
theorem apart_piece (h : IsPiece piece) (hpiece : piece = front ++ (trimChars piece ++ back))
    (hfront : ∀ b ∈ front, isBlank b = true) (hback : ∀ b ∈ back, isBlank b = true)
    (hrest : ∀ c ∈ rest.head?, c = '.') (hkept : takesPoint piece = false ∨ rest = []) :
    (pieceLexeme piece).Apart (back ++ rest) := by
  have hdrop := dropWhile_piece h hpiece hfront
  unfold pieceLexeme
  cases back with
  | nil =>
    rw [List.append_nil] at hdrop
    rw [List.nil_append]
    split
    · next hposition =>
      rcases hkept with hkept | rfl
      · rw [takesPoint, hdrop, hposition] at hkept
        cases hkept
      · exact nofun
    · intro c hc
      rw [hrest c hc]
      decide
  | cons b back =>
    have hcloses : closes b = true := by rw [closes, hback b List.mem_cons_self, Bool.true_or]
    split
    · rintro c hc
      cases hc
      exact endsNumber_of_closes hcloses
    · rintro c hc
      cases hc
      exact continuesName_of_closes hcloses

/-- A piece is scanned as its lexeme before a point that it does not take, and at the end. -/
theorem scans_piece (h : IsPiece piece) (hrest : ∀ c ∈ rest.head?, c = '.')
    (hkept : takesPoint piece = false ∨ rest = []) (hscans : Scans ls rest) :
    Scans (pieceLexeme piece :: ls) (piece ++ rest) := by
  obtain ⟨front, back, hpiece, hfront, hback⟩ := exists_blanks piece
  have htext : piece ++ rest = front ++ (trimChars piece ++ (back ++ rest)) := by
    conv_lhs => rw [hpiece]
    rw [List.append_assoc, List.append_assoc]
  rw [htext]
  exact ((hscans.blanksBefore hback).spelled (spelled_piece h)
    (apart_piece h hpiece hfront hback hrest hkept)).blanksBefore hfront

end

theorem spelled_point : (Lexeme.op ".").Spelled ['.'] := ⟨rfl, by decide⟩

theorem apart_point (rest : List Char) : (Lexeme.op ".").Apart rest := by
  intro c _ hdouble
  have hall : ∀ sign ∈ doubleSigns, sign.head? ≠ some '.' := by decide
  exact hall _ hdouble rfl

theorem scans_point (h : Scans ls rest) : Scans (.op "." :: ls) ('.' :: rest) :=
  h.spelled spelled_point (apart_point rest)

/-! ### A path whose positions take no point -/

/-- Pieces with points between them. -/
def joined (pieces : List (List Char)) : List Char := ['.'].intercalate pieces

theorem joined_cons_cons (first next : List Char) (more : List (List Char)) :
    joined (first :: next :: more) = first ++ '.' :: joined (next :: more) := by
  rw [joined, List.intercalate_cons_cons]
  simp [joined]

theorem joined_cutAt (cs : List Char) : joined (cutAt (· = '.') cs) = cs := by
  induction cs with
  | nil => rfl
  | cons c cs ih =>
    rw [cutAt]
    obtain ⟨first, more, hcut⟩ := List.exists_cons_of_ne_nil (cutAt_ne_nil (· = '.') cs)
    rw [hcut] at ih ⊢
    split
    · next hc =>
      rw [joined_cons_cons, ih, of_decide_eq_true hc]
      rfl
    · cases more with
      | nil => simpa [joined] using ih
      | cons next more =>
        dsimp only
        rw [joined_cons_cons] at ih ⊢
        rw [List.cons_append, ih]

theorem scans_pieces {first : List Char} {more : List (List Char)} (hfirst : IsPiece first)
    (hmore : ∀ p ∈ more, IsPiece p)
    (hkept : ∀ p ∈ (first :: more).dropLast, takesPoint p = false) :
    Scans (pieceLexeme first :: pointed (more.map pieceLexeme)) (joined (first :: more)) := by
  induction more generalizing first with
  | nil =>
    have hscans : Scans _ (first ++ []) := scans_piece hfirst nofun (.inr rfl)
      (.blanks fun _ hc => absurd hc List.not_mem_nil)
    simpa [joined, pointed] using hscans
  | cons next more ih =>
    rw [List.forall_mem_cons] at hmore
    rw [List.dropLast_cons_cons, List.forall_mem_cons] at hkept
    rw [joined_cons_cons]
    refine scans_piece hfirst (fun c hc => ?_) (.inl hkept.1)
      (scans_point (ih hmore.1 hmore.2 hkept.2))
    cases hc
    rfl

/-! ### Every path is scanned -/

/-- A text of words, blanks and points, in which nothing but a point comes behind the blanks after
a word. -/
def WordsApart : List Char → Prop
  | [] => True
  | c :: cs => (continuesName c = true ∨ isBlank c = true ∨ c = '.') ∧
      (continuesName c = true → (∃ d ∈ cs.head?, continuesName d = true) ∨
        ∀ d ∈ (cs.dropWhile isBlank).head?, d = '.') ∧ WordsApart cs

theorem WordsApart.blanks {blanks : List Char} (hblanks : ∀ b ∈ blanks, isBlank b = true)
    (h : WordsApart cs) : WordsApart (blanks ++ cs) := by
  induction blanks with
  | nil => exact h
  | cons b blanks ih =>
    rw [List.forall_mem_cons] at hblanks
    refine ⟨.inr (.inl hblanks.1), fun hname => ?_, ih hblanks.2⟩
    rw [isBlank_of_continuesName hname] at hblanks
    cases hblanks.1

theorem WordsApart.word {word : List Char} (hword : ∀ c ∈ word, continuesName c = true)
    (hnext : ∀ d ∈ (cs.dropWhile isBlank).head?, d = '.') (h : WordsApart cs) :
    WordsApart (word ++ cs) := by
  induction word with
  | nil => exact h
  | cons c word ih =>
    rw [List.forall_mem_cons] at hword
    refine ⟨.inl hword.1, fun _ => ?_, ih hword.2⟩
    cases word with
    | nil => exact .inr hnext
    | cons d word => exact .inl ⟨d, rfl, hword.2 d List.mem_cons_self⟩

theorem WordsApart.suffix (front : List Char) (h : WordsApart (front ++ cs)) : WordsApart cs := by
  induction front with
  | nil => exact h
  | cons c front ih => exact ih h.2.2

/-- Behind a whole word come blanks and then a point, or nothing. -/
theorem WordsApart.behind (word : List Char) (hne : word ≠ [])
    (hword : ∀ c ∈ word, continuesName c = true)
    (hend : ∀ d ∈ cs.head?, continuesName d = false) (h : WordsApart (word ++ cs)) :
    ∀ d ∈ (cs.dropWhile isBlank).head?, d = '.' := by
  obtain ⟨front, last, rfl⟩ := (List.eq_nil_or_concat' word).resolve_left hne
  rw [List.append_assoc] at h
  rcases (h.suffix front).2.1 (hword last (by simp)) with ⟨d, hd, hname⟩ | hpoint
  · rw [hend d hd] at hname
    cases hname
  · exact hpoint

theorem wordsApart_joined {ps : List (List Char)} (h : ∀ p ∈ ps, IsPiece p) :
    WordsApart (joined ps) := by
  have hpiece {p rest : List Char} (hp : IsPiece p) (hrest : ∀ c ∈ rest.head?, c = '.')
      (hwords : WordsApart rest) : WordsApart (p ++ rest) := by
    obtain ⟨front, back, htext, hfront, hback⟩ := exists_blanks p
    have hdrop : (back ++ rest).dropWhile isBlank = rest :=
      dropWhile_append_of_head hback fun c hc => by rw [hrest c hc]; decide
    rw [htext, List.append_assoc, List.append_assoc]
    exact ((hwords.blanks hback).word hp.word.2 (by rwa [hdrop])).blanks hfront
  induction ps with
  | nil => trivial
  | cons p ps ih =>
    rw [List.forall_mem_cons] at h
    cases ps with
    | nil => simpa [joined] using @hpiece p [] h.1 nofun trivial
    | cons next ps =>
      rw [joined_cons_cons]
      refine hpiece h.1 (fun c hc => ?_) ⟨.inr (.inr rfl), fun hname => ?_, ih h.2⟩
      · cases hc
        rfl
      · exact absurd hname (by decide)

theorem head_dropWhile (p : Char → Bool) (cs : List Char) :
    ∀ c ∈ (cs.dropWhile p).head?, p c = false := by
  intro c hc
  have hnot := List.head?_dropWhile_not p cs
  rwa [hc] at hnot

theorem scanToken_point (position : Nat) (cs : List Char) :
    scanToken position '.' cs = .ok (.op ".", 1) := by
  obtain ⟨c, tail, he, -, hscan⟩ := scanToken_spelled spelled_point (apart_point cs)
  cases he
  exact hscan position

theorem scanToken_digit {c : Char} (cs : List Char) (hdigit : c.isDigit = true) :
    ∃ tail rest, cs = tail ++ rest ∧ numberText (c :: cs) = c :: tail ∧ ∀ position,
      scanToken position c cs = .ok (.number (String.ofList (c :: tail)), (c :: tail).length) := by
  obtain ⟨rest, hrest⟩ := numberText_prefix (c :: cs)
  have hfront : ∃ tail, numberText (c :: cs) = c :: tail := by
    simp [numberText, hdigit]
  obtain ⟨tail, htail⟩ := hfront
  rw [htail] at hrest
  refine ⟨tail, rest, (List.cons.inj hrest).2.symm, htail, fun position => ?_⟩
  rw [scanToken, if_pos hdigit, htail]

/-- What comes next in a text of words, blanks and points. -/
theorem exists_next {c : Char} (hc : isBlank c = false) (h : WordsApart (c :: cs)) :
    ∃ l tail rest, cs = tail ++ rest ∧
      (∀ position, scanToken position c cs = .ok (l, (c :: tail).length)) ∧
      (l.IsSegment ∨ l = .op ".") ∧
      ∀ name, l = .name name → ∀ d ∈ (rest.dropWhile isBlank).head?, d = '.' := by
  by_cases hdigit : c.isDigit = true
  · obtain ⟨tail, rest, hcs, -, hscan⟩ := scanToken_digit cs hdigit
    exact ⟨_, tail, rest, hcs, hscan, .inl trivial, fun _ hnumber => by cases hnumber⟩
  · by_cases hname : continuesName c = true
    · have hstarts : startsName c = true := by
        rw [continuesName_eq, Bool.or_eq_true] at hname
        exact hname.resolve_right hdigit
      have hword : (c :: cs).takeWhile continuesName = c :: cs.takeWhile continuesName := by
        rw [List.takeWhile_cons_of_pos hname]
      refine ⟨.name (String.ofList (c :: cs.takeWhile continuesName)), cs.takeWhile continuesName,
        cs.dropWhile continuesName, List.takeWhile_append_dropWhile.symm, fun position => ?_,
        .inl trivial, fun _ _ => ?_⟩
      · rw [scanToken, if_neg hdigit, if_pos hstarts, hword]
      · refine WordsApart.behind (c :: cs.takeWhile continuesName) (List.cons_ne_nil _ _)
          (List.forall_mem_cons.2 ⟨hname, List.all_eq_true.1 List.all_takeWhile⟩) ?_ ?_
        · exact head_dropWhile continuesName cs
        · rw [List.cons_append, List.takeWhile_append_dropWhile]
          exact h
    · obtain rfl : c = '.' := by
        rcases h.1 with h | h | h
        · exact absurd h hname
        · rw [hc] at h
          cases h
        · exact h
      exact ⟨.op ".", [], cs, rfl, fun position => scanToken_point position cs, .inr rfl,
        fun _ hpoint => by cases hpoint⟩

/-- A point comes next where one stands behind the blanks. -/
theorem next_of_scans (h : Scans ls cs) (hpoint : ∀ d ∈ (cs.dropWhile isBlank).head?, d = '.') :
    ∀ l ∈ ls.head?, l = .op "." := by
  cases h with
  | blanks _ => exact nofun
  | @lexeme blanks tail rest c l ls hblanks hc hscan _ =>
    have hdrop : (blanks ++ (c :: tail ++ rest)).dropWhile isBlank = c :: tail ++ rest :=
      dropWhile_append_of_head hblanks fun d hd => by cases hd; exact hc
    rw [hdrop] at hpoint
    obtain rfl := hpoint c rfl
    rintro l' hl'
    cases hl'
    exact (Prod.mk.inj (Except.ok.inj ((hscan 0).symm.trans (scanToken_point 0 _)))).1

/-- **A text of words, blanks and points is scanned,** as a row of names, numbers and points. -/
theorem exists_scans (h : WordsApart cs) : ∃ ls, Scans ls cs ∧ Spaced ls := by
  induction hn : cs.length using Nat.strongRecOn generalizing cs with
  | ind n ih =>
    have hcs := List.takeWhile_append_dropWhile (p := isBlank) (l := cs)
    have hblanks : ∀ b ∈ cs.takeWhile isBlank, isBlank b = true :=
      List.all_eq_true.1 List.all_takeWhile
    have hfirst := head_dropWhile isBlank cs
    generalize cs.takeWhile isBlank = blanks at hcs hblanks
    generalize cs.dropWhile isBlank = after at hcs hfirst
    subst hcs
    cases after with
    | nil =>
      rw [List.append_nil]
      exact ⟨[], .blanks hblanks, trivial⟩
    | cons c tail =>
      have hc : isBlank c = false := hfirst c rfl
      obtain ⟨l, front, rest, rfl, hscan, hkind, hname⟩ := exists_next hc (h.suffix blanks)
      have hrest : WordsApart rest := (h.suffix blanks).suffix (c :: front)
      simp only [List.length_append, List.length_cons] at hn
      obtain ⟨ls, hscans, hspaced⟩ := ih rest.length (by omega) hrest rfl
      exact ⟨l :: ls, .lexeme hblanks hc hscan hscans, hkind,
        fun name hl => next_of_scans hscans (hname name hl), hspaced⟩

/-! ### A position that takes the point behind it -/

theorem point_mem_numberText (hdigits : ∀ c ∈ cs, c.isDigit = true) (rest : List Char) :
    '.' ∈ numberText (cs ++ '.' :: rest) := by
  have hpoint : ∀ c ∈ ('.' :: rest).head?, c.isDigit = false := by
    rintro c hc
    cases hc
    decide
  unfold numberText
  rw [takeWhile_append_of_head hdigits hpoint, dropWhile_append_of_head hdigits hpoint]
  simp [fractionPart]

/-- A position is scanned with the point behind it as one number. -/
theorem scans_position (hposition : isPosition cs = true) (h : WordsApart (cs ++ '.' :: rest)) :
    ∃ text ls, '.' ∈ text.toList ∧ Scans (.number text :: ls) (cs ++ '.' :: rest) ∧
      Spaced (.number text :: ls) := by
  obtain ⟨hne, hdigits⟩ := isPosition_iff.1 hposition
  have hmem := point_mem_numberText hdigits rest
  obtain ⟨c, tail, rfl⟩ := List.exists_cons_of_ne_nil hne
  have hc : c.isDigit = true := hdigits c List.mem_cons_self
  rw [List.cons_append] at h hmem ⊢
  obtain ⟨front, after, hsplit, hnumber, hscan⟩ := scanToken_digit (tail ++ '.' :: rest) hc
  rw [hnumber] at hmem
  rw [hsplit] at h hscan ⊢
  obtain ⟨ls, hscans, hspaced⟩ := exists_scans (h.suffix (c :: front))
  refine ⟨String.ofList (c :: front), ls, by rwa [String.toList_ofList], ?_, hspaced.number _⟩
  exact .lexeme (fun _ hb => absurd hb List.not_mem_nil) (isBlank_of_isDigit hc) hscan hscans

/-- A path with a position that takes the point behind it is scanned with a point in one of the
segments of its first name. -/
theorem scans_taken {first : List Char} {more : List (List Char)}
    (hpieces : ∀ p ∈ first :: more, IsPiece p)
    (htaken : ∃ p ∈ (first :: more).dropLast, takesPoint p = true) :
    ∃ l items after, Scans (l :: (pointed items ++ after)) (joined (first :: more)) ∧
      Spaced (l :: (pointed items ++ after)) ∧ (∀ x ∈ l :: items, x.IsSegment) ∧
      ∃ x ∈ l :: items, '.' ∈ x.text.toList := by
  induction more generalizing first with
  | nil =>
    obtain ⟨p, hp, -⟩ := htaken
    cases hp
  | cons next more ih =>
    have hwords := wordsApart_joined hpieces
    rw [joined_cons_cons] at hwords ⊢
    obtain ⟨hfirst, hmore⟩ := List.forall_mem_cons.1 hpieces
    by_cases hfirst' : takesPoint first = true
    · have hblanks : ∀ b ∈ first.takeWhile isBlank, isBlank b = true :=
        List.all_eq_true.1 List.all_takeWhile
      have htext : first ++ '.' :: joined (next :: more) = first.takeWhile isBlank ++
          (first.dropWhile isBlank ++ '.' :: joined (next :: more)) := by
        rw [← List.append_assoc, List.takeWhile_append_dropWhile]
      rw [htext] at hwords ⊢
      obtain ⟨text, ls, hpoint, hscans, hspaced⟩ := scans_position hfirst' (hwords.suffix _)
      refine ⟨.number text, [], ls, hscans.blanksBefore hblanks, hspaced, ?_, _,
        List.mem_cons_self, hpoint⟩
      exact List.forall_mem_singleton.2 trivial
    · obtain ⟨p, hp, htakes⟩ := htaken
      rw [List.dropLast_cons_cons, List.mem_cons] at hp
      have hp : p ∈ (next :: more).dropLast :=
        hp.resolve_left fun he => hfirst' (he ▸ htakes)
      obtain ⟨l, items, after, hscans, hspaced, hitems, x, hx, hpoint⟩ := ih hmore ⟨p, hp, htakes⟩
      refine ⟨pieceLexeme first, l :: items, after, ?_, hspaced.segment (isSegment_piece first),
        List.forall_mem_cons.2 ⟨isSegment_piece first, hitems⟩, x, List.mem_cons_of_mem _ hx,
        hpoint⟩
      refine scans_piece hfirst (fun c hc => ?_) (.inl (Bool.eq_false_iff.2 hfirst'))
        (scans_point hscans)
      cases hc
      rfl

end EnergyPlan.Expr
