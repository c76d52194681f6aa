/-
# Rows of names, numbers and points

In the text of a path only names, numbers and points occur, and nothing but a point comes behind
a name. What is read of such tokens, if they start with a name, is a dotted name: the segments that
follow it with points. Nothing continues it, for a number or a point is no operator, and behind a
word that is one the next token is a point, with which no operand starts.

Key definitions: `Spaced`, `ReadsAtMost`, `Halts`.
Key theorems: `ReadsAtMost.level`, `halts_spaced`, `parseAll_spaced`.
-/
import EnergyPlan.Proofs.Outcomes
import EnergyPlan.Proofs.Syntax.Operators

namespace EnergyPlan.Expr

/-- A row of names, numbers and points, with nothing but a point behind a name. -/
def Spaced : List Lexeme → Prop
  | [] => True
  | l :: ls => (l.IsSegment ∨ l = .op ".") ∧
      (∀ name, l = .name name → ∀ next ∈ ls.head?, next = .op ".") ∧ Spaced ls

/-- All that a level can read of some tokens is an outcome, or nothing. -/
def ReadsAtMost (stop : Nat) (level : Level) (ts : List Token)
    (outcome : Option (Term × List Token)) : Prop :=
  ∀ calls read, level.parse stop calls ts = .ok read → outcome = some read

/-- Nothing can be read of some tokens, at any level. -/
def Unreadable (stop : Nat) (ts : List Token) : Prop := ∀ level, ReadsAtMost stop level ts none

/-- An operator sign that continues terms. -/
def Lexeme.isSign : Lexeme → Bool
  | .op text => text ≠ "."
  | _ => false

/-- A dotted name is not continued by what follows: no sign comes next, and nothing can be read
behind a word. -/
structure Halts (stop : Nat) (t : Term) (rest : List Token) : Prop where
  name : t.isName = true
  sign : ∀ l, l.isSign = true → accept? l rest = none
  word : ∀ name tail, accept? (.name name) rest = some tail →
    Unreadable stop tail ∧ accept? (.name "in") tail = none

variable {stop n : Nat} {t : Term} {ts rest : List Token} {read : Term × List Token}
  {outcome : Option (Term × List Token)}

/-! ### What continues a term -/

theorem Unreadable.elim (h : Unreadable stop ts) (level : Level)
    (hread : level.parse stop n ts = .ok read) : False := by
  cases h level n read hread

theorem Halts.acceptAny? {α : Type} (h : Halts stop t rest) {choices : List (Lexeme × α)}
    (hsigns : ∀ l ∈ choices.map Prod.fst, l.isSign = true) : acceptAny? choices rest = none :=
  acceptAny?_of_forall fun l hl => h.sign l (hsigns l hl)

/-- Nothing can be read behind a comparison operator. -/
theorem Halts.comparison (h : Halts stop t rest) {op : CompareOp}
    (hop : comparison? rest = some (op, ts)) : Unreadable stop ts := by
  unfold comparison? at hop
  split at hop
  · next found hfound =>
    cases hop
    obtain ⟨⟨l, meaning⟩, hl, haccept⟩ := List.exists_of_findSome?_eq_some hfound
    obtain ⟨tail, htail, he⟩ := Option.map_eq_some_iff.1 haccept
    cases he
    have hcases : ∀ choice ∈ comparisonSigns, choice.1.isSign = true ∨ choice.1 = .name "in" := by
      decide
    rcases hcases _ hl with hsign | rfl
    · rw [h.sign _ hsign] at htail
      cases htail
    · exact (h.word _ _ htail).1
  · obtain ⟨last, hlast, he⟩ := Option.map_eq_some_iff.1 hop
    obtain ⟨tail, htail, hin⟩ := Option.bind_eq_some_iff.1 hlast
    rw [(h.word _ _ htail).2] at hin
    cases hin

/-! ### The loops -/

theorem Halts.orRest (h : Halts stop t rest) (hread : orRest stop n t rest = .ok read) :
    read = (t, rest) := by
  cases n with
  | zero => cases hread
  | succ n =>
    rw [Expr.orRest] at hread
    split at hread
    · cases hread
      rfl
    · next tail htail =>
      obtain ⟨_, hright, -⟩ := bind_eq_ok hread
      exact ((h.word _ _ htail).1.elim .both hright).elim

theorem Halts.andRest (h : Halts stop t rest) (hread : andRest stop n t rest = .ok read) :
    read = (t, rest) := by
  cases n with
  | zero => cases hread
  | succ n =>
    rw [Expr.andRest] at hread
    split at hread
    · cases hread
      rfl
    · next tail htail =>
      obtain ⟨_, hright, -⟩ := bind_eq_ok hread
      exact ((h.word _ _ htail).1.elim .negation hright).elim

theorem Halts.comparisonRest (h : Halts stop t rest)
    {links : List (CompareOp × Term) × List Token}
    (hread : comparisonRest stop n rest = .ok links) : links = ([], rest) := by
  cases n with
  | zero => cases hread
  | succ n =>
    rw [Expr.comparisonRest] at hread
    split at hread
    · cases hread
      rfl
    · next op tail hop =>
      obtain ⟨_, hright, -⟩ := bind_eq_ok hread
      exact ((h.comparison hop).elim .sum hright).elim

theorem Halts.arithRest (h : Halts stop t rest) (hread : arithRest stop n t rest = .ok read) :
    read = (t, rest) := by
  cases n with
  | zero => cases hread
  | succ n =>
    rw [Expr.arithRest, h.acceptAny? (by decide)] at hread
    cases hread
    rfl

theorem Halts.termRest (h : Halts stop t rest) (hread : termRest stop n t rest = .ok read) :
    read = (t, rest) := by
  cases n with
  | zero => cases hread
  | succ n =>
    rw [Expr.termRest, h.acceptAny? (by decide)] at hread
    cases hread
    rfl

theorem Halts.postfixRest (h : Halts stop t rest) (hread : postfixRest stop n t rest = .ok read) :
    read = (t, rest) := by
  cases n with
  | zero => cases hread
  | succ n =>
    rw [Expr.postfixRest] at hread
    simp only [h.sign (.op "[") (by decide), h.name, if_true] at hread
    cases hread
    rfl

/-! ### The levels -/

section

variable (hhalts : ∀ t rest, outcome = some (t, rest) → Halts stop t rest)
include hhalts

/-- What a looser level makes of all that the tighter one can read. -/
theorem ReadsAtMost.climb {level other : Level} (h : ReadsAtMost stop other ts outcome)
    (hparse : ∀ n read, level.parse stop (n + 1) ts = .ok read → ∃ t rest,
      other.parse stop n ts = .ok (t, rest) ∧ (Halts stop t rest → read = (t, rest))) :
    ReadsAtMost stop level ts outcome := by
  intro calls read hread
  cases calls with
  | zero => cases level <;> cases hread
  | succ n =>
    obtain ⟨t, rest, hother, hhalt⟩ := hparse n read hread
    have houtcome := h n _ hother
    rw [houtcome, hhalt (hhalts t rest houtcome)]

theorem ReadsAtMost.to_access (h : ReadsAtMost stop .atom ts outcome) :
    ReadsAtMost stop .access ts outcome := by
  refine h.climb hhalts fun n read hread => ?_
  simp only [Level.parse] at hread
  rw [parsePostfix] at hread
  obtain ⟨⟨t, rest⟩, htarget, hrest⟩ := bind_eq_ok hread
  exact ⟨t, rest, htarget, fun hhalt => hhalt.postfixRest hrest⟩

theorem ReadsAtMost.to_power (h : ReadsAtMost stop .access ts outcome) :
    ReadsAtMost stop .power ts outcome := by
  refine h.climb hhalts fun n read hread => ?_
  simp only [Level.parse] at hread
  rw [parsePower] at hread
  obtain ⟨⟨t, rest⟩, hbase, hrest⟩ := bind_eq_ok hread
  refine ⟨t, rest, hbase, fun hhalt => ?_⟩
  dsimp only at hrest
  rw [hhalt.acceptAny? (by decide)] at hrest
  cases hrest
  rfl

theorem ReadsAtMost.to_factor (h : ReadsAtMost stop .power ts outcome)
    (hplain : ∀ l ∈ Level.factor.prefixes, accept? l ts = none) :
    ReadsAtMost stop .factor ts outcome := by
  refine h.climb hhalts fun n read hread => ?_
  simp only [Level.parse] at hread
  rw [parseFactor, acceptAny?_of_forall hplain] at hread
  exact ⟨read.1, read.2, hread, fun _ => rfl⟩

theorem ReadsAtMost.to_product (h : ReadsAtMost stop .factor ts outcome) :
    ReadsAtMost stop .product ts outcome := by
  refine h.climb hhalts fun n read hread => ?_
  simp only [Level.parse] at hread
  rw [parseTerm] at hread
  obtain ⟨⟨t, rest⟩, hleft, hrest⟩ := bind_eq_ok hread
  exact ⟨t, rest, hleft, fun hhalt => hhalt.termRest hrest⟩

theorem ReadsAtMost.to_sum (h : ReadsAtMost stop .product ts outcome) :
    ReadsAtMost stop .sum ts outcome := by
  refine h.climb hhalts fun n read hread => ?_
  simp only [Level.parse] at hread
  rw [parseArith] at hread
  obtain ⟨⟨t, rest⟩, hleft, hrest⟩ := bind_eq_ok hread
  exact ⟨t, rest, hleft, fun hhalt => hhalt.arithRest hrest⟩

theorem ReadsAtMost.to_comparison (h : ReadsAtMost stop .sum ts outcome) :
    ReadsAtMost stop .comparison ts outcome := by
  refine h.climb hhalts fun n read hread => ?_
  simp only [Level.parse] at hread
  rw [parseComparison] at hread
  obtain ⟨⟨t, rest⟩, hfirst, hmore⟩ := bind_eq_ok hread
  refine ⟨t, rest, hfirst, fun hhalt => ?_⟩
  obtain ⟨links, hlinks, hrest⟩ := bind_eq_ok hmore
  obtain rfl := hhalt.comparisonRest hlinks
  cases hrest
  rfl

theorem ReadsAtMost.to_negation (h : ReadsAtMost stop .comparison ts outcome)
    (hplain : ∀ l ∈ Level.negation.prefixes, accept? l ts = none) :
    ReadsAtMost stop .negation ts outcome := by
  refine h.climb hhalts fun n read hread => ?_
  simp only [Level.parse] at hread
  rw [parseNot, hplain _ (by decide)] at hread
  exact ⟨read.1, read.2, hread, fun _ => rfl⟩

theorem ReadsAtMost.to_both (h : ReadsAtMost stop .negation ts outcome) :
    ReadsAtMost stop .both ts outcome := by
  refine h.climb hhalts fun n read hread => ?_
  simp only [Level.parse] at hread
  rw [parseAnd] at hread
  obtain ⟨⟨t, rest⟩, hleft, hrest⟩ := bind_eq_ok hread
  exact ⟨t, rest, hleft, fun hhalt => hhalt.andRest hrest⟩

theorem ReadsAtMost.to_either (h : ReadsAtMost stop .both ts outcome) :
    ReadsAtMost stop .either ts outcome := by
  refine h.climb hhalts fun n read hread => ?_
  simp only [Level.parse] at hread
  rw [parseOr] at hread
  obtain ⟨⟨t, rest⟩, hleft, hrest⟩ := bind_eq_ok hread
  exact ⟨t, rest, hleft, fun hhalt => hhalt.orRest hrest⟩

theorem ReadsAtMost.to_test (h : ReadsAtMost stop .either ts outcome) :
    ReadsAtMost stop .test ts outcome := by
  refine h.climb hhalts fun n read hread => ?_
  simp only [Level.parse] at hread
  rw [parseTest] at hread
  obtain ⟨⟨t, rest⟩, hvalue, hrest⟩ := bind_eq_ok hread
  refine ⟨t, rest, hvalue, fun hhalt => ?_⟩
  dsimp only at hrest
  split at hrest
  · cases hrest
    rfl
  · next tail htail =>
    obtain ⟨_, hcondition, -⟩ := bind_eq_ok hrest
    exact ((hhalt.word _ _ htail).1.elim .either hcondition).elim

/-- **What is all that can be read as an atom is all that can be read at any level,** if it is not
continued and no sign stands before it. -/
theorem ReadsAtMost.loosen (h : ReadsAtMost stop .atom ts outcome)
    (hplain : ∀ level : Level, ∀ l ∈ level.prefixes, accept? l ts = none) (level : Level) :
    ReadsAtMost stop level ts outcome := by
  have haccess := h.to_access hhalts
  have hpower := haccess.to_power hhalts
  have hfactor := hpower.to_factor hhalts (hplain .factor)
  have hproduct := hfactor.to_product hhalts
  have hsum := hproduct.to_sum hhalts
  have hcomparison := hsum.to_comparison hhalts
  have hnegation := hcomparison.to_negation hhalts (hplain .negation)
  have hboth := hnegation.to_both hhalts
  have heither := hboth.to_either hhalts
  cases level with
  | test => exact heither.to_test hhalts
  | either => exact heither
  | both => exact hboth
  | negation => exact hnegation
  | comparison => exact hcomparison
  | sum => exact hsum
  | product => exact hproduct
  | factor => exact hfactor
  | power => exact hpower
  | access => exact haccess
  | atom => exact h

end

/-! ### Rows of names, numbers and points -/

/-- Nothing can be read where a point comes next, or nothing. -/
theorem unreadable_point (h : ∀ t ∈ ts.head?, t.lexeme = .op ".") : Unreadable stop ts := by
  have hplain : ∀ level : Level, ∀ l ∈ level.prefixes, accept? l ts = none := by
    intro level l hl
    refine accept?_of_ne fun t ht he => ?_
    rw [h t ht] at he
    subst he
    cases level <;> exact absurd hl (by decide)
  have hatom : ReadsAtMost stop .atom ts none := by
    intro calls read hread
    simp only [Level.parse] at hread
    cases calls with
    | zero => cases hread
    | succ calls =>
      cases ts with
      | nil => cases hread
      | cons t rest =>
        rw [parseAtom, h t rfl] at hread
        cases hread
  exact hatom.loosen (fun _ _ he => by cases he) hplain

theorem Spaced.number {ls : List Lexeme} (h : Spaced ls) (text : String) :
    Spaced (.number text :: ls) :=
  ⟨.inl trivial, fun _ hname => (by cases hname), h⟩

/-- Behind anything that may stand in a path, a point may come. -/
theorem Spaced.segment {l : Lexeme} {ls : List Lexeme} (hl : l.IsSegment) (h : Spaced ls) :
    Spaced (l :: .op "." :: ls) := by
  refine ⟨.inl hl, fun _ _ next hnext => ?_, .inr rfl, fun _ hname => (by cases hname), h⟩
  cases hnext
  rfl

theorem Spaced.append {front back : List Lexeme} (h : Spaced (front ++ back)) : Spaced back := by
  induction front with
  | nil => exact h
  | cons l front ih => exact ih h.2.2

/-- What is left after the segments of a name is the end of what was there. -/
theorem segments_suffix (ts : List Token) : ∃ front, ts = front ++ (segments ts).2 := by
  fun_induction segments ts with
  | case1 p q rest text more ts hmore ih | case2 p q rest text more ts hmore ih =>
    obtain ⟨front, hfront⟩ := ih
    rw [hmore] at hfront
    exact ⟨_ :: _ :: front, congrArg (_ :: _ :: ·) hfront⟩
  | case3 => exact ⟨[], rfl⟩
  | case4 => exact ⟨[], rfl⟩

/-- Nothing in a row of names, numbers and points continues a name. -/
theorem halts_spaced (h : Spaced (rest.map Token.lexeme)) (hname : t.isName = true) :
    Halts stop t rest := by
  refine ⟨hname, fun l hl => accept?_of_ne ?_, fun name tail haccept => ?_⟩
  · rintro first hfirst rfl
    cases rest with
    | nil => cases hfirst
    | cons t' rest =>
      cases hfirst
      rcases h.1 with hsegment | hpoint
      · cases hlexeme : first.lexeme <;> rw [hlexeme] at hl hsegment <;> trivial
      · rw [hpoint] at hl
        cases hl
  · cases rest with
    | nil => cases haccept
    | cons first rest =>
      rw [accept?] at haccept
      split at haccept
      · next hlexeme =>
        cases haccept
        have hnext : ∀ t ∈ tail.head?, t.lexeme = .op "." := by
          intro t ht
          refine h.2.1 name hlexeme _ ?_
          rw [List.head?_map]
          exact Option.mem_map_of_mem _ ht
        refine ⟨unreadable_point hnext, accept?_of_ne fun t ht he => ?_⟩
        rw [hnext t ht] at he
        cases he
      · cases haccept

/-- All that a word can be read as, if it is no keyword and no parenthesis follows. -/
theorem readsAtMost_name {head : String} (position : Nat) (hhead : head ∉ keywords)
    (hopen : accept? (.op "(") ts = none) :
    ReadsAtMost stop .atom (⟨.name head, position⟩ :: ts)
      (some (.name head (segments ts).1, (segments ts).2)) := by
  intro calls read hread
  simp only [Level.parse] at hread
  cases calls with
  | zero => cases hread
  | succ calls =>
    rw [parseAtom] at hread
    cases calls with
    | zero => cases hread
    | succ calls =>
      dsimp only at hread
      rw [parseName_name hhead hopen] at hread
      cases hread
      rfl

/-- A word that is no keyword is no sign before an operand. -/
theorem accept?_name {head : String} {position : Nat} (hhead : head ∉ keywords) {level : Level}
    {l : Lexeme} (hl : l ∈ level.prefixes) : accept? l (⟨.name head, position⟩ :: ts) = none := by
  obtain ⟨hnot, hsign, -⟩ := plain_name hhead
  refine accept?_of_ne fun first hfirst he => ?_
  cases hfirst
  rw [← he] at hl
  cases level with
  | negation => exact hnot (List.mem_singleton.1 hl)
  | factor => exact hsign hl
  | _ => exact absurd hl List.not_mem_nil

/-- **All that a row of names, numbers and points can be read as is a dotted name,** if it starts
with a name. -/
theorem parseAll_spaced {head : String} {position : Nat} (hhead : IsVariable head)
    (h : Spaced (.name head :: ts.map Token.lexeme))
    (hread : parseAll stop (⟨.name head, position⟩ :: ts) = .ok t) :
    t = .name head (segments ts).1 := by
  have hopen : accept? (.op "(") ts = none := by
    refine accept?_of_ne fun first hfirst he => ?_
    have hpoint : first.lexeme = .op "." := by
      refine h.2.1 head rfl _ ?_
      rw [List.head?_map]
      exact Option.mem_map_of_mem _ hfirst
    exact absurd (hpoint.symm.trans he) (by decide)
  obtain ⟨front, hfront⟩ := segments_suffix ts
  have hrest : Spaced ((segments ts).2.map Token.lexeme) := by
    have hall := h.2.2
    rw [hfront, List.map_append] at hall
    exact hall.append
  have hhalts : ∀ t rest, some (Term.name head (segments ts).1, (segments ts).2) = some (t, rest) →
      Halts stop t rest := by
    intro t rest he
    cases he
    exact halts_spaced hrest rfl
  have htest := (readsAtMost_name position hhead.2 hopen).loosen hhalts
    (fun _ _ hl => accept?_name hhead.2 hl) .test
  rw [parseAll] at hread
  obtain ⟨⟨t', rest⟩, hterm, hend⟩ := bind_eq_ok hread
  cases htest (callBudget (⟨.name head, position⟩ :: ts)) (t', rest) hterm
  dsimp only at hend
  split at hend
  · cases hend
    rfl
  · cases hend

end EnergyPlan.Expr
