/-
# The levels of the grammar

Each level of the grammar has a function that reads a term of that level. A row of lexemes reads
as a term at a level if that function takes exactly the row, whatever follows, as long as what
follows does not continue the term at that level or a tighter one. What reads at a level reads
at every looser one, unless it starts with a sign that the looser level would take first; and in
parentheses it reads at every level.

Key definitions: `Level`, `Level.parse`, `Level.signs`, `Ends`, `Reads`.
Key theorems: `Reads.looser`, `Reads.loosen`, `Reads.enclosed`.
-/
import EnergyPlan.Proofs.Outcomes
import EnergyPlan.Proofs.Syntax.Rendering

namespace EnergyPlan.Expr

/-- The levels of the grammar, from the loosest to the tightest binding. -/
inductive Level where
  | test
  | either
  | both
  | negation
  | comparison
  | sum
  | product
  | factor
  | power
  | access
  | atom
deriving DecidableEq, Repr

namespace Level

/-- Every level, from the loosest to the tightest. -/
def all : List Level :=
  [.test, .either, .both, .negation, .comparison, .sum, .product, .factor, .power, .access, .atom]

/-- How many levels are looser. -/
def rank : Level → Nat
  | .test => 0
  | .either => 1
  | .both => 2
  | .negation => 3
  | .comparison => 4
  | .sum => 5
  | .product => 6
  | .factor => 7
  | .power => 8
  | .access => 9
  | .atom => 10

/-- The next tighter level. -/
def tighter (level : Level) : Level := all.getD (level.rank + 1) .atom

/-- The function that reads a term of a level. -/
def parse : Level → Nat → Nat → List Token → Read (Term × List Token)
  | .test => parseTest
  | .either => parseOr
  | .both => parseAnd
  | .negation => parseNot
  | .comparison => parseComparison
  | .sum => parseArith
  | .product => parseTerm
  | .factor => parseFactor
  | .power => parsePower
  | .access => parsePostfix
  | .atom => parseAtom

/-- The lexemes that continue a term of a level after an operand. -/
def signs : Level → List Lexeme
  | .test => [.name "if"]
  | .either => [.name "or"]
  | .both => [.name "and"]
  | .negation => []
  | .comparison => .name "not" :: comparisonSigns.map Prod.fst
  | .sum => additiveSigns.map Prod.fst
  | .product => multiplicativeSigns.map Prod.fst
  | .factor => []
  | .power => powerSigns.map Prod.fst
  | .access => [.op "[", .op "."]
  | .atom => [.op "(", .op "."]

/-- The lexemes that stand before an operand of a level. -/
def prefixes : Level → List Lexeme
  | .negation => [.name "not"]
  | .factor => unarySigns.map Prod.fst
  | _ => []

end Level

/-- A lexeme does not continue a term of a level, or of a tighter one. -/
def Stops (level : Level) (l : Lexeme) : Prop :=
  ∀ other ∈ Level.all, level.rank ≤ other.rank → l ∉ other.signs

instance (level : Level) (l : Lexeme) : Decidable (Stops level l) :=
  inferInstanceAs (Decidable (∀ other ∈ Level.all, _ → _))

/-- The next lexeme has a property, if there is one. -/
def Next (p : Lexeme → Prop) (rest : List Token) : Prop := ∀ t ∈ rest.head?, p t.lexeme

/-- What follows does not continue a term of a level, or of a tighter one. -/
def Ends (level : Level) (rest : List Token) : Prop := Next (Stops level) rest

/-- What follows starts with one of some lexemes, if anything follows. -/
def Follows (allowed : List Lexeme) (rest : List Token) : Prop := Next (· ∈ allowed) rest

/-- A row starts with a lexeme that no level looser than the given one would take first. -/
def Starts (level : Level) (ls : List Lexeme) : Prop :=
  ∃ l tail, ls = l :: tail ∧ ∀ other ∈ Level.all, other.rank < level.rank → l ∉ other.prefixes

/-- A row of lexemes reads as a term at a level, with sixteen calls for each of them less one for
each looser level. -/
def Reads (level : Level) (ls : List Lexeme) (t : Term) : Prop :=
  ∀ stop calls ts rest, ts.map Token.lexeme = ls → Ends level rest →
    16 * ts.length ≤ calls + level.rank → level.parse stop calls (ts ++ rest) = .ok (t, rest)

/-! ### What comes next -/

attribute [simp] ok_bind

@[simp] theorem accept?_self (l : Lexeme) (position : Nat) (ts : List Token) :
    accept? l (⟨l, position⟩ :: ts) = some ts := if_pos rfl

theorem accept?_of_ne {l : Lexeme} {ts : List Token} (h : ∀ t ∈ ts.head?, t.lexeme ≠ l) :
    accept? l ts = none := by
  cases ts with
  | nil => rfl
  | cons t rest => exact if_neg (h t rfl)

/-- The first of the tokens of a row. -/
theorem exists_cons_of_lexemes {ts : List Token} {l : Lexeme} {ls : List Lexeme}
    (h : ts.map Token.lexeme = l :: ls) :
    ∃ position rest, ts = ⟨l, position⟩ :: rest ∧ rest.map Token.lexeme = ls := by
  obtain ⟨⟨_, position⟩, rest, rfl, rfl, hrest⟩ := List.map_eq_cons_iff.1 h
  exact ⟨position, rest, rfl, hrest⟩

/-- The last of the tokens of a row. -/
theorem exists_closed_of_lexemes {ts : List Token} {ls : List Lexeme} {l : Lexeme}
    (h : ts.map Token.lexeme = ls ++ [l]) :
    ∃ inner position, ts = inner ++ [⟨l, position⟩] ∧ inner.map Token.lexeme = ls := by
  obtain ⟨inner, last, rfl, hinner, hlast⟩ := List.map_eq_append_iff.1 h
  obtain ⟨position, tail, rfl, htail⟩ := exists_cons_of_lexemes hlast
  cases List.map_eq_nil_iff.1 htail
  exact ⟨inner, position, rfl, hinner⟩

theorem length_pos_of_lexemes {ts : List Token} {ls : List Lexeme}
    (hts : ts.map Token.lexeme = ls) (hne : ls ≠ []) : 0 < ts.length :=
  List.length_pos_iff.2 fun h => hne (by rw [← hts, h]; rfl)

theorem acceptAny?_of_forall {α : Type} {choices : List (Lexeme × α)} {ts : List Token}
    (h : ∀ l ∈ choices.map Prod.fst, accept? l ts = none) : acceptAny? choices ts = none := by
  rw [acceptAny?, List.findSome?_eq_none_iff]
  intro choice hc
  simp [h choice.1 (List.mem_map_of_mem hc)]

theorem Ends.mono {level other : Level} {rest : List Token} (h : Ends level rest)
    (hle : level.rank ≤ other.rank) : Ends other rest :=
  fun t ht third hthird hrank => h t ht third hthird (Nat.le_trans hle hrank)

theorem Level.mem_all (level : Level) : level ∈ all := by
  cases level <;> decide

/-- No sign of the level, or of a tighter one, comes next. -/
theorem Ends.accept? {level other : Level} {rest : List Token} (h : Ends level rest)
    (hle : level.rank ≤ other.rank) {l : Lexeme} (hl : l ∈ other.signs) :
    accept? l rest = none :=
  accept?_of_ne fun t ht he => h t ht other other.mem_all hle (he ▸ hl)

/-- No sign of the level comes next, whatever the signs stand for. -/
theorem Ends.acceptAny? {α : Type} {level : Level} {rest : List Token} (h : Ends level rest)
    {choices : List (Lexeme × α)} (hsigns : choices.map Prod.fst = level.signs) :
    acceptAny? choices rest = none :=
  acceptAny?_of_forall fun _ hl => h.accept? (Nat.le_refl _) (hsigns ▸ hl)

theorem Follows.accept? {allowed : List Lexeme} {rest : List Token} (h : Follows allowed rest)
    {l : Lexeme} (hl : l ∉ allowed) : accept? l rest = none :=
  accept?_of_ne fun t ht he => hl (he ▸ h t ht)

theorem Follows.ends {allowed : List Lexeme} {rest : List Token} (h : Follows allowed rest)
    {level : Level} (hstop : ∀ l ∈ allowed, Stops level l) : Ends level rest :=
  fun t ht => hstop _ (h t ht)

theorem next_cons {p : Lexeme → Prop} {l : Lexeme} (h : p l) (position : Nat)
    (rest : List Token) : Next p (⟨l, position⟩ :: rest) := by
  rintro t ht
  cases ht
  exact h

theorem Next.append {p : Lexeme → Prop} {ts rest : List Token} {ls : List Lexeme}
    (hts : ts.map Token.lexeme = ls) (hls : ∀ l ∈ ls.head?, p l) (hrest : Next p rest) :
    Next p (ts ++ rest) := by
  cases ts with
  | nil => exact hrest
  | cons t ts =>
    rw [List.map_cons] at hts
    exact next_cons (hls t.lexeme (by rw [← hts]; rfl)) t.position _

/-- A lexeme that no looser level takes first is not taken first. -/
theorem Starts.accept? {level other : Level} {ls : List Lexeme} {ts rest : List Token}
    (h : Starts level ls) (hlt : other.rank < level.rank) (hts : ts.map Token.lexeme = ls)
    {l : Lexeme} (hl : l ∈ other.prefixes) : accept? l (ts ++ rest) = none := by
  obtain ⟨first, tail, rfl, hfirst⟩ := h
  obtain ⟨t, ts, rfl, rfl, -⟩ := List.map_eq_cons_iff.1 hts
  refine accept?_of_ne fun t' ht' he => ?_
  cases ht'
  exact hfirst other other.mem_all hlt (he ▸ hl)

theorem Starts.ne_nil {level : Level} {ls : List Lexeme} (h : Starts level ls) : ls ≠ [] := by
  obtain ⟨l, tail, rfl, -⟩ := h
  exact List.cons_ne_nil l tail

theorem Starts.mono {level other : Level} {ls : List Lexeme} (h : Starts level ls)
    (hle : other.rank ≤ level.rank) : Starts other ls := by
  obtain ⟨l, tail, rfl, hl⟩ := h
  exact ⟨l, tail, rfl, fun third hthird hlt => hl third hthird (Nat.lt_of_lt_of_le hlt hle)⟩

/-! ### One level looser -/

section

variable {ls : List Lexeme} {t : Term}

/-- There are calls left for a row that is not empty. -/
theorem exists_calls {level : Level} {calls : Nat} {ts : List Token}
    (hts : ts.map Token.lexeme = ls) (hne : ls ≠ [])
    (hcalls : 16 * ts.length ≤ calls + level.rank) : ∃ n, calls = n + 5 := by
  have hrank : level.rank ≤ 10 := by cases level <;> decide
  have hlen := length_pos_of_lexemes hts hne
  exact ⟨calls - 5, by omega⟩

/-- To read a row at a level, the calls for one lexeme go into passing the levels. -/
theorem reads_of_calls {level : Level} (hne : ls ≠ [])
    (h : ∀ stop n ts rest, ts.map Token.lexeme = ls → Ends level rest →
      16 * ts.length ≤ n + 15 → level.parse stop (n + 5) (ts ++ rest) = .ok (t, rest)) :
    Reads level ls t := by
  intro stop calls ts rest hts hends hcalls
  obtain ⟨n, rfl⟩ := exists_calls hts hne hcalls
  have hrank : level.rank ≤ 10 := by cases level <;> decide
  exact h stop n ts rest hts hends (by omega)

/-- What a looser level does, once the tighter level has read the row. -/
theorem Reads.climb {level other : Level} (h : Reads other ls t) (hs : Starts other ls)
    (hrank : other.rank = level.rank + 1)
    (hparse : ∀ stop n ts rest, other.parse stop (n + 4) (ts ++ rest) = .ok (t, rest) →
      (∀ l ∈ level.prefixes, accept? l (ts ++ rest) = none) →
      Ends level rest → level.parse stop (n + 5) (ts ++ rest) = .ok (t, rest)) :
    Reads level ls t := by
  intro stop calls ts rest hts hends hcalls
  obtain ⟨n, rfl⟩ := exists_calls hts hs.ne_nil hcalls
  have hread := h stop (n + 4) ts rest hts (hends.mono (by omega)) (by omega)
  exact hparse stop n ts rest hread (fun l hl => hs.accept? (by omega) hts hl) hends

theorem Reads.to_test (h : Reads .either ls t) (hs : Starts .either ls) : Reads .test ls t := by
  refine h.climb hs rfl fun stop n ts rest hread _ hends => ?_
  have hif : accept? (.name "if") rest = none := hends.accept? (Nat.le_refl _) (by decide)
  simp only [Level.parse] at hread ⊢
  rw [parseTest, hread, ok_bind]
  simp only [hif]
  rfl

theorem Reads.to_either (h : Reads .both ls t) (hs : Starts .both ls) : Reads .either ls t := by
  refine h.climb hs rfl fun stop n ts rest hread _ hends => ?_
  have hor : accept? (.name "or") rest = none := hends.accept? (Nat.le_refl _) (by decide)
  simp only [Level.parse] at hread ⊢
  rw [parseOr, hread, ok_bind]
  dsimp only
  rw [orRest]
  simp only [hor]

theorem Reads.to_both (h : Reads .negation ls t) (hs : Starts .negation ls) :
    Reads .both ls t := by
  refine h.climb hs rfl fun stop n ts rest hread _ hends => ?_
  have hand : accept? (.name "and") rest = none := hends.accept? (Nat.le_refl _) (by decide)
  simp only [Level.parse] at hread ⊢
  rw [parseAnd, hread, ok_bind]
  dsimp only
  rw [andRest]
  simp only [hand]

theorem Reads.to_negation (h : Reads .comparison ls t) (hs : Starts .comparison ls) :
    Reads .negation ls t := by
  refine h.climb hs rfl fun stop n ts rest hread hprefixes _ => ?_
  have hnot : accept? (.name "not") (ts ++ rest) = none := hprefixes _ (by decide)
  simp only [Level.parse] at hread ⊢
  rw [parseNot]
  simp only [hnot, hread]

theorem Ends.comparison? {rest : List Token} (h : Ends .comparison rest) :
    comparison? rest = none := by
  have hany : Expr.acceptAny? comparisonSigns rest = none :=
    acceptAny?_of_forall fun l hl => h.accept? (Nat.le_refl _) (List.mem_cons_of_mem _ hl)
  have hnot : Expr.accept? (.name "not") rest = none :=
    h.accept? (Nat.le_refl _) List.mem_cons_self
  simp only [Expr.comparison?, hany, hnot]
  rfl

theorem Reads.to_comparison (h : Reads .sum ls t) (hs : Starts .sum ls) :
    Reads .comparison ls t := by
  refine h.climb hs rfl fun stop n ts rest hread _ hends => ?_
  simp only [Level.parse] at hread ⊢
  rw [parseComparison, hread, ok_bind]
  dsimp only
  rw [comparisonRest]
  simp only [hends.comparison?, ok_bind]
  rfl

theorem Reads.to_sum (h : Reads .product ls t) (hs : Starts .product ls) : Reads .sum ls t := by
  refine h.climb hs rfl fun stop n ts rest hread _ hends => ?_
  have hany : acceptAny? additiveSigns rest = none := hends.acceptAny? rfl
  simp only [Level.parse] at hread ⊢
  rw [parseArith, hread, ok_bind]
  dsimp only
  rw [arithRest]
  simp only [hany]

theorem Reads.to_product (h : Reads .factor ls t) (hs : Starts .factor ls) :
    Reads .product ls t := by
  refine h.climb hs rfl fun stop n ts rest hread _ hends => ?_
  have hany : acceptAny? multiplicativeSigns rest = none := hends.acceptAny? rfl
  simp only [Level.parse] at hread ⊢
  rw [parseTerm, hread, ok_bind]
  dsimp only
  rw [termRest]
  simp only [hany]

theorem Reads.to_factor (h : Reads .power ls t) (hs : Starts .power ls) : Reads .factor ls t := by
  refine h.climb hs rfl fun stop n ts rest hread hprefixes _ => ?_
  have hany : acceptAny? unarySigns (ts ++ rest) = none := acceptAny?_of_forall hprefixes
  simp only [Level.parse] at hread ⊢
  rw [parseFactor]
  simp only [hany, hread]

theorem Reads.to_power (h : Reads .access ls t) (hs : Starts .access ls) : Reads .power ls t := by
  refine h.climb hs rfl fun stop n ts rest hread _ hends => ?_
  have hany : acceptAny? powerSigns rest = none := hends.acceptAny? rfl
  simp only [Level.parse] at hread ⊢
  rw [parsePower, hread, ok_bind]
  simp only [hany]
  rfl

theorem postfixRest_end {stop n : Nat} {rest : List Token} (hends : Ends .access rest) :
    postfixRest stop (n + 1) t rest = .ok (t, rest) := by
  have hbracket : accept? (.op "[") rest = none := hends.accept? (Nat.le_refl _) (by decide)
  have hpoint : accept? (.op ".") rest = none := hends.accept? (Nat.le_refl _) (by decide)
  rw [postfixRest]
  simp only [hbracket, hpoint, ite_self]

theorem Reads.to_access (h : Reads .atom ls t) (hs : Starts .atom ls) : Reads .access ls t := by
  refine h.climb hs rfl fun stop n ts rest hread _ hends => ?_
  simp only [Level.parse] at hread ⊢
  rw [parsePostfix, hread, ok_bind]
  exact postfixRest_end hends

/-- What reads at a level reads at the next looser one. -/
theorem Reads.looser {level : Level} (hlevel : level ≠ .atom) (h : Reads level.tighter ls t)
    (hs : Starts level.tighter ls) : Reads level ls t := by
  cases level with
  | test => exact h.to_test hs
  | either => exact h.to_either hs
  | both => exact h.to_both hs
  | negation => exact h.to_negation hs
  | comparison => exact h.to_comparison hs
  | sum => exact h.to_sum hs
  | product => exact h.to_product hs
  | factor => exact h.to_factor hs
  | power => exact h.to_power hs
  | access => exact h.to_access hs
  | atom => exact absurd rfl hlevel

theorem Level.getElem?_rank (level : Level) : all[level.rank]? = some level := by
  cases level <;> rfl

theorem Level.rank_tighter {level : Level} (h : level ≠ .atom) :
    level.tighter.rank = level.rank + 1 := by
  cases level <;> first | rfl | exact absurd rfl h

/-- **What reads at a level reads at every looser one.** -/
theorem Reads.loosen {level other : Level} (h : Reads level ls t) (hs : Starts level ls)
    (hle : other.rank ≤ level.rank) : Reads other ls t := by
  obtain ⟨n, hn⟩ := Nat.exists_eq_add_of_le hle
  induction n generalizing other with
  | zero =>
    have heq := level.getElem?_rank
    rw [hn, Nat.add_zero, other.getElem?_rank] at heq
    cases heq
    exact h
  | succ n ih =>
    have hne : other ≠ .atom := by
      rintro rfl
      have hlevel : level.rank ≤ 10 := by cases level <;> decide
      have hatom : Level.atom.rank = 10 := rfl
      omega
    have hrank := Level.rank_tighter hne
    exact (ih (by omega) (by omega)).looser hne (hs.mono (by omega))

/-! ### Parentheses -/

/-- The lexemes that close what was opened. -/
def closers : List Lexeme := [.op ")", .op "]", .op "\x7d"]

/-- A row starts with a lexeme that closes nothing. -/
def Opens (ls : List Lexeme) : Prop := ∃ l tail, ls = l :: tail ∧ l ∉ closers

theorem Opens.accept? (h : Opens ls) {ts rest : List Token} (hts : ts.map Token.lexeme = ls)
    {l : Lexeme} (hl : l ∈ closers) : accept? l (ts ++ rest) = none := by
  obtain ⟨first, tail, rfl, hfirst⟩ := h
  obtain ⟨t, ts, rfl, rfl, -⟩ := List.map_eq_cons_iff.1 hts
  refine accept?_of_ne fun t' ht' he => ?_
  cases ht'
  exact hfirst (he ▸ hl)

theorem starts_enclosed (level : Level) (ls : List Lexeme) : Starts level (enclosed ls) := by
  refine ⟨_, _, rfl, fun other _ _ => ?_⟩
  cases other <;> decide

/-- What reads as a test reads in parentheses as an atom. -/
theorem Reads.enclosed_atom (h : Reads .test ls t) (ho : Opens ls) :
    Reads .atom (enclosed ls) t := by
  refine reads_of_calls (List.cons_ne_nil _ _) fun stop n all rest hall _ hcalls => ?_
  obtain ⟨p, inner, rfl, hinner⟩ := exists_cons_of_lexemes hall
  obtain ⟨ts, q, rfl, hts⟩ := exists_closed_of_lexemes hinner
  simp only [List.length_cons, List.length_append, List.length_nil] at hcalls
  have hcloses : Follows closers (⟨.op ")", q⟩ :: rest) := next_cons (by decide) q rest
  have hread : parseTest stop (n + 3) (ts ++ ⟨.op ")", q⟩ :: rest) = .ok (t, _) :=
    h stop (n + 3) ts _ hts (hcloses.ends (by decide)) (by omega)
  have hclose : accept? (.op ")") (ts ++ ⟨.op ")", q⟩ :: rest) = none := ho.accept? hts (by decide)
  have hfor : accept? (.name "for") (⟨.op ")", q⟩ :: rest) = none := hcloses.accept? (by decide)
  have hcomma : accept? (.op ",") (⟨.op ")", q⟩ :: rest) = none := hcloses.accept? (by decide)
  simp only [Level.parse, List.cons_append, List.append_assoc, List.nil_append]
  rw [parseAtom]
  dsimp only
  rw [parseParenthesis]
  simp only [hclose, hread, ok_bind, hfor, hcomma, expectOp, accept?_self]
  rfl

/-- **What reads as a test reads in parentheses at every level.** -/
theorem Reads.enclosed (h : Reads .test ls t) (ho : Opens ls) (level : Level) :
    Reads level (enclosed ls) t :=
  (h.enclosed_atom ho).loosen (starts_enclosed .atom ls) (by cases level <;> decide)

end

end EnergyPlan.Expr
