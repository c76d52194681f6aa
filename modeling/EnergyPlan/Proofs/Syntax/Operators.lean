/-
# Literals, names and operators

A literal and a dotted name are atoms. A term with an operator is read at the level of the
operator, if its operands are read back: they stand in parentheses, so they read at every level,
and the sign between them ends the first one and is taken at the operator's own level. Read at
any level, a term is read back as a test unless it starts with a sign that a looser level takes.

Key definitions: `Plain`.
Key theorems: `Reads.readBack`, `Reads.recovered_of_plain`, `reads_literal`, `reads_path`,
`reads_name`, `reads_joined`, `recovered_unary`, `recovered_binary`, `reads_compare`,
`reads_conditional`, `reads_subscript`.
-/
import EnergyPlan.Proofs.Syntax.Loops

namespace EnergyPlan.Expr

open Decimal Text

/-! ### Literals and names -/

/-- A lexeme that neither stands before an operand nor closes anything. -/
def Plain (l : Lexeme) : Prop :=
  l ≠ .name "not" ∧ l ∉ unarySigns.map Prod.fst ∧ l ∉ closers

instance (l : Lexeme) : Decidable (Plain l) := inferInstanceAs (Decidable (_ ∧ _))

theorem plain_number (text : String) : Plain (.number text) := by
  simp [Plain, unarySigns, closers]

theorem plain_string (text : String) : Plain (.string text) := by
  simp [Plain, unarySigns, closers]

theorem plain_name {name : String} (h : name ∉ keywords) : Plain (.name name) := by
  refine ⟨?_, by simp [unarySigns], by simp [closers]⟩
  rintro he
  cases he
  exact h (by decide)

theorem starts_atom {l : Lexeme} (h : Plain l) (tail : List Lexeme) : Starts .atom (l :: tail) := by
  refine ⟨l, tail, rfl, fun other _ _ => ?_⟩
  cases other with
  | negation => exact fun hm => h.1 (List.mem_singleton.1 hm)
  | factor => exact h.2.1
  | _ => exact List.not_mem_nil

/-- What starts with a plain lexeme is read back, if it is read at some level. -/
theorem Reads.readBack {level : Level} {t : Term} {l : Lexeme} {tail : List Lexeme}
    (h : Reads level (l :: tail) t) (hl : Plain l) : ReadBack (l :: tail) t := by
  refine ⟨h.loosen ?_ (Nat.zero_le _), l, tail, rfl, hl.2.2⟩
  exact (starts_atom hl tail).mono (by cases level <;> decide)

/-- What is read at its own level is read back as a test. -/
theorem Reads.recovered {level : Level} {t : Term} (h : Reads level t.lexemes t)
    (hs : Starts level t.lexemes) (ho : Opens t.lexemes) : Recovered t :=
  ⟨h.loosen hs (Nat.zero_le _), ho⟩

/-- A term whose lexemes start with a plain one is read back, if it is read at some level. -/
theorem Reads.recovered_of_plain {level : Level} {t : Term} {l : Lexeme} {tail : List Lexeme}
    (h : Reads level t.lexemes t) (hlexemes : t.lexemes = l :: tail) (hl : Plain l) :
    Recovered t := by
  rw [hlexemes] at h
  rw [Recovered, hlexemes]
  exact h.readBack hl

/-- Nothing is trimmed from a text without blanks. -/
theorem trimChars_of_not_blank {cs : List Char} (h : ∀ c ∈ cs, isBlank c = false) :
    trimChars cs = cs := by
  have hdrop : ∀ cs : List Char, (∀ c ∈ cs, isBlank c = false) → cs.dropWhile isBlank = cs := by
    intro cs h
    cases cs with
    | nil => rfl
    | cons c cs => rw [List.dropWhile_cons_of_neg (by simp [h c List.mem_cons_self])]
  rw [trimChars, hdrop cs h, trimEndChars, hdrop cs.reverse fun c hc => h c (List.mem_reverse.1 hc),
    List.reverse_reverse]

/-- The digits of an integer that is not negative write it. -/
theorem integer_digits {n : Int64} (h : 0 ≤ n.toInt) :
    integer (String.ofList (Nat.toDigits 10 n.toInt.toNat)) = some n := by
  have hdigit := isDigit_of_mem_toDigits n.toInt.toNat
  have htrim : trimChars (Nat.toDigits 10 n.toInt.toNat) = Nat.toDigits 10 n.toInt.toNat :=
    trimChars_of_not_blank fun c hc => isBlank_of_isDigit (hdigit c hc)
  have hread : readInt (Nat.toDigits 10 n.toInt.toNat) = some n.toInt := by
    rw [readInt_digits Nat.toDigits_ne_nil hdigit, ofDigits_toDigits]
    exact congrArg some (Int.toNat_of_nonneg h)
  have hbounds : minInt64 ≤ n.toInt ∧ n.toInt ≤ maxInt64 := by
    have hlow := n.le_toInt
    have hhigh := n.toInt_lt
    simp only [minInt64, maxInt64]
    omega
  rw [integer, String.toList_ofList, htrim, hread, Option.bind_some, int64?, if_pos hbounds,
    Int64.ofInt_toInt]

/-- Digits hold neither a point nor an exponent. -/
theorem not_marked_of_digits {cs : List Char} (h : ∀ c ∈ cs, c.isDigit = true) :
    (cs.any fun c => c = '.' || c = 'e' || c = 'E') = false := by
  rw [List.any_eq_false]
  intro c hc hmark
  have hdigit := h c hc
  simp only [Bool.or_eq_true, decide_eq_true_eq] at hmark
  rcases hmark with (rfl | rfl) | rfl <;> exact absurd hdigit (by decide)

theorem numberLiteral_digits {n : Int64} (h : 0 ≤ n.toInt) (stop : Nat) (ts : List Token) :
    numberLiteral (String.ofList (Nat.toDigits 10 n.toInt.toNat)) stop ts =
      .ok (.literal (.int n), ts) := by
  have hplain := not_marked_of_digits (isDigit_of_mem_toDigits n.toInt.toNat)
  rw [numberLiteral, String.toList_ofList, hplain, if_neg (by decide), integer_digits h]

theorem reads_literal {value : Value} {l : Lexeme} (h : value.literal? = some l) :
    Reads .atom [l] (.literal value) := by
  refine reads_of_calls (List.cons_ne_nil _ _) fun stop n ts rest hts _ _ => ?_
  obtain ⟨p, none, rfl, hnone⟩ := exists_cons_of_lexemes hts
  cases List.map_eq_nil_iff.1 hnone
  simp only [Level.parse, List.cons_append, List.nil_append]
  rw [parseAtom]
  unfold Value.literal? at h
  split at h
  · cases h
    rfl
  · cases h
    rfl
  · cases h
    rfl
  · split at h
    · next hn =>
      cases h
      exact numberLiteral_digits hn stop rest
    · cases h
  · cases h
    rfl
  · cases h

theorem plain_literal {value : Value} {l : Lexeme} (h : value.literal? = some l) : Plain l := by
  unfold Value.literal? at h
  split at h
  · cases h
    decide
  · cases h
    decide
  · cases h
    decide
  · split at h
    · cases h
      exact plain_number _
    · cases h
  · cases h
    exact plain_string _
  · cases h

/-- A word that is no keyword and that no parenthesis follows is a dotted name. -/
theorem parseName_name {stop n : Nat} {text : String} {ts : List Token} (h : text ∉ keywords)
    (hopen : accept? (.op "(") ts = none) :
    parseName stop (n + 1) text ts = .ok (.name text (segments ts).1, (segments ts).2) := by
  rw [parseName, if_neg h]
  · simp only [hopen]
  all_goals
    rintro rfl
    exact h (by decide)

/-- The name of a function before a parenthesis is a call. -/
theorem parseName_function {stop n : Nat} (function : Function) (position : Nat)
    (ts : List Token) : parseName stop (n + 1) function.name (⟨.op "(", position⟩ :: ts) =
      parseArguments stop n function ts := by
  have hword : function.name ∉ keywords := by cases function <;> decide
  rw [parseName, if_neg hword]
  · simp only [accept?_self, Function.ofName?_name]
  all_goals
    intro hname
    exact hword (by rw [hname]; decide)

/-- A lexeme that may stand behind a point in a dotted name. -/
def Lexeme.IsSegment : Lexeme → Prop
  | .name _ | .number _ => True
  | _ => False

/-- Lexemes with a point before each. -/
def pointed (ls : List Lexeme) : List Lexeme := ls.flatMap fun l => [.op ".", l]

/-- What follows with points is taken into a name before what comes then. -/
theorem segments_pointed {items : List Lexeme} {ts rest : List Token}
    (hitems : ∀ l ∈ items, l.IsSegment) (hts : ts.map Token.lexeme = pointed items) :
    segments (ts ++ rest) = (items.map Lexeme.text ++ (segments rest).1, (segments rest).2) := by
  induction items generalizing ts with
  | nil =>
    cases List.map_eq_nil_iff.1 hts
    rfl
  | cons l items ih =>
    rw [List.forall_mem_cons] at hitems
    obtain ⟨p, tail, rfl, htail⟩ := exists_cons_of_lexemes hts
    obtain ⟨q, more, rfl, hmore⟩ := exists_cons_of_lexemes htail
    cases l with
    | name text | number text =>
      rw [List.cons_append, List.cons_append, segments]
      dsimp only
      rw [ih hitems.2 hmore]
      rfl
    | string text | op text => exact hitems.1.elim

/-- Nothing is taken where no point comes next. -/
theorem segments_end {ts : List Token} (hpoint : accept? (.op ".") ts = none) :
    segments ts = ([], ts) := by
  unfold segments
  split
  · cases hpoint
  · rfl

/-- A word that is no keyword, and what follows it with points, is a dotted name. -/
theorem reads_path {head : String} {items : List Lexeme} (h : IsVariable head)
    (hitems : ∀ l ∈ items, l.IsSegment) :
    Reads .atom (.name head :: pointed items) (.name head (items.map Lexeme.text)) := by
  refine reads_of_calls (by simp) fun stop n all after hall hends _ => ?_
  obtain ⟨p, ts, rfl, hts⟩ := exists_cons_of_lexemes hall
  have hsegments : segments (ts ++ after) = (items.map Lexeme.text, after) := by
    rw [segments_pointed hitems hts, segments_end (hends.accept? (Nat.le_refl _) (by decide)),
      List.append_nil]
  have hopen : accept? (.op "(") (ts ++ after) = none := by
    have hnext : Next (· ≠ .op "(") (ts ++ after) := by
      refine Next.append hts (fun l hl => ?_) fun t ht he => ?_
      · cases items with
        | nil => cases hl
        | cons item items =>
          cases hl
          decide
      · exact hends t ht .atom (by decide) (Nat.le_refl _) (he ▸ by decide)
    exact accept?_of_ne hnext
  simp only [Level.parse, List.cons_append]
  rw [parseAtom]
  dsimp only
  rw [parseName_name h.2 hopen, hsegments]

theorem reads_name {head : String} {rest : List String} (h : IsVariable head) :
    Reads .atom (Term.name head rest).lexemes (.name head rest) := by
  have hreads : Reads .atom (.name head :: pointed (rest.map .name)) _ :=
    reads_path h (by simp [Lexeme.IsSegment])
  have htexts : (rest.map Lexeme.name).map Lexeme.text = rest := by
    simp [List.map_map, Function.comp_def, Lexeme.text]
  rw [htexts, pointed, List.flatMap_map] at hreads
  rwa [Term.lexemes]

/-! ### Operators -/

section

variable {left right operand : Term} {op : BinaryOp}

/-- Two operands around a sign are read at a level, if its function reads them at their levels. -/
theorem reads_joined {level : Level} (leftLevel rightLevel : Level) {sign : Lexeme} {joined : Term}
    (hl : Recovered left) (hr : Recovered right) (hstop : Stops leftLevel sign)
    (hends : ∀ rest, Ends level rest → Ends rightLevel rest)
    (hparse : ∀ stop n first position second rest,
      (∀ m, n ≤ m → leftLevel.parse stop m (first ++ ⟨sign, position⟩ :: second) =
        .ok (left, ⟨sign, position⟩ :: second)) →
      (∀ m, n ≤ m → rightLevel.parse stop m second = .ok (right, rest)) → Ends level rest →
        level.parse stop (n + 5) (first ++ ⟨sign, position⟩ :: second) = .ok (joined, rest)) :
    Reads level (enclosed left.lexemes ++ sign :: enclosed right.lexemes) joined := by
  refine reads_of_calls (List.cons_ne_nil _ _) fun stop n all rest hall hrest hcalls => ?_
  obtain ⟨first, tail, rfl, hfirst, htail⟩ := List.map_eq_append_iff.1 hall
  obtain ⟨position, second, rfl, hsecond⟩ := exists_cons_of_lexemes htail
  simp only [List.length_append, List.length_cons] at hcalls
  rw [List.append_assoc, List.cons_append]
  refine hparse stop n first position (second ++ rest) rest (fun m hm => ?_) (fun m hm => ?_) hrest
  · exact hl.operand leftLevel stop m hfirst (next_cons hstop _ _) (by omega)
  · exact hr.operand rightLevel stop m hsecond (hends rest hrest) (by omega)

theorem reads_either (hl : Recovered left) (hr : Recovered right) :
    Reads .either (Term.either left right).lexemes (.either left right) := by
  rw [Term.lexemes]
  refine reads_joined .both .both hl hr (by decide) (fun rest h => h.mono (by decide))
    fun stop n first p second rest hleft hright hrest => ?_
  have hend : accept? (.name "or") rest = none := hrest.accept? (Nat.le_refl _) (by decide)
  simp only [Level.parse] at hleft hright ⊢
  rw [parseOr, hleft (n + 4) (by omega), ok_bind]
  dsimp only
  rw [orRest]
  simp only [accept?_self, hright (n + 3) (by omega), ok_bind]
  rw [orRest]
  simp only [hend]

theorem reads_both (hl : Recovered left) (hr : Recovered right) :
    Reads .both (Term.both left right).lexemes (.both left right) := by
  rw [Term.lexemes]
  refine reads_joined .negation .negation hl hr (by decide) (fun rest h => h.mono (by decide))
    fun stop n first p second rest hleft hright hrest => ?_
  have hend : accept? (.name "and") rest = none := hrest.accept? (Nat.le_refl _) (by decide)
  simp only [Level.parse] at hleft hright ⊢
  rw [parseAnd, hleft (n + 4) (by omega), ok_bind]
  dsimp only
  rw [andRest]
  simp only [accept?_self, hright (n + 3) (by omega), ok_bind]
  rw [andRest]
  simp only [hend]

theorem reads_sum (hl : Recovered left) (hr : Recovered right)
    (hstop : Stops .product (.op op.symbol))
    (hsign : ∀ position ts, acceptAny? additiveSigns (⟨.op op.symbol, position⟩ :: ts) =
      some (op, ts)) : Reads .sum (Term.binary op left right).lexemes (.binary op left right) := by
  rw [Term.lexemes]
  refine reads_joined .product .product hl hr hstop (fun rest h => h.mono (by decide))
    fun stop n first p second rest hleft hright hrest => ?_
  have hend : acceptAny? additiveSigns rest = none := hrest.acceptAny? rfl
  simp only [Level.parse] at hleft hright ⊢
  rw [parseArith, hleft (n + 4) (by omega), ok_bind]
  dsimp only
  rw [arithRest]
  simp only [hsign, hright (n + 3) (by omega), ok_bind]
  rw [arithRest]
  simp only [hend]

theorem reads_product (hl : Recovered left) (hr : Recovered right)
    (hstop : Stops .factor (.op op.symbol))
    (hsign : ∀ position ts, acceptAny? multiplicativeSigns (⟨.op op.symbol, position⟩ :: ts) =
      some (op, ts)) :
    Reads .product (Term.binary op left right).lexemes (.binary op left right) := by
  rw [Term.lexemes]
  refine reads_joined .factor .factor hl hr hstop (fun rest h => h.mono (by decide))
    fun stop n first p second rest hleft hright hrest => ?_
  have hend : acceptAny? multiplicativeSigns rest = none := hrest.acceptAny? rfl
  simp only [Level.parse] at hleft hright ⊢
  rw [parseTerm, hleft (n + 4) (by omega), ok_bind]
  dsimp only
  rw [termRest]
  simp only [hsign, hright (n + 3) (by omega), ok_bind]
  rw [termRest]
  simp only [hend]

/-- No sign continues a factor that does not continue a power. -/
theorem Ends.factor {rest : List Token} (h : Ends .power rest) : Ends .factor rest := by
  intro t ht other hother hrank
  cases other with
  | factor => exact List.not_mem_nil
  | _ => exact h t ht _ hother (by revert hrank; decide)

theorem reads_power (hl : Recovered left) (hr : Recovered right)
    (hstop : Stops .access (.op op.symbol))
    (hsign : ∀ position ts, acceptAny? powerSigns (⟨.op op.symbol, position⟩ :: ts) =
      some (op, ts)) :
    Reads .power (Term.binary op left right).lexemes (.binary op left right) := by
  rw [Term.lexemes]
  refine reads_joined .access .factor hl hr hstop (fun rest h => h.factor)
    fun stop n first p second rest hleft hright hrest => ?_
  simp only [Level.parse] at hleft hright ⊢
  rw [parsePower, hleft (n + 4) (by omega), ok_bind]
  simp only [hsign, hright (n + 4) (by omega), ok_bind]
  rfl

/-- Two operands around an arithmetic operator are read back. -/
theorem recovered_binary (op : BinaryOp) (hl : Recovered left) (hr : Recovered right) :
    Recovered (.binary op left right) := by
  have hplain : Plain (.op "(") := by decide
  have hlexemes : ∃ tail, (Term.binary op left right).lexemes = .op "(" :: tail := by
    rw [Term.lexemes]
    exact ⟨_, rfl⟩
  obtain ⟨tail, hlexemes⟩ := hlexemes
  cases op with
  | add => exact (reads_sum hl hr (by decide) fun _ _ => rfl).recovered_of_plain hlexemes hplain
  | subtract =>
    exact (reads_sum hl hr (by decide) fun _ _ => rfl).recovered_of_plain hlexemes hplain
  | multiply =>
    exact (reads_product hl hr (by decide) fun _ _ => rfl).recovered_of_plain hlexemes hplain
  | divide =>
    exact (reads_product hl hr (by decide) fun _ _ => rfl).recovered_of_plain hlexemes hplain
  | floorDivide =>
    exact (reads_product hl hr (by decide) fun _ _ => rfl).recovered_of_plain hlexemes hplain
  | modulo =>
    exact (reads_product hl hr (by decide) fun _ _ => rfl).recovered_of_plain hlexemes hplain
  | power => exact (reads_power hl hr (by decide) fun _ _ => rfl).recovered_of_plain hlexemes hplain
  | caret => exact (reads_power hl hr (by decide) fun _ _ => rfl).recovered_of_plain hlexemes hplain

theorem reads_not (h : Recovered operand) :
    Reads .negation (Term.unary .not operand).lexemes (.unary .not operand) := by
  rw [Term.lexemes]
  refine reads_of_calls (List.cons_ne_nil _ _) fun stop n all rest hall hrest hcalls => ?_
  obtain ⟨p, ts, rfl, hts⟩ := exists_cons_of_lexemes hall
  rw [List.length_cons] at hcalls
  have hread : parseNot stop (n + 4) (ts ++ rest) = .ok (operand, rest) :=
    h.operand .negation stop (n + 4) hts hrest (by omega)
  simp only [Level.parse, List.cons_append]
  rw [parseNot]
  simp only [UnaryOp.lexeme, accept?_self, hread, ok_bind]
  rfl

/-- A sign before a factor is a factor. -/
theorem reads_signed {op : UnaryOp} {ls : List Lexeme} (h : Reads .factor ls operand)
    (hsign : ∀ position ts, acceptAny? unarySigns (⟨op.lexeme, position⟩ :: ts) = some (op, ts)) :
    Reads .factor (op.lexeme :: ls) (.unary op operand) := by
  refine reads_of_calls (List.cons_ne_nil _ _) fun stop n all rest hall hrest hcalls => ?_
  obtain ⟨p, ts, rfl, hts⟩ := exists_cons_of_lexemes hall
  rw [List.length_cons] at hcalls
  have hread : parseFactor stop (n + 4) (ts ++ rest) = .ok (operand, rest) :=
    h stop (n + 4) ts rest hts hrest (by omega)
  simp only [Level.parse, List.cons_append]
  rw [parseFactor]
  simp only [hsign, hread, ok_bind]
  rfl

theorem recovered_unary (op : UnaryOp) (h : Recovered operand) :
    Recovered (.unary op operand) := by
  have hopens : Opens (Term.unary op operand).lexemes := by
    rw [Term.lexemes]
    exact ⟨_, _, rfl, by cases op <;> decide⟩
  have hoperand : Reads .factor (enclosed operand.lexemes) operand :=
    h.reads.enclosed h.opens .factor
  cases op with
  | not =>
    refine (reads_not h).recovered ?_ hopens
    rw [Term.lexemes]
    exact ⟨_, _, rfl, by decide⟩
  | plus =>
    have hsigned : Reads .factor (Term.unary .plus operand).lexemes (.unary .plus operand) := by
      rw [Term.lexemes]
      exact reads_signed hoperand fun _ _ => rfl
    refine hsigned.recovered ?_ hopens
    rw [Term.lexemes]
    exact ⟨_, _, rfl, by decide⟩
  | minus =>
    have hsigned : Reads .factor (Term.unary .minus operand).lexemes (.unary .minus operand) := by
      rw [Term.lexemes]
      exact reads_signed hoperand fun _ _ => rfl
    refine hsigned.recovered ?_ hopens
    rw [Term.lexemes]
    exact ⟨_, _, rfl, by decide⟩

/-- A chain of comparisons that has a link is read back. -/
theorem reads_compare {first : Term} {links : List (CompareOp × Term)} (hfirst : Recovered first)
    (hne : links ≠ []) (hlinks : ∀ link ∈ links, Recovered link.2) :
    Reads .comparison (Term.compare first links).lexemes (.compare first links) := by
  rw [Term.lexemes]
  refine reads_of_calls (List.cons_ne_nil _ _) fun stop n all rest hall hrest hcalls => ?_
  obtain ⟨operand, chain, rfl, hoperand, hchain⟩ := List.map_eq_append_iff.1 hall
  rw [List.length_append] at hcalls
  have hfront := length_pos_of_lexemes hoperand (List.cons_ne_nil _ _)
  have hback := length_pos_of_lexemes hchain (linkLexemes_ne_nil hne)
  have hread : parseArith stop (n + 4) (operand ++ (chain ++ rest)) = .ok (first, chain ++ rest) :=
    hfirst.operand .sum stop (n + 4) hoperand (ends_links links hchain hrest) (by omega)
  have hothers : comparisonRest stop (n + 4) (chain ++ rest) = .ok (links, rest) :=
    comparisonRest_links hlinks hchain hrest (by omega)
  have hsome : links.isEmpty = false := List.isEmpty_eq_false_iff.2 hne
  simp only [Level.parse, List.append_assoc]
  rw [parseComparison, hread, ok_bind]
  simp only [hothers, ok_bind, hsome]
  rfl

theorem reads_conditional {whenTrue condition whenFalse : Term} (ht : Recovered whenTrue)
    (hc : Recovered condition) (hf : Recovered whenFalse) :
    Reads .test (Term.conditional whenTrue condition whenFalse).lexemes
      (.conditional whenTrue condition whenFalse) := by
  rw [Term.lexemes]
  refine reads_of_calls (List.cons_ne_nil _ _) fun stop n all rest hall hrest hcalls => ?_
  obtain ⟨first, tail, rfl, hfirst, htail⟩ := List.map_eq_append_iff.1 hall
  obtain ⟨p, more, rfl, hmore⟩ := exists_cons_of_lexemes htail
  obtain ⟨second, last, rfl, hsecond, hlast⟩ := List.map_eq_append_iff.1 hmore
  obtain ⟨q, third, rfl, hthird⟩ := exists_cons_of_lexemes hlast
  simp only [List.length_append, List.length_cons] at hcalls
  have hvalue : parseOr stop (n + 4)
      (first ++ ⟨.name "if", p⟩ :: (second ++ ⟨.name "else", q⟩ :: (third ++ rest))) =
        .ok (whenTrue, _) :=
    ht.operand .either stop (n + 4) hfirst (next_cons (by decide) _ _) (by omega)
  have hcondition : parseOr stop (n + 4) (second ++ ⟨.name "else", q⟩ :: (third ++ rest)) =
      .ok (condition, _) :=
    hc.operand .either stop (n + 4) hsecond (next_cons (by decide) _ _) (by omega)
  have hother : parseTest stop (n + 4) (third ++ rest) = .ok (whenFalse, rest) :=
    hf.operand .test stop (n + 4) hthird hrest (by omega)
  simp only [Level.parse, List.append_assoc, List.cons_append]
  rw [parseTest, hvalue, ok_bind]
  simp only [accept?_self, hcondition, hother, ok_bind]
  rfl

theorem reads_subscript {target index : Term} (ht : Recovered target) (hi : Recovered index) :
    Reads .access (Term.subscript target index).lexemes (.subscript target index) := by
  rw [Term.lexemes]
  refine reads_of_calls (List.cons_ne_nil _ _) fun stop n all rest hall hrest hcalls => ?_
  obtain ⟨first, tail, rfl, hfirst, htail⟩ := List.map_eq_append_iff.1 hall
  obtain ⟨p, more, rfl, hmore⟩ := exists_cons_of_lexemes htail
  obtain ⟨second, q, rfl, hsecond⟩ := exists_closed_of_lexemes hmore
  simp only [List.length_append, List.length_cons, List.length_nil] at hcalls
  have htarget : parseAtom stop (n + 4)
      (first ++ ⟨.op "[", p⟩ :: (second ++ ⟨.op "]", q⟩ :: rest)) = .ok (target, _) :=
    ht.operand .atom stop (n + 4) hfirst (next_cons (by decide) _ _) (by omega)
  have hindex : parseTest stop (n + 3) (second ++ ⟨.op "]", q⟩ :: rest) = .ok (index, _) :=
    hi.read hsecond (next_cons (by decide) _ _) (by omega)
  simp only [Level.parse, List.append_assoc, List.cons_append, List.nil_append]
  rw [parsePostfix, htarget, ok_bind]
  dsimp only
  rw [postfixRest]
  simp only [accept?_self, hindex, ok_bind, expectOp]
  exact postfixRest_end hrest

end

end EnergyPlan.Expr
