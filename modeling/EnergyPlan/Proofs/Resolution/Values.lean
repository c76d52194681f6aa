/-
# What an expression leaves in a tree is settled

The value of an expression goes back into the tree as a node with nothing pending in it: a
string under the tag that no visit looks into, any other value as a text of letters, digits,
points and signs. None of these characters can open a placeholder or mark an expression.

Key definitions: `isNumeralChar`.
Key theorems: `not_live_of_numeral`, `numeral_shortest`, `Value.isPending_toNode`.
-/
import EnergyPlan.Expr.Value
import EnergyPlan.Proofs.Resolution.Standing

namespace EnergyPlan

open Text

/-- A character that the text of a number or of a truth value may hold. -/
def isNumeralChar (c : Char) : Bool := c.isAlphanum || c = '.' || c = '+' || c = '-'

theorem isNumeralChar_of_isDigit {c : Char} (h : c.isDigit = true) : isNumeralChar c = true := by
  simp [isNumeralChar, Char.isAlphanum, h]

/-! ### Texts of such characters are settled -/

theorem mem_of_mem_trimEndChars {c : Char} {cs : List Char} (h : c ∈ trimEndChars cs) :
    c ∈ cs := by
  rw [trimEndChars, List.mem_reverse] at h
  exact List.mem_reverse.1 ((List.dropWhile_sublist _).mem h)

theorem mem_of_mem_trimChars {c : Char} {cs : List Char} (h : c ∈ trimChars cs) : c ∈ cs :=
  (List.dropWhile_sublist _).mem (mem_of_mem_trimEndChars h)

theorem mem_of_occursIn {needle cs : List Char} (h : occursIn needle cs = true) {c : Char}
    (hc : c ∈ needle) : c ∈ cs :=
  ((occursIn_iff needle cs).1 h).subset hc

theorem mem_of_wrappedIn {first last : Char} {cs : List Char}
    (h : Config.wrappedIn first last cs = true) : first ∈ cs := by
  simp only [Config.wrappedIn, Bool.and_eq_true, beq_iff_eq] at h
  exact List.mem_of_mem_head? h.1.2

/-- Every placeholder and every mark of an expression shows one of three characters. -/
theorem opening_of_live {text : String} (h : Config.Live text) :
    '\x7b' ∈ text.toList ∨ '[' ∈ text.toList ∨ '(' ∈ text.toList := by
  simp only [Config.Live, Config.hasPlaceholder, Config.looksLikeExpression, Bool.or_eq_true,
    List.any_eq_true] at h
  rcases h with (h | h) | ((h | h) | ⟨mark, hmark, h⟩)
  · exact Or.inl (mem_of_occursIn h (by decide))
  · exact Or.inl (mem_of_occursIn h (by decide))
  · exact Or.inl (mem_of_mem_trimChars (mem_of_wrappedIn h))
  · exact Or.inr (Or.inl (mem_of_mem_trimChars (mem_of_wrappedIn h)))
  · have hopen : ∀ mark ∈ Config.callMarks, '(' ∈ mark.toList := by decide
    exact Or.inr (Or.inr (mem_of_mem_trimChars (mem_of_occursIn h (hopen mark hmark))))

theorem not_live_of_numeral {text : String} (h : ∀ c ∈ text.toList, isNumeralChar c = true) :
    ¬ Config.Live text := by
  intro hlive
  rcases opening_of_live hlive with hc | hc | hc <;> exact absurd (h _ hc) (by decide)

/-! ### The texts of numbers -/

theorem numeral_toDigits (n : Nat) : ∀ c ∈ Nat.toDigits 10 n, isNumeralChar c = true :=
  fun c hc => isNumeralChar_of_isDigit (Decimal.isDigit_of_mem_toDigits n c hc)

theorem numeral_toString (n : Int) : ∀ c ∈ (toString n).toList, isNumeralChar c = true := by
  rw [Decimal.toList_toString]
  split
  · exact List.forall_mem_cons.2 ⟨by decide, numeral_toDigits _⟩
  · exact numeral_toDigits _

namespace Decimal

theorem mem_of_mem_stripZeros {c : Char} {cs : List Char} (h : c ∈ stripZeros cs) : c ∈ cs := by
  rw [stripZeros, List.mem_reverse] at h
  exact List.mem_reverse.1 ((List.dropWhile_sublist _).mem h)

theorem numeral_fraction {cs : List Char} (h : ∀ c ∈ cs, isNumeralChar c = true) :
    ∀ c ∈ fraction cs, isNumeralChar c = true := by
  rw [fraction]
  split
  · exact fun c hc => nomatch hc
  · exact List.forall_mem_cons.2 ⟨by decide, h⟩

theorem numeral_exponentText (x : Int) : ∀ c ∈ exponentText x, isNumeralChar c = true := by
  have hdigits := numeral_toDigits x.natAbs
  intro c hc
  rw [exponentText, List.mem_cons, List.mem_cons] at hc
  rcases hc with rfl | rfl | hc
  · decide
  · split <;> decide
  · split at hc
    · rcases List.mem_cons.1 hc with rfl | hc
      · decide
      · exact hdigits c hc
    · exact hdigits c hc

theorem numeral_placed (precision digits : Nat) (x : Int) :
    ∀ c ∈ placed precision digits x, isNumeralChar c = true := by
  have hdigits := numeral_toDigits digits
  have htake (k : Nat) : ∀ c ∈ (Nat.toDigits 10 digits).take k, isNumeralChar c = true :=
    fun c hc => hdigits c (List.mem_of_mem_take hc)
  have hrest (k : Nat) : ∀ c ∈ fraction (stripZeros ((Nat.toDigits 10 digits).drop k)),
      isNumeralChar c = true :=
    numeral_fraction fun c hc => hdigits c (List.mem_of_mem_drop (mem_of_mem_stripZeros hc))
  unfold placed
  dsimp only
  split
  · exact List.forall_mem_append.2
      ⟨List.forall_mem_append.2 ⟨htake 1, hrest 1⟩, numeral_exponentText x⟩
  · split
    · refine List.forall_mem_cons.2 ⟨by decide, numeral_fraction (List.forall_mem_append.2 ⟨?_, ?_⟩)⟩
      · intro c hc
        rw [List.eq_of_mem_replicate hc]
        decide
      · exact fun c hc => hdigits c (mem_of_mem_stripZeros hc)
    · exact List.forall_mem_append.2 ⟨htake _, hrest _⟩

theorem numeral_general (precision : Nat) (x : Float) :
    ∀ c ∈ (general precision x).toList, isNumeralChar c = true := by
  unfold general
  split
  · exact List.all_eq_true.1 (by decide)
  · split <;> exact List.all_eq_true.1 (by decide)
  · next negative m e _ =>
    rw [String.toList_ofList]
    dsimp only
    have hbody : ∀ c ∈ (if m = 0 then ['0']
        else placed precision (decimalDigits precision (magnitude m e).1 (magnitude m e).2).1
          (decimalDigits precision (magnitude m e).1 (magnitude m e).2).2),
        isNumeralChar c = true := by
      split
      · exact List.forall_mem_singleton.2 (by decide)
      · exact numeral_placed _ _ _
    split
    · exact List.forall_mem_cons.2 ⟨by decide, hbody⟩
    · exact hbody

theorem numeral_shortest (x : Float) : ∀ c ∈ (shortest x).toList, isNumeralChar c = true := by
  have htext := numeral_general (enoughDigits x) x
  unfold shortest
  dsimp only
  split
  · exact htext
  · rw [String.toList_append]
    exact List.forall_mem_append.2 ⟨htext, List.all_eq_true.1 (by decide)⟩

end Decimal

/-! ### Values -/

namespace Expr.Value

open Config

theorem isPending_plain {text : String} (h : ∀ c ∈ text.toList, isNumeralChar c = true) :
    (Node.plain text).isPending = false := by
  have hlive := not_live_of_numeral h
  rw [Live, Bool.not_eq_true] at hlive
  rw [Node.plain, Node.isPending, Node.scalarPending, hlive, Bool.and_false]

mutual

/-- **The node of a value is settled.** -/
theorem isPending_toNode : ∀ v : Value, v.toNode.isPending = false
  | .none => rfl
  | .bool true => rfl
  | .bool false => rfl
  | .int n => isPending_plain (numeral_toString n.toInt)
  | .real x => isPending_plain (Decimal.numeral_shortest x)
  | .string _ => rfl
  | .list items => isPending_toNodes items
  | .map entries => isPending_toEntries entries

theorem isPending_toNodes : ∀ items : List Value, Node.anyPending (toNodes items) = false
  | [] => rfl
  | v :: rest => by
    rw [toNodes, Node.anyPending, isPending_toNode v, isPending_toNodes rest]
    rfl

theorem isPending_toEntries : ∀ entries : List (String × Value),
    Node.anyEntryPending (toEntries entries) = false
  | [] => rfl
  | (key, v) :: rest => by
    rw [toEntries, Node.anyEntryPending, isPending_toNode v, isPending_toEntries rest]
    rfl

end

end Expr.Value

end EnergyPlan
