/-
# A text that is wholly one reference

Such a text holds no environment placeholder, and its one reference is all of it: a visit
puts a copy of the node that the reference leads to in its place, or leaves it as it is
and counts it as blocked.

Key definitions: `Wholly`.
Key theorems: `resolveScalar_wholly`, `resolveScalar_settled`.
-/
import EnergyPlan.Config.Resolution

namespace EnergyPlan.Config

open Text

/-- A text is one reference with this inner text and nothing else. -/
def Wholly (text : String) (inner : List Char) : Prop :=
  text.toList = referenceOpening ++ inner ++ ['\x7d'] ∧ inner ≠ [] ∧ ∀ c ∈ inner, isBrace c = false

variable {text : String} {inner : List Char}

theorem Wholly.unique {other : List Char} (h : Wholly text inner) (h' : Wholly text other) :
    inner = other := by
  have heq := h.1.symm.trans h'.1
  rw [List.append_assoc, List.append_assoc, List.append_cancel_left_eq,
    List.append_cancel_right_eq] at heq
  exact heq

/-! ### Its pieces -/

theorem piecesFrom_skip (opening : List Char) (cs : List Char) :
    piecesFrom opening cs.length cs = [] := by
  induction cs with
  | nil => rfl
  | cons c rest ih => exact ih

/-- A text without an opening brace holds no placeholder. -/
theorem piecesFrom_literal {opening cs : List Char} (hopen : '\x7b' ∈ opening)
    (h : '\x7b' ∉ cs) : piecesFrom opening 0 cs = cs.map .literal := by
  induction cs with
  | nil => rfl
  | cons c rest ih =>
    have hnone : hole? opening (c :: rest) = none := by
      cases hh : hole? opening (c :: rest) with
      | none => rfl
      | some found =>
        obtain ⟨tail, ht⟩ := hole?_eq_some hh
        refine absurd ?_ h
        rw [ht]
        exact List.mem_append_left _ (List.mem_append_left _ hopen)
    rw [piecesFrom, hnone, ih fun hm => h (List.mem_cons_of_mem _ hm)]
    rfl

theorem Wholly.not_mem (h : Wholly text inner) : '\x7b' ∉ inner ++ ['\x7d'] := by
  intro hm
  rcases List.mem_append.1 hm with hm | hm
  · have := h.2.2 _ hm
    cases this
  · rw [List.mem_singleton] at hm
    exact absurd hm (by decide)

theorem Wholly.pieces_environment (h : Wholly text inner) :
    pieces environmentOpening text.toList = text.toList.map .literal := by
  have hdollar : hole? environmentOpening ('$' :: '\x7b' :: (inner ++ ['\x7d'])) = none := rfl
  have hbrace : hole? environmentOpening ('\x7b' :: (inner ++ ['\x7d'])) = none := rfl
  have htext : text.toList = '$' :: '\x7b' :: (inner ++ ['\x7d']) := h.1
  rw [htext, pieces, piecesFrom, hdollar]
  dsimp only
  rw [piecesFrom, hbrace]
  dsimp only
  rw [piecesFrom_literal (by decide) h.not_mem]
  rfl

theorem Wholly.pieces_reference (h : Wholly text inner) :
    pieces referenceOpening text.toList = [.hole inner] := by
  have htext : text.toList = '$' :: '\x7b' :: (inner ++ ['\x7d']) := h.1
  have htake : (inner ++ ['\x7d']).takeWhile (fun c => !isBrace c) = inner := by
    rw [List.takeWhile_append_of_pos fun c hc => by rw [h.2.2 c hc]; rfl]
    exact List.append_nil inner
  have hdrop : (inner ++ ['\x7d']).dropWhile (fun c => !isBrace c) = ['\x7d'] := by
    rw [List.dropWhile_append_of_pos fun c hc => by rw [h.2.2 c hc]; rfl]
    rfl
  have hempty : ¬ inner.isEmpty = true := fun he => h.2.1 (List.isEmpty_iff.1 he)
  have hhole : hole? referenceOpening ('$' :: '\x7b' :: (inner ++ ['\x7d'])) = some inner := by
    have hpre : referenceOpening.isPrefixOf ('$' :: '\x7b' :: (inner ++ ['\x7d'])) = true := rfl
    rw [hole?, if_pos hpre]
    show (if ((inner ++ ['\x7d']).takeWhile fun c => !isBrace c).isEmpty then none
      else if ((inner ++ ['\x7d']).dropWhile fun c => !isBrace c).head? = some '\x7d' then
        some ((inner ++ ['\x7d']).takeWhile fun c => !isBrace c)
      else none) = _
    rw [htake, hdrop, if_neg hempty]
    rfl
  rw [htext, pieces, piecesFrom, hhole]
  dsimp only
  have hlen : referenceOpening.length + inner.length = ('\x7b' :: (inner ++ ['\x7d'])).length := by
    rw [List.length_cons, List.length_append, List.length_singleton]
    show 2 + inner.length = inner.length + 1 + 1
    omega
  rw [hlen, piecesFrom_skip]

theorem mapM_literal (f : Piece → Except ResolutionError (List Char))
    (hf : ∀ c, f (.literal c) = .ok [c]) (cs : List Char) :
    (cs.map Piece.literal).mapM f = .ok (cs.map fun c => [c]) := by
  induction cs with
  | nil => rfl
  | cons c rest ih =>
    rw [List.map_cons, List.mapM_cons, hf, ih]
    rfl

/-! ### Its visit -/

theorem Wholly.fillVariables (h : Wholly text inner) (env : Environment) (path : String) :
    fillVariables env path text.toList = .ok text.toList := by
  rw [Config.fillVariables, h.pieces_environment, mapM_literal _ (fun _ => rfl)]
  show Except.ok ((text.toList.map fun c => [c]).flatten) = _
  congr 1
  induction text.toList with
  | nil => rfl
  | cons c rest ih => rw [List.map_cons, List.flatten_cons, ih]; rfl

theorem Wholly.hasPlaceholder (h : Wholly text inner) : hasPlaceholder text = true := by
  have htext : text.toList = '$' :: '\x7b' :: (inner ++ ['\x7d']) := h.1
  rw [Config.hasPlaceholder, htext]
  rfl

/-- **A reference is replaced** by what it leads to, or blocked. -/
theorem resolveScalar_wholly (h : Wholly text inner) (env : Environment) (tree : Node)
    (path : String) : resolveScalar env tree path text =
      .ok (match usableTarget tree inner with
        | some node => ⟨some node, false⟩
        | none => ⟨none, true⟩) := by
  rw [resolveScalar, h.hasPlaceholder, h.fillVariables]
  simp only [Bool.not_true, Bool.false_and, Bool.false_eq_true, if_false, bind, Except.bind,
    h.pieces_reference]
  cases usableTarget tree inner with
  | some node => rfl
  | none =>
    rw [String.ofList_toList]
    simp only [settle, Bool.not_true, Bool.false_and, Bool.false_eq_true, if_false, if_true]

/-- A scalar that does not need resolution is left as it is. -/
theorem resolveScalar_settled (h : (hasPlaceholder text || looksLikeExpression text) = false)
    (env : Environment) (tree : Node) (path : String) :
    resolveScalar env tree path text = .ok ⟨none, false⟩ := by
  rw [Bool.or_eq_false_iff] at h
  rw [resolveScalar, h.1, h.2]
  rfl

end EnergyPlan.Config
