/-
# Placeholders in a text

A placeholder is an opening, one or more characters without braces, and a closing
brace. A text is cut into its placeholders and the characters around them
(`pieces`), from left to right, each placeholder starting as far left as possible.

Key definitions: `Piece`, `hole?`, `pieces`.
Key theorems: `source_pieces`.
-/
import EnergyPlan.Text.Basic

namespace EnergyPlan.Text

/-- A part of a text: a character that stands for itself, or a placeholder with its inner text. -/
inductive Piece where
  | literal (c : Char)
  | hole (inner : List Char)
deriving DecidableEq, Repr

/-- Whether a character is a brace. -/
def isBrace (c : Char) : Bool := c = '\x7b' || c = '\x7d'

/-- The inner text of the placeholder that starts at the front of a text. -/
def hole? (opening cs : List Char) : Option (List Char) :=
  if opening.isPrefixOf cs then
    let body := cs.drop opening.length
    let inner := body.takeWhile fun c => !isBrace c
    if inner.isEmpty then none
    else if (body.dropWhile fun c => !isBrace c).head? = some '\x7d' then some inner
    else none
  else none

/-- The pieces of a text after its first `skip` characters, which an earlier placeholder took. -/
def piecesFrom (opening : List Char) : Nat → List Char → List Piece
  | _, [] => []
  | skip + 1, _ :: rest => piecesFrom opening skip rest
  | 0, c :: rest =>
    match hole? opening (c :: rest) with
    | some inner => .hole inner :: piecesFrom opening (opening.length + inner.length) rest
    | none => .literal c :: piecesFrom opening 0 rest

/-- The pieces of a text. -/
def pieces (opening cs : List Char) : List Piece :=
  piecesFrom opening 0 cs

/-- The text of a piece. -/
def Piece.source (opening : List Char) : Piece → List Char
  | .literal c => [c]
  | .hole inner => opening ++ inner ++ ['\x7d']

/-- The text with each placeholder replaced. -/
def Piece.fill (value : List Char → List Char) : Piece → List Char
  | .literal c => [c]
  | .hole inner => value inner

theorem hole?_eq_some {opening cs inner : List Char} (h : hole? opening cs = some inner) :
    ∃ rest, cs = opening ++ inner ++ '\x7d' :: rest := by
  unfold hole? at h
  split at h
  · next hp =>
    obtain ⟨body, rfl⟩ := List.isPrefixOf_iff_prefix.1 hp
    simp only [List.drop_left] at h
    split at h
    · cases h
    · split at h
      · next hb =>
        cases h
        obtain ⟨rest, hr⟩ : ∃ rest, (body.dropWhile fun c => !isBrace c) = '\x7d' :: rest := by
          cases hd : body.dropWhile fun c => !isBrace c with
          | nil => simp [hd] at hb
          | cons c rest => simp [hd] at hb; exact ⟨rest, by rw [hb]⟩
        refine ⟨rest, ?_⟩
        rw [List.append_assoc, ← hr, List.takeWhile_append_dropWhile]
      · cases h
  · cases h

/-- The pieces make up the text: nothing is lost or added. -/
theorem source_piecesFrom (opening : List Char) (h : opening ≠ []) (skip : Nat) (cs : List Char) :
    (piecesFrom opening skip cs).flatMap (Piece.source opening) = cs.drop skip := by
  induction cs generalizing skip with
  | nil => simp [piecesFrom]
  | cons c rest ih =>
    cases skip with
    | succ skip => simp [piecesFrom, ih]
    | zero =>
      unfold piecesFrom
      split
      · next inner hi =>
        obtain ⟨tail, ht⟩ := hole?_eq_some hi
        simp only [List.flatMap_cons, ih, Piece.source, List.drop_zero]
        obtain ⟨o, os, rfl⟩ := List.exists_cons_of_ne_nil h
        simp only [List.cons_append, List.cons.injEq] at ht
        obtain ⟨rfl, rfl⟩ := ht
        have hd : (os ++ inner ++ '\x7d' :: tail).drop ((c :: os).length + inner.length) = tail := by
          rw [show os ++ inner ++ '\x7d' :: tail = (os ++ inner ++ ['\x7d']) ++ tail by simp]
          exact List.drop_left' (by simp; omega)
        rw [hd]
        simp
      · simp [ih, Piece.source]

theorem source_pieces (opening : List Char) (h : opening ≠ []) (cs : List Char) :
    (pieces opening cs).flatMap (Piece.source opening) = cs := by
  simp [pieces, source_piecesFrom opening h]

end EnergyPlan.Text
