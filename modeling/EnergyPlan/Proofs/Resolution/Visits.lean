/-
# What a visit leaves of a scalar

A visit that does not fail ends in one of three ways. A blocked scalar keeps a live text:
the reference that could not be followed, or the expression that waits for a name. A scalar
that is not blocked is replaced by a settled node, or it keeps a text that is no expression
and in which no well-formed reference is left to follow.

That last text may still show the opening of a placeholder: one that is never closed, that
holds nothing, or that a substitution has put there. Such a visit overlooks it: the text
is pending, but the scalar is not blocked.

Key definitions: `Visit.Leaves`, `Visit.Overlooks`.
Key theorems: `settle_cases`, `resolveScalar_cases`, `Visit.overlooks_of_stays`.
-/
import EnergyPlan.Proofs.Resolution.Passes
import EnergyPlan.Proofs.Resolution.Values

namespace EnergyPlan.Config

open Text

/-- The visit of a scalar leaves a text in its place: the one that stood there or a plain one. -/
def Visit.Leaves (visit : Visit) (text left : String) : Prop :=
  (visit.replacement = none ∧ left = text) ∨ visit.replacement = some (.plain left)

/-- The visit of a scalar does not block it, and leaves a text that is no expression but still
shows the opening of a placeholder. -/
def Visit.Overlooks (visit : Visit) (text : String) : Prop :=
  visit.blocked = false ∧ ∃ left, visit.Leaves text left ∧
    hasPlaceholder left = true ∧ looksLikeExpression left = false

/-- How the visit of a scalar can end. -/
inductive Visit.Ends (text : String) (visit : Visit) : Prop
  /-- The scalar waits with a live text. -/
  | waits {left : String} (blocked : visit.blocked = true) (leaves : visit.Leaves text left)
      (live : Live left)
  /-- A settled node takes the scalar's place. -/
  | settled {node : Node} (free : visit.blocked = false) (put : visit.replacement = some node)
      (done : node.isPending = false)
  /-- A text that is no expression stays. -/
  | stays {left : String} (free : visit.blocked = false) (leaves : visit.Leaves text left)
      (unmarked : looksLikeExpression left = false)

variable {env : Environment} {tree : Node} {path text current : String} {visit : Visit}

theorem live_of_expression (h : looksLikeExpression text = true) : Live text := by
  rw [Live, h, Bool.or_true]

theorem live_of_reference {cs : List Char} (h : referenceOpening <:+: cs) :
    Live (String.ofList cs) := by
  have hopen : occursIn referenceOpening cs = true := (occursIn_iff _ _).2 h
  rw [Live, hasPlaceholder, String.toList_ofList, hopen]
  rfl

/-! ### A text with its references filled in -/

/-- What `settle` keeps when it does not evaluate. -/
theorem leaves_keep (text current : String) (blocked : Bool) :
    Visit.Leaves ⟨if current = text then none else some (.plain current), blocked⟩
      text current := by
  by_cases h : current = text
  · exact Or.inl ⟨if_pos h, h⟩
  · exact Or.inr (if_neg h)

theorem settle_cases {blocked : Bool} (hlive : blocked = true → Live current)
    (h : settle tree path text current blocked = .ok visit) : visit.Ends text := by
  unfold settle at h
  dsimp only at h
  split at h
  · next hcond =>
    have hexpr : looksLikeExpression current = true := (Bool.and_eq_true_iff.1 hcond).2
    split at h
    · next value _ =>
      cases h
      exact .settled rfl rfl value.isPending_toNode
    · cases h
      exact .waits rfl (leaves_keep text current true) (live_of_expression hexpr)
    · cases h
  · next hcond =>
    cases h
    cases blocked with
    | true => exact .waits rfl (leaves_keep text current true) (hlive rfl)
    | false =>
      refine .stays rfl (leaves_keep text current false) ?_
      rw [Bool.not_false, Bool.true_and, Bool.not_eq_true] at hcond
      exact hcond

/-- A reference that cannot be followed stays in the text. -/
theorem reference_of_blocked {parts : List Piece}
    (h : (parts.map (fillReference tree)).any (·.2) = true) :
    referenceOpening <:+: (parts.map (fillReference tree)).flatMap (·.1) := by
  obtain ⟨filled, hmem, hblocked⟩ := List.any_eq_true.1 h
  obtain ⟨before, after, hsplit⟩ := List.append_of_mem hmem
  obtain ⟨piece, _, rfl⟩ := List.mem_map.1 hmem
  cases piece with
  | literal c => cases hblocked
  | hole inner =>
    have hsource : (fillReference tree (.hole inner)).1 =
        referenceOpening ++ (inner ++ ['\x7d']) := by
      unfold fillReference at hblocked ⊢
      dsimp only at hblocked ⊢
      split
      · next hu =>
        rw [hu] at hblocked
        cases hblocked
      · exact List.append_assoc _ _ _
    refine ⟨before.flatMap (·.1), inner ++ ['\x7d'] ++ after.flatMap (·.1), ?_⟩
    rw [hsplit, List.flatMap_append, List.flatMap_cons, hsource]
    simp only [List.append_assoc]

/-- **How the visit of a scalar ends** if it does not fail. -/
theorem resolveScalar_cases (h : resolveScalar env tree path text = .ok visit) :
    visit.Ends text := by
  by_cases hquiet : (hasPlaceholder text || looksLikeExpression text) = false
  · rw [resolveScalar_settled hquiet] at h
    cases h
    exact .stays rfl (Or.inl ⟨rfl, rfl⟩) (Bool.or_eq_false_iff.1 hquiet).2
  · have hlive : (!hasPlaceholder text && !looksLikeExpression text) = false := by
      rw [← Bool.not_or, Bool.not_eq_false', ← Bool.not_eq_false]
      exact hquiet
    rw [resolveScalar, hlive] at h
    simp only [Bool.false_eq_true, if_false, bind, Except.bind] at h
    cases hfill : fillVariables env path text.toList with
    | error e =>
      rw [hfill] at h
      cases h
    | ok current =>
      rw [hfill] at h
      dsimp only at h
      split at h
      · next inner hpieces =>
        split at h
        · next node hu =>
          cases h
          exact .settled rfl rfl (usableTarget_eq_some.1 hu).2
        · -- the text is the one reference that cannot be followed
          refine settle_cases (fun _ => live_of_reference ⟨[], inner ++ ['\x7d'], ?_⟩) h
          have hsource := source_pieces referenceOpening (by decide) current
          rw [hpieces] at hsource
          simpa only [List.flatMap_cons, List.flatMap_nil, List.append_nil, List.nil_append,
            Piece.source, List.append_assoc] using hsource
      · exact settle_cases (fun hb => live_of_reference (reference_of_blocked hb)) h

/-! ### What is overlooked -/

theorem Visit.Leaves.unique {left left' : String} (h : visit.Leaves text left)
    (h' : visit.Leaves text left') : left = left' := by
  rcases h with ⟨hnone, rfl⟩ | hsome <;> rcases h' with ⟨hnone', rfl⟩ | hsome'
  · rfl
  · rw [hnone] at hsome'
    cases hsome'
  · rw [hnone'] at hsome
    cases hsome
  · rw [hsome] at hsome'
    cases hsome'
    rfl

/-- Of the ways a visit can end, the one that overlooks a scalar is that a live text stays. -/
theorem Visit.overlooks_of_stays {left : String} (hfree : visit.blocked = false)
    (hleaves : visit.Leaves text left) (hmark : looksLikeExpression left = false) :
    visit.Overlooks text ↔ Live left := by
  constructor
  · rintro ⟨_, other, hother, hopen, _⟩
    rw [hleaves.unique hother, Live, hopen]
    rfl
  · intro hlive
    rw [Live, hmark, Bool.or_false] at hlive
    exact ⟨hfree, left, hleaves, hlive, hmark⟩

/-- A scalar that a settled node replaces is not overlooked. -/
theorem Visit.not_overlooks_of_settled {node : Node} (hput : visit.replacement = some node)
    (hdone : node.isPending = false) : ¬ visit.Overlooks text := by
  rintro ⟨_, left, ⟨hnone, _⟩ | hsome, hopen, _⟩
  · rw [hput] at hnone
    cases hnone
  · rw [hput] at hsome
    cases hsome
    rw [Node.plain, Node.isPending, Node.scalarPending, hopen] at hdone
    cases hdone

end EnergyPlan.Config
