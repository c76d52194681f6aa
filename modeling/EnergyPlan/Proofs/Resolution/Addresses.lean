/-
# The position that a path addresses

A path addresses a node if each of its segments names a key of the mapping or writes a
position in the sequence it stands before. The address depends only on the kinds of the
nodes on the way and on which nodes are there, so it is the same in two trees that agree
on those.

Key definitions: `Node.stepOf`, `Node.address?`, `Positional`.
Key theorems: `Node.find_of_address`, `Node.address_append`, `Node.address_transfer`,
`address_of_find`.
-/
import EnergyPlan.Proofs.Resolution.Positions

namespace EnergyPlan.Config

namespace Node

/-- The step that a segment names: to a key of a mapping or to a position in a sequence. -/
def stepOf (node : Node) (segment : String) : Option Step :=
  if node.isMapping then some (.key segment)
  else if node.isSequence then
    (Decimal.integer segment).bind fun i =>
      if 0 ≤ i.toInt then some (.item i.toInt.toNat) else none
  else none

/-- The position of the node that a path leads to, by keys and positions only. -/
def address? (node : Node) : List String → Option (List Step)
  | [] => some []
  | segment :: rest => do
    let step ← node.stepOf segment
    let child ← node.child? step
    let below ← child.address? rest
    return step :: below

/-! ### Single steps -/

theorem stepOf_congr {a b : Node} (h : a.SameKind b) (segment : String) :
    a.stepOf segment = b.stepOf segment := by
  rw [stepOf, stepOf, h.1, h.2]

/-- A segment that names a step finds the node there. -/
theorem segment_of_stepOf {node : Node} {segment : String} {step : Step}
    (h : node.stepOf segment = some step) : node.segment? segment = node.child? step := by
  cases node with
  | null => cases h
  | scalar tag text => cases h
  | mapping entries =>
    cases h
    rfl
  | sequence items =>
    change ((Decimal.integer segment).bind fun i =>
      if 0 ≤ i.toInt then some (Step.item i.toInt.toNat) else none) = some step at h
    obtain ⟨i, hi, hs⟩ := Option.bind_eq_some_iff.1 h
    by_cases hpos : 0 ≤ i.toInt
    · rw [if_pos hpos] at hs
      cases hs
      simp only [segment?, element?, hi, if_pos hpos]
      rfl
    · rw [if_neg hpos] at hs
      cases hs

/-- A segment that writes a position before a sequence finds a node only by a step. -/
theorem exists_stepOf {node child : Node} {segment : String}
    (hs : node.isSequence = true → (Decimal.integer segment).isSome = true)
    (h : node.segment? segment = some child) :
    ∃ step, node.stepOf segment = some step ∧ node.child? step = some child := by
  cases node with
  | null => cases h
  | scalar tag text => cases h
  | mapping entries => exact ⟨.key segment, rfl, h⟩
  | sequence items =>
    obtain ⟨i, hi⟩ := Option.isSome_iff_exists.1 (hs rfl)
    simp only [segment?, element?, hi] at h
    by_cases hpos : 0 ≤ i.toInt
    · rw [if_pos hpos] at h
      refine ⟨.item i.toInt.toNat, ?_, h⟩
      change ((Decimal.integer segment).bind fun i =>
        if 0 ≤ i.toInt then some (Step.item i.toInt.toNat) else none) = _
      rw [hi]
      exact if_pos hpos
    · rw [if_neg hpos] at h
      cases h

/-! ### Whole paths -/

variable {node : Node} {p : List Step}

theorem address_cons_iff {segment : String} {rest : List String} :
    node.address? (segment :: rest) = some p ↔
      ∃ step child below, node.stepOf segment = some step ∧ node.child? step = some child ∧
        child.address? rest = some below ∧ p = step :: below := by
  simp only [address?, Option.bind_eq_bind, Option.bind_eq_some_iff, Option.pure_def,
    Option.some.injEq]
  constructor
  · rintro ⟨step, hs, child, hc, below, hb, rfl⟩
    exact ⟨step, child, below, hs, hc, hb, rfl⟩
  · rintro ⟨step, child, below, hs, hc, hb, rfl⟩
    exact ⟨step, hs, child, hc, below, hb, rfl⟩

/-- A path that addresses a position finds the node there. -/
theorem find_of_address {path : List String} (h : node.address? path = some p) :
    ∃ m, node.find path = some m ∧ node.get? p = some m := by
  induction path generalizing node p with
  | nil =>
    cases h
    exact ⟨node, rfl, rfl⟩
  | cons segment rest ih =>
    obtain ⟨step, child, below, hs, hc, hb, rfl⟩ := address_cons_iff.1 h
    obtain ⟨m, hf, hg⟩ := ih hb
    refine ⟨m, ?_, (get?_cons hc below).trans hg⟩
    rw [find, segment_of_stepOf hs, hc]
    exact hf

theorem address_append {m : Node} {r : List Step} {pre post : List String}
    (hp : node.address? pre = some p) (hm : node.get? p = some m)
    (hr : m.address? post = some r) : node.address? (pre ++ post) = some (p ++ r) := by
  induction pre generalizing node p with
  | nil =>
    cases hp
    cases hm
    exact hr
  | cons segment rest ih =>
    obtain ⟨step, child, below, hs, hc, hb, rfl⟩ := address_cons_iff.1 hp
    rw [get?_cons hc] at hm
    exact address_cons_iff.2 ⟨step, child, _, hs, hc, ih hb hm, rfl⟩

/-- A path addresses the same position in a tree that has nodes of the same kinds on the way. -/
theorem address_transfer {other : Node} {path : List String} (h : node.address? path = some p)
    (hkind : ∀ q step r n, p = q ++ step :: r → node.get? q = some n →
      ∃ m, other.get? q = some m ∧ m.SameKind n)
    (hend : (other.get? p).isSome = true) : other.address? path = some p := by
  induction path generalizing node other p with
  | nil =>
    cases h
    rfl
  | cons segment rest ih =>
    obtain ⟨step, child, below, hs, hc, hb, rfl⟩ := address_cons_iff.1 h
    obtain ⟨m, hm, hsame⟩ := hkind [] step below node rfl rfl
    cases hm
    cases hc' : other.child? step with
    | none =>
      rw [get?, hc'] at hend
      cases hend
    | some child' =>
      refine address_cons_iff.2 ⟨step, child', below, ?_, hc', ?_, rfl⟩
      · rw [stepOf_congr hsame]
        exact hs
      · refine ih hb ?_ ?_
        · intro q s r n hq hn
          obtain ⟨m, hm, hk⟩ := hkind (step :: q) s r n (by rw [hq]; rfl)
            ((get?_cons hc q).trans hn)
          exact ⟨m, (get?_cons hc' q).symm.trans hm, hk⟩
        · rw [← get?_cons hc']
          exact hend

end Node

/-- Before a sequence a path has a segment that writes a position. -/
def Positional (root : Node) (path : List String) : Prop :=
  ∀ pre segment post m, path = pre ++ segment :: post → root.find pre = some m →
    m.isSequence = true → (Decimal.integer segment).isSome = true

/-- What such a path finds stands at the position that it addresses. -/
theorem address_of_find {root m : Node} {path : List String} (hp : Positional root path)
    (h : root.find path = some m) :
    ∃ p, root.address? path = some p ∧ root.get? p = some m := by
  induction path generalizing root with
  | nil =>
    cases h
    exact ⟨[], rfl, rfl⟩
  | cons segment rest ih =>
    rw [Node.find] at h
    obtain ⟨child, hc, hm⟩ := Option.bind_eq_some_iff.1 h
    obtain ⟨step, hs, hchild⟩ := Node.exists_stepOf (hp [] segment rest root rfl rfl) hc
    have hrest : Positional child rest := by
      intro pre s post n hpath hn hseq
      refine hp (segment :: pre) s post n (by rw [hpath]; rfl) ?_ hseq
      rw [Node.find, hc]
      exact hn
    obtain ⟨p, hp, hg⟩ := ih hrest hm
    exact ⟨step :: p, Node.address_cons_iff.2 ⟨step, child, p, hs, hchild, hp, rfl⟩,
      (Node.get?_cons hchild p).trans hg⟩

end EnergyPlan.Config
