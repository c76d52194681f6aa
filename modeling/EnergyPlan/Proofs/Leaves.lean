/-
# The scalars of a tree and the ways to them

A tree whose mappings have distinct keys leads to each of its scalars in its own way: the
ways to two of them part at a level that both have, so neither is the start of the other.

Key definitions: `Node.Distinct`, `Node.scalars`, `Diverge`.
Key theorems: `Node.mem_leaves_mapping`, `Node.pairwise_scalars`.
-/
import EnergyPlan.Config.Node
import Mathlib.Data.List.Nodup

namespace EnergyPlan.Config

/-- Two ways down a tree have different keys at a level. -/
def Diverge (a b : List String) : Prop :=
  ∃ (level : Nat) (k k' : String), a[level]? = some k ∧ b[level]? = some k' ∧ k ≠ k'

theorem diverge_of_ne {k k' : String} {a b : List String} (h : k ≠ k') :
    Diverge (k :: a) (k' :: b) :=
  ⟨0, k, k', rfl, rfl, h⟩

theorem Diverge.cons {a b : List String} (h : Diverge a b) (k : String) :
    Diverge (k :: a) (k :: b) := by
  obtain ⟨level, x, y, hx, hy, hne⟩ := h
  refine ⟨level + 1, x, y, ?_, ?_, hne⟩
  · rw [List.getElem?_cons_succ]
    exact hx
  · rw [List.getElem?_cons_succ]
    exact hy

namespace Node

/-- No mapping of a tree has a key twice, as in every well-formed document. -/
inductive Distinct : Node → Prop
  | null : Distinct .null
  | scalar (tag : Tag) (text : String) : Distinct (.scalar tag text)
  | sequence {items : List Node} (below : ∀ item ∈ items, Distinct item) :
      Distinct (.sequence items)
  | mapping {entries : List (String × Node)} (keys : (entries.map (·.1)).Nodup)
      (below : ∀ e ∈ entries, Distinct e.2) : Distinct (.mapping entries)

mutual

/-- The scalars of nested mappings with the keys that lead there, in document order. -/
def scalars : Node → List (List String × Node)
  | .scalar tag text => [([], .scalar tag text)]
  | .mapping entries => entryScalars entries
  | _ => []

/-- The scalars below some entries with the keys that lead there. -/
def entryScalars : List (String × Node) → List (List String × Node)
  | [] => []
  | (key, node) :: rest =>
    (scalars node).map (fun (keys, leaf) => (key :: keys, leaf)) ++ entryScalars rest

end

theorem entryScalars_eq (entries : List (String × Node)) :
    entryScalars entries = entries.flatMap fun (key, node) =>
      (scalars node).map fun (keys, leaf) => (key :: keys, leaf) := by
  induction entries with
  | nil => rfl
  | cons e rest ih => rw [entryScalars, ih, List.flatMap_cons]

mutual

theorem isScalar_of_mem_scalars : ∀ (node : Node) (leaf : List String × Node),
    leaf ∈ node.scalars → leaf.2.isScalar = true
  | .null, _, h => by simp [scalars] at h
  | .scalar tag text, leaf, h => by
    rw [scalars, List.mem_singleton] at h
    rw [h]
    rfl
  | .sequence _, _, h => by simp [scalars] at h
  | .mapping entries, leaf, h => isScalar_of_mem_entryScalars entries leaf (by rwa [scalars] at h)

theorem isScalar_of_mem_entryScalars : ∀ (entries : List (String × Node))
    (leaf : List String × Node), leaf ∈ entryScalars entries → leaf.2.isScalar = true
  | [], _, h => by simp [entryScalars] at h
  | (key, node) :: rest, leaf, h => by
    rw [entryScalars, List.mem_append, List.mem_map] at h
    rcases h with ⟨below, hb, rfl⟩ | h
    · exact isScalar_of_mem_scalars node below hb
    · exact isScalar_of_mem_entryScalars rest leaf h

end

/-! ### The leaves at a depth -/

theorem leaves_zero (node : Node) : node.leaves 0 = [([], node)] := by
  cases node <;> rfl

theorem mem_leaves_mapping {entries : List (String × Node)} {depth : Nat} {keys : List String}
    {leaf : Node} : (keys, leaf) ∈ (Node.mapping entries).leaves (depth + 1) ↔
      ∃ key value rest, (key, value) ∈ entries ∧ keys = key :: rest ∧
        (rest, leaf) ∈ value.leaves depth := by
  rw [leaves, List.mem_flatMap]
  constructor
  · rintro ⟨⟨key, value⟩, he, hmem⟩
    obtain ⟨⟨rest, below⟩, hbelow, heq⟩ := List.mem_map.1 hmem
    cases heq
    exact ⟨key, value, rest, he, rfl, hbelow⟩
  · rintro ⟨key, value, rest, he, rfl, hbelow⟩
    exact ⟨(key, value), he, List.mem_map.2 ⟨(rest, leaf), hbelow, rfl⟩⟩

/-! ### The ways diverge -/

/-- **The ways to two scalars of a tree diverge** if no mapping of it has a key twice. -/
theorem pairwise_scalars {node : Node} (h : node.Distinct) :
    node.scalars.Pairwise fun a b => Diverge a.1 b.1 := by
  induction h with
  | null => exact List.Pairwise.nil
  | scalar tag text => exact List.pairwise_singleton _ _
  | sequence => exact List.Pairwise.nil
  | @mapping entries keys _ ih =>
    rw [scalars, entryScalars_eq, List.pairwise_flatMap]
    constructor
    · intro e he
      rw [List.pairwise_map]
      exact (ih e he).imp fun hd => hd.cons e.1
    · rw [List.Nodup, List.pairwise_map] at keys
      apply keys.imp
      intro e f hne x hx y hy
      obtain ⟨a, _, rfl⟩ := List.mem_map.1 hx
      obtain ⟨b, _, rfl⟩ := List.mem_map.1 hy
      exact diverge_of_ne hne

end Node

end EnergyPlan.Config
