/-
# Merging configuration documents

Documents are merged by the union of their keys: where both hold a mapping the
mappings are merged key by key, anywhere else the later document's node stands.
Keys keep the order in which they first appear.

Key definitions: `Node.merge`.
Key theorems: `lookup_setEntry`, `lookup_mergeEntries`.
-/
import EnergyPlan.Config.Node

namespace EnergyPlan.Config

namespace Node

mutual

/-- The node that stands at a key after merging, given what stood there before. -/
def mergeAt : Node → Option Node → Node
  | .mapping entries, some (.mapping old) => .mapping (mergeEntries entries old)
  | node, _ => node

/-- Entries merged one after the other into those of a mapping. -/
def mergeEntries : List (String × Node) → List (String × Node) → List (String × Node)
  | [], old => old
  | (key, node) :: rest, old =>
    mergeEntries rest (setEntry key (mergeAt node (old.lookup key)) old)

end

/-- The tree after a document is merged into it; a tree without entries becomes a mapping as soon
as the document has any. -/
def merge (target document : Node) : Node :=
  match target, document.entries with
  | .mapping old, entries => .mapping (mergeEntries entries old)
  | target, [] => target
  | _, entries => .mapping (mergeEntries entries [])

/-- Setting a key changes what is found there and nothing else. -/
theorem lookup_setEntry (key k : String) (value : Node) (entries : List (String × Node)) :
    (setEntry key value entries).lookup k =
      if k = key then some value else entries.lookup k := by
  induction entries with
  | nil =>
    by_cases h : k = key
    · simp [setEntry, h]
    · simp [setEntry, List.lookup_cons, beq_false_of_ne h, h]
  | cons e rest ih =>
    obtain ⟨j, v⟩ := e
    by_cases hj : j = key
    · subst hj
      by_cases h : k = j
      · simp [setEntry, h]
      · simp [setEntry, List.lookup_cons, beq_false_of_ne h, h]
    · simp only [setEntry, if_neg hj]
      by_cases h : k = j
      · subst h
        simp [hj]
      · simp [List.lookup_cons, beq_false_of_ne h, ih]

/-- A key that the merged entries do not hold keeps its node. -/
theorem lookup_mergeEntries {key : String} {entries : List (String × Node)}
    (h : entries.lookup key = none) (old : List (String × Node)) :
    (mergeEntries entries old).lookup key = old.lookup key := by
  induction entries generalizing old with
  | nil => simp [mergeEntries]
  | cons e rest ih =>
    obtain ⟨k, node⟩ := e
    by_cases hk : key = k
    · simp [hk] at h
    · rw [List.lookup_cons, beq_false_of_ne hk] at h
      simp only [mergeEntries]
      rw [ih h, lookup_setEntry, if_neg hk]

end Node

end EnergyPlan.Config
