/-
# Merging is a union of keys at every depth

What stands at a path of keys after one mapping is merged into another is decided by what the
two have there. Where both have a mapping, the old keys come first, in their order, and the keys
that only the document has come behind them, in its order. Any other node of the document stands
as it is. A path that the document does not enter, or leaves within mappings that both have,
leads to what was there before.

The argument is one step down: an entry of the merged mapping is the document's entry merged into
the one that stood at its key. So the paths are followed by induction, with `mergeAt` in place of
`merge`, which also says what happens where one of the two is no mapping.

Key definitions: `Node.at?`.
Key theorems: `lookup_mergeEntries_of_mem`, `keys_mergeEntries`, `mergeAt_again`, `merge_unites`.
-/
import EnergyPlan.Proofs.Resolution.Positions

namespace EnergyPlan.Config.Node

variable {key : String} {node value target document : Node}
  {entries old : List (String × Node)} {path : List String}

/-- The node to which a path of keys leads. -/
def at? (node : Node) (path : List String) : Option Node := node.get? (path.map .key)

theorem at?_cons (node : Node) (key : String) (path : List String) :
    node.at? (key :: path) = (node.entry? key).bind fun child => child.at? path := rfl

/-! ### One level -/

/-- A key that was there keeps its place, and a new one comes to the end. -/
theorem map_fst_setEntry (key : String) (value : Node) (entries : List (String × Node)) :
    (setEntry key value entries).map (·.1) =
      if key ∈ entries.map (·.1) then entries.map (·.1) else entries.map (·.1) ++ [key] := by
  induction entries with
  | nil => rfl
  | cons e rest ih =>
    obtain ⟨k, v⟩ := e
    rw [setEntry]
    by_cases hk : k = key
    · simp [hk]
    · rw [if_neg hk, List.map_cons, ih]
      by_cases h : key ∈ rest.map (·.1)
      · rw [if_pos h, if_pos (by simp [h]), List.map_cons]
      · rw [if_neg h, if_neg (by simp [h, Ne.symm hk]), List.map_cons, List.cons_append]

theorem lookup_eq_none_of_not_mem (h : key ∉ entries.map (·.1)) : entries.lookup key = none := by
  refine List.lookup_eq_none_iff.2 fun e he => bne_iff_ne.2 ?_
  rintro rfl
  exact h (List.mem_map_of_mem he)

/-- **An entry of the document is merged into what stood at its key.** -/
theorem lookup_mergeEntries_of_mem (keys : (entries.map (·.1)).Nodup)
    (h : (key, node) ∈ entries) (old : List (String × Node)) :
    (mergeEntries entries old).lookup key = some (mergeAt node (old.lookup key)) := by
  induction entries generalizing old with
  | nil => exact absurd h List.not_mem_nil
  | cons e rest ih =>
    rw [List.map_cons, List.nodup_cons] at keys
    rw [mergeEntries]
    rcases List.mem_cons.1 h with rfl | h
    · rw [lookup_mergeEntries (lookup_eq_none_of_not_mem keys.1), lookup_setEntry, if_pos rfl]
    · have hne : key ≠ e.1 := fun heq => keys.1 (heq ▸ List.mem_map_of_mem h)
      rw [ih keys.2 h, lookup_setEntry, if_neg hne]

/-- **The old keys come first, the new ones behind them.** -/
theorem keys_mergeEntries (keys : (entries.map (·.1)).Nodup) (old : List (String × Node)) :
    (mergeEntries entries old).map (·.1) =
      old.map (·.1) ++ (entries.map (·.1)).filter (· ∉ old.map (·.1)) := by
  induction entries generalizing old with
  | nil => simp [mergeEntries]
  | cons e rest ih =>
    rw [List.map_cons, List.nodup_cons] at keys
    rw [mergeEntries, ih keys.2, map_fst_setEntry, List.map_cons, List.filter_cons]
    by_cases h : e.1 ∈ old.map (·.1)
    · rw [if_pos h, if_neg (by simp [h])]
    · -- the key just added stands at no later entry, so it makes no difference to them
      have hrest : (rest.map (·.1)).filter (· ∉ old.map (·.1) ++ [e.1]) =
          (rest.map (·.1)).filter (· ∉ old.map (·.1)) := by
        refine List.filter_congr fun k hk => ?_
        have hne : k ≠ e.1 := fun heq => keys.1 (heq ▸ hk)
        simp [hne]
      rw [if_neg h, if_pos (by simp [h]), hrest, List.append_assoc, List.singleton_append]

/-- Merging changes nothing where every entry is there already. -/
theorem mergeEntries_of_absorbed
    (h : ∀ e ∈ entries, ∃ v, old.lookup e.1 = some v ∧ mergeAt e.2 (some v) = v) :
    mergeEntries entries old = old := by
  induction entries with
  | nil => rfl
  | cons e rest ih =>
    rw [List.forall_mem_cons] at h
    obtain ⟨⟨v, hv, habsorbed⟩, hrest⟩ := h
    rw [mergeEntries, hv, habsorbed, setEntry_lookup hv, ih hrest]

/-! ### Merging twice -/

/-- A node merged into a copy of itself, by induction on the node. -/
theorem mergeAt_self (h : node.Distinct) : mergeAt node (some node) = node := by
  induction h with
  | null => rfl
  | scalar tag text => rfl
  | sequence => rfl
  | mapping keys _ ih =>
    rw [mergeAt, mergeEntries_of_absorbed]
    exact fun e he => ⟨e.2, lookup_of_mem keys he, ih e he⟩

/-- **A document merged once more** finds all of it there, by induction on the document. -/
theorem mergeAt_again (h : document.Distinct) (before : Option Node) :
    mergeAt document (some (mergeAt document before)) = mergeAt document before := by
  induction h generalizing before with
  | null => rfl
  | scalar tag text => rfl
  | sequence => rfl
  | @mapping entries keys below ih =>
    have hself := mergeAt_self (.mapping keys below)
    cases before with
    | none => exact hself
    | some target =>
      cases target with
      | mapping old =>
        rw [mergeAt, mergeAt, mergeEntries_of_absorbed]
        exact fun e he => ⟨_, lookup_mergeEntries_of_mem keys he old, ih e he _⟩
      | null | scalar | sequence => exact hself

/-! ### Paths -/

theorem mergeAt_none (document : Node) : mergeAt document none = document := by
  cases document <;> rfl

theorem mergeAt_of_not_isMapping (h : document.isMapping = false ∨ target.isMapping = false) :
    mergeAt document (some target) = document := by
  cases document with
  | mapping entries =>
    cases target with
    | mapping old => simp [isMapping] at h
    | null | scalar | sequence => rfl
  | null | scalar | sequence => rfl

theorem isMapping_of_entry (h : node.entry? key = some value) : node.isMapping = true := by
  cases node with
  | mapping entries => rfl
  | null | scalar | sequence => cases h

theorem merge_eq_mergeAt (ht : target.isMapping = true) (hd : document.isMapping = true) :
    target.merge document = mergeAt document (some target) := by
  cases target with
  | mapping old =>
    cases document with
    | mapping entries => rfl
    | null | scalar | sequence => cases hd
  | null | scalar | sequence => cases ht

theorem isMapping_merge (h : target.isMapping = true) (document : Node) :
    (target.merge document).isMapping = true := by
  cases target with
  | mapping old => rfl
  | null | scalar | sequence => cases h

theorem Distinct.entry (h : node.Distinct) (he : node.entry? key = some value) : value.Distinct :=
  h.child (show node.child? (.key key) = some value from he)

/-- One key down, the document's node is merged into what stood there. -/
theorem mergeAt_of_entry (hd : document.Distinct) (ht : target.isMapping = true)
    (h : document.entry? key = some node) :
    Node.entry? (mergeAt document (some target)) key = some (mergeAt node (target.entry? key)) := by
  cases target with
  | mapping old =>
    cases hd with
    | mapping keys _ => exact lookup_mergeEntries_of_mem keys (mem_of_lookup h) old
    | null | scalar | sequence => cases h
  | null | scalar | sequence => cases ht

/-- A key that the document does not have leads where it led. -/
theorem mergeAt_of_no_entry (hd : document.isMapping = true) (ht : target.isMapping = true)
    (h : document.entry? key = none) :
    Node.entry? (mergeAt document (some target)) key = target.entry? key := by
  rw [← merge_eq_mergeAt ht hd]
  cases target with
  | mapping old => exact lookup_mergeEntries h old
  | null | scalar | sequence => cases ht

/-- Where the document has no mapping, or nothing there is one to merge it into, its node stands. -/
theorem at?_mergeAt_of_document (hd : document.Distinct) (hnode : document.at? path = some node)
    (hstands : node.isMapping = false ∨ ∀ o, target.at? path = some o → o.isMapping = false) :
    (mergeAt document (some target)).at? path = some node := by
  induction path generalizing document target with
  | nil =>
    cases hnode
    rw [mergeAt_of_not_isMapping (hstands.imp_right fun h => h target rfl)]
    rfl
  | cons key path ih =>
    by_cases hboth : document.isMapping = true ∧ target.isMapping = true
    · rw [at?_cons] at hnode ⊢
      obtain ⟨child, hchild, hbelow⟩ := Option.bind_eq_some_iff.1 hnode
      rw [mergeAt_of_entry hd hboth.2 hchild, Option.bind_some]
      cases hold : target.entry? key with
      | none => rwa [mergeAt_none]
      | some o =>
        refine ih (hd.entry hchild) hbelow (hstands.imp_right fun h below hb => h below ?_)
        rw [at?_cons, hold]
        exact hb
    · rw [mergeAt_of_not_isMapping]
      · exact hnode
      · rwa [not_and_or, Bool.not_eq_true, Bool.not_eq_true] at hboth

/-- Where both have a mapping, the entries of the document's are merged into those of the other. -/
theorem at?_mergeAt_of_both (hd : document.Distinct)
    (hnode : document.at? path = some (.mapping entries))
    (hold : target.at? path = some (.mapping old)) :
    (mergeAt document (some target)).at? path = some (.mapping (mergeEntries entries old)) := by
  induction path generalizing document target with
  | nil =>
    cases hnode
    cases hold
    rfl
  | cons key path ih =>
    rw [at?_cons] at hnode hold
    obtain ⟨child, hchild, hbelow⟩ := Option.bind_eq_some_iff.1 hnode
    obtain ⟨o, ho, hobelow⟩ := Option.bind_eq_some_iff.1 hold
    rw [at?_cons, mergeAt_of_entry hd (isMapping_of_entry ho) hchild, ho]
    exact ih (hd.entry hchild) hbelow hobelow

/-- A path that the document leaves within mappings of both leads to what was there before. -/
theorem at?_mergeAt_of_neither (hd : document.Distinct) (hnone : document.at? path = none)
    (habove : ∀ q n, q <+: path → q ≠ path → document.at? q = some n →
      n.isMapping = true ∧ ∃ o, target.at? q = some o ∧ o.isMapping = true) :
    (mergeAt document (some target)).at? path = target.at? path := by
  induction path generalizing document target with
  | nil => cases hnone
  | cons key path ih =>
    obtain ⟨hm, t, ht, htm⟩ := habove [] document List.nil_prefix (List.cons_ne_nil _ _).symm rfl
    cases ht
    rw [at?_cons] at hnone ⊢
    rw [at?_cons]
    cases hchild : document.entry? key with
    | none => rw [mergeAt_of_no_entry hm htm hchild]
    | some child =>
      rw [hchild] at hnone
      have hbelow {q : List String} {n : Node} (hq : q <+: path) (hne : q ≠ path)
          (hn : child.at? q = some n) :
          n.isMapping = true ∧ ∃ o, target.at? (key :: q) = some o ∧ o.isMapping = true := by
        refine habove (key :: q) n (List.cons_prefix_cons.2 ⟨rfl, hq⟩) ?_ ?_
        · exact fun heq => hne (List.cons.inj heq).2
        · rw [at?_cons, hchild]
          exact hn
      -- the document has a node at this key, so the path goes on and the other has one too
      have hlonger : [] ≠ path := by
        rintro rfl
        cases hnone
      obtain ⟨-, o, ho, -⟩ := hbelow List.nil_prefix hlonger rfl
      obtain ⟨old, hold, -⟩ := Option.bind_eq_some_iff.1 ho
      replace hold : target.entry? key = some old := hold
      rw [mergeAt_of_entry hd htm hchild, hold]
      refine ih (hd.entry hchild) hnone fun q n hq hne hn => ?_
      obtain ⟨hnm, o', ho', hom⟩ := hbelow hq hne hn
      rw [at?_cons, hold] at ho'
      exact ⟨hnm, o', ho', hom⟩

/-- **Merging is a union of keys along every path.** At a path that is not empty, the document's
node stands if it is no mapping or if there was no mapping; two mappings become one with the old
keys in their order and then the document's other keys in theirs; and where the document has
nothing, but every node above it in the document is a mapping that meets a mapping, all is as
before. Merging the document again changes nothing, and neither does merging a tree into itself. -/
theorem merge_unites {target document : Node} (htm : target.isMapping = true)
    (hdm : document.isMapping = true) (ht : target.Distinct) (hd : document.Distinct) :
    (∀ path ≠ [],
      (∀ node, document.at? path = some node →
        (node.isMapping = false ∨ ∀ o, target.at? path = some o → o.isMapping = false) →
          (target.merge document).at? path = some node) ∧
      (∀ entries old, document.at? path = some (.mapping entries) →
        target.at? path = some (.mapping old) →
          ∃ merged, (target.merge document).at? path = some (.mapping merged) ∧
            merged.map (·.1) =
              old.map (·.1) ++ (entries.map (·.1)).filter (· ∉ old.map (·.1))) ∧
      (document.at? path = none →
        (∀ q n, q <+: path → q ≠ path → document.at? q = some n →
          n.isMapping = true ∧ ∃ o, target.at? q = some o ∧ o.isMapping = true) →
            (target.merge document).at? path = target.at? path)) ∧
      (target.merge document).merge document = target.merge document ∧
      target.merge target = target := by
  have hmerge {t d : Node} (ht : t.isMapping = true) (hd : d.isMapping = true) :
      t.merge d = mergeAt d (some t) := merge_eq_mergeAt ht hd
  have hagain : (target.merge document).isMapping = true := isMapping_merge htm document
  refine ⟨fun path _ => ⟨fun node hnode hstands => ?_, fun entries old hnode hold => ?_,
    fun hnone habove => ?_⟩, ?_, ?_⟩
  · rw [hmerge htm hdm]
    exact at?_mergeAt_of_document hd hnode hstands
  · rw [hmerge htm hdm]
    refine ⟨_, at?_mergeAt_of_both hd hnode hold, ?_⟩
    cases hd.get hnode with
    | mapping keys _ => exact keys_mergeEntries keys old
  · rw [hmerge htm hdm]
    exact at?_mergeAt_of_neither hd hnone habove
  · rw [hmerge hagain hdm, hmerge htm hdm]
    exact mergeAt_again hd (some target)
  · rw [hmerge htm htm]
    exact mergeAt_self ht

/-- What was loaded so far: a mapping below `plan`, and a year by itself. -/
def loadedTree : Node :=
  .mapping [("plan", .mapping [("rate", .plain "0.05"), ("years", .sequence [.plain "2020"])]),
    ("first", .plain "2020")]

/-- A document with a mapping in place of a scalar, and a sequence in place of a sequence. -/
def laterDocument : Node :=
  .mapping [("note", .null), ("plan", .mapping [("years", .sequence []), ("life", .plain "20"),
    ("rate", .mapping [("north", .plain "0.1")])])]

theorem loadedTree_distinct : loadedTree.Distinct := by
  refine .mapping (by decide) (List.forall_mem_cons.2 ⟨.mapping (by decide) ?_, ?_⟩)
  · simp [Distinct.scalar, plain, Distinct.sequence]
  · simp [Distinct.scalar, plain]

theorem laterDocument_distinct : laterDocument.Distinct := by
  have hrate : (Node.mapping [("north", .plain "0.1")]).Distinct :=
    .mapping (by decide) (by simp [Distinct.scalar, plain])
  refine .mapping (by decide) (List.forall_mem_cons.2 ⟨.null, List.forall_mem_singleton.2 ?_⟩)
  refine .mapping (by decide) (List.forall_mem_cons.2 ⟨.sequence (by simp),
    List.forall_mem_cons.2 ⟨.scalar _ _, List.forall_mem_singleton.2 hrate⟩⟩)

/-- The keys below `plan` are united, its rate becomes a mapping, and the first year stays. -/
theorem merge_unites_sample :
    loadedTree.isMapping = true ∧ laterDocument.isMapping = true ∧ loadedTree.Distinct ∧
      laterDocument.Distinct ∧
      (loadedTree.merge laterDocument).at? ["plan", "rate"] =
        some (.mapping [("north", .plain "0.1")]) ∧
      (∃ merged, (loadedTree.merge laterDocument).at? ["plan"] = some (.mapping merged) ∧
        merged.map (·.1) = ["rate", "years", "life"]) ∧
      (loadedTree.merge laterDocument).at? ["first"] = some (.plain "2020") := by
  obtain ⟨hpaths, -, -⟩ :=
    merge_unites (show loadedTree.isMapping = true from rfl)
      (show laterDocument.isMapping = true from rfl) loadedTree_distinct laterDocument_distinct
  refine ⟨rfl, rfl, loadedTree_distinct, laterDocument_distinct, ?_, ?_, ?_⟩
  · refine (hpaths ["plan", "rate"] (by decide)).1 _ rfl (Or.inr fun o ho => ?_)
    cases ho
    rfl
  · exact (hpaths ["plan"] (by decide)).2.1 _ _ rfl rfl
  · refine (hpaths ["first"] (by decide)).2.2 rfl fun q n hq hne hn => ?_
    obtain rfl : q = [] := by
      rcases List.prefix_cons_iff.1 hq with rfl | ⟨rest, rfl, hrest⟩
      · rfl
      · exact absurd (congrArg _ (List.prefix_nil.1 hrest)) hne
    cases hn
    exact ⟨rfl, loadedTree, rfl, rfl⟩

end EnergyPlan.Config.Node
