/-
# The scalars that a pass visits

The sites of a tree are its scalars that are not tagged as strings, each once with the
position where it stands: whatever waits below the root is visited.

Key theorems: `Node.get_of_mem_sites`, `Node.exists_site`.
-/
import EnergyPlan.Config.Resolution
import EnergyPlan.Proofs.Resolution.Positions

namespace EnergyPlan.Config.Node

theorem mem_entrySites {entries : List (String × Node)} {position : List Step} {path : String}
    {site : Site} : site ∈ entrySites entries position path ↔
      ∃ e ∈ entries, site ∈ e.2.sitesBelow (position ++ [.key e.1]) (Text.childPath path e.1) := by
  induction entries with
  | nil => simp [entrySites]
  | cons e rest ih =>
    obtain ⟨key, node⟩ := e
    rw [entrySites, List.mem_append, ih, List.exists_mem_cons_iff]

theorem mem_itemSites {items : List Node} {i : Nat} {position : List Step} {path : String}
    {site : Site} : site ∈ itemSites items i position path ↔
      ∃ (j : Nat) (item : Node), items[j]? = some item ∧
        site ∈ item.sitesBelow (position ++ [.item (i + j)])
          (Text.childPath path (toString (i + j))) := by
  induction items generalizing i with
  | nil => simp [itemSites]
  | cons node rest ih =>
    rw [itemSites, List.mem_append, ih]
    constructor
    · rintro (h | ⟨j, item, hj, h⟩)
      · exact ⟨0, node, rfl, h⟩
      · refine ⟨j + 1, item, hj, ?_⟩
        rw [Nat.add_right_comm i 1 j] at h
        exact h
    · rintro ⟨j, item, hj, h⟩
      cases j with
      | zero =>
        cases hj
        exact Or.inl h
      | succ j =>
        refine Or.inr ⟨j, item, hj, ?_⟩
        rw [Nat.add_right_comm i 1 j]
        exact h

/-- A site is a scalar of the tree that is not tagged as a string. -/
theorem get_of_mem_sitesBelow {node : Node} (hd : node.Distinct) {position : List Step}
    {path : String} {site : Site} (h : site ∈ node.sitesBelow position path) :
    ∃ r tag, site.position = position ++ r ∧ node.get? r = some (.scalar tag site.text) ∧
      tag ≠ .string := by
  induction hd generalizing position path with
  | null => simp [sitesBelow] at h
  | scalar tag text =>
    rw [sitesBelow] at h
    by_cases ht : tag = .string
    · rw [if_pos ht] at h
      cases h
    · rw [if_neg ht, List.mem_singleton] at h
      subst h
      exact ⟨[], tag, (List.append_nil _).symm, rfl, ht⟩
  | sequence below ih =>
    rw [sitesBelow, mem_itemSites] at h
    obtain ⟨j, item, hj, hs⟩ := h
    obtain ⟨r, tag, hp, hg, ht⟩ := ih item (List.mem_of_getElem? hj) hs
    rw [Nat.zero_add] at hp
    have hc : (sequence _).child? (.item j) = some item := hj
    refine ⟨.item j :: r, tag, ?_, (get?_cons hc r).trans hg, ht⟩
    rw [hp, List.append_assoc]
    rfl
  | mapping keys below ih =>
    rw [sitesBelow, mem_entrySites] at h
    obtain ⟨e, he, hs⟩ := h
    obtain ⟨r, tag, hp, hg, ht⟩ := ih e he hs
    have hc : (mapping _).child? (.key e.1) = some e.2 := lookup_of_mem keys he
    refine ⟨.key e.1 :: r, tag, ?_, (get?_cons hc r).trans hg, ht⟩
    rw [hp, List.append_assoc]
    rfl

/-- Every scalar that is not tagged as a string is a site. -/
theorem exists_site_below {node : Node} {r : List Step} {tag : Tag} {text : String}
    (h : node.get? r = some (.scalar tag text)) (ht : tag ≠ .string) (position : List Step)
    (path : String) :
    ∃ site ∈ node.sitesBelow position path, site.position = position ++ r ∧ site.text = text := by
  induction r generalizing node position path with
  | nil =>
    cases h
    refine ⟨⟨position, path, text⟩, ?_, (List.append_nil _).symm, rfl⟩
    rw [sitesBelow, if_neg ht]
    exact List.mem_singleton.2 rfl
  | cons step rest ih =>
    rw [get?] at h
    obtain ⟨child, hc, hm⟩ := Option.bind_eq_some_iff.1 h
    cases node with
    | null => cases step <;> cases hc
    | scalar tag text => cases step <;> cases hc
    | sequence items =>
      cases step with
      | key k => cases hc
      | item i =>
        obtain ⟨site, hs, hp, hx⟩ := ih hm (position ++ [.item (0 + i)])
          (Text.childPath path (toString (0 + i)))
        refine ⟨site, ?_, ?_, hx⟩
        · rw [sitesBelow]
          exact mem_itemSites.2 ⟨i, child, hc, hs⟩
        · rw [hp, List.append_assoc, Nat.zero_add]
          rfl
    | mapping entries =>
      cases step with
      | key k =>
        obtain ⟨site, hs, hp, hx⟩ := ih hm (position ++ [.key k]) (Text.childPath path k)
        refine ⟨site, ?_, ?_, hx⟩
        · rw [sitesBelow]
          exact mem_entrySites.2 ⟨(k, child), mem_of_lookup hc, hs⟩
        · rw [hp, List.append_assoc]
          rfl
      | item i => cases hc

theorem get_of_mem_sites {root : Node} (hd : root.Distinct) {site : Site}
    (h : site ∈ root.sites) :
    ∃ tag, root.get? site.position = some (.scalar tag site.text) ∧ tag ≠ .string := by
  rw [sites] at h
  split at h
  · cases h
  · obtain ⟨r, tag, hp, hg, ht⟩ := get_of_mem_sitesBelow hd h
    exact ⟨tag, by rw [hp]; exact hg, ht⟩

/-- Every scalar below the root that is not tagged as a string is visited. -/
theorem exists_site {root : Node} (hroot : root.isScalar = false) {p : List Step} {tag : Tag}
    {text : String} (h : root.get? p = some (.scalar tag text)) (ht : tag ≠ .string) :
    ∃ site ∈ root.sites, site.position = p ∧ site.text = text := by
  rw [sites, hroot]
  exact exists_site_below h ht [] ""

end EnergyPlan.Config.Node
