/-
# The sites of a tree when one of them is replaced

Replacing the scalar at a site by a node puts the sites of that node where the site was in
the document order, and leaves all the others as they are. For this a key must not occur
twice in a mapping that holds something pending; what a mapping without anything pending
looks like does not matter, since none of its sites is ever replaced.

A tree is pending exactly if the text of one of its sites is live, so the display paths of
the live sites name all that is pending.

Key definitions: `Node.Tidy`, `Node.Splices`, `Node.pendingPaths`.
Key theorems: `Node.Tidy.splices`, `Node.pendingPaths_ne_nil`.
-/
import EnergyPlan.Proofs.Resolution.Standing

namespace EnergyPlan.Config

/-- Whether a visit looks into the text of a site. -/
def Site.live (site : Site) : Bool := hasPlaceholder site.text || looksLikeExpression site.text

theorem Site.live_iff {site : Site} : site.live = true ↔ Live site.text := Iff.rfl

namespace Node

/-- The display paths of the scalars of a tree that are pending, in document order. -/
def pendingPaths (tree : Node) : List String :=
  ((tree.sitesBelow [] "").filter Site.live).map (·.path)

mutual

theorem exists_live_site : ∀ (node : Node) (position : List Step) (path : String),
    node.isPending = true → ∃ site ∈ node.sitesBelow position path, site.live = true
  | .null, _, _, h => nomatch h
  | .scalar tag text, position, path, h => by
    rw [isPending, scalarPending, Bool.and_eq_true] at h
    refine ⟨⟨position, path, text⟩, ?_, h.2⟩
    rw [sitesBelow, if_neg (bne_iff_ne.1 h.1)]
    exact List.mem_singleton.2 rfl
  | .sequence items, position, path, h => exists_live_item items 0 position path h
  | .mapping entries, position, path, h => exists_live_entry entries position path h

theorem exists_live_item : ∀ (items : List Node) (i : Nat) (position : List Step)
    (path : String), anyPending items = true →
    ∃ site ∈ itemSites items i position path, site.live = true
  | [], _, _, _, h => nomatch h
  | node :: rest, i, position, path, h => by
    rw [anyPending, Bool.or_eq_true] at h
    rw [itemSites]
    rcases h with h | h
    · obtain ⟨site, hs, hlive⟩ := exists_live_site node _ _ h
      exact ⟨site, List.mem_append_left _ hs, hlive⟩
    · obtain ⟨site, hs, hlive⟩ := exists_live_item rest (i + 1) position path h
      exact ⟨site, List.mem_append_right _ hs, hlive⟩

theorem exists_live_entry : ∀ (entries : List (String × Node)) (position : List Step)
    (path : String), anyEntryPending entries = true →
    ∃ site ∈ entrySites entries position path, site.live = true
  | [], _, _, h => nomatch h
  | (key, node) :: rest, position, path, h => by
    rw [anyEntryPending, Bool.or_eq_true] at h
    rw [entrySites]
    rcases h with h | h
    · obtain ⟨site, hs, hlive⟩ := exists_live_site node _ _ h
      exact ⟨site, List.mem_append_left _ hs, hlive⟩
    · obtain ⟨site, hs, hlive⟩ := exists_live_entry rest position path h
      exact ⟨site, List.mem_append_right _ hs, hlive⟩

end

/-- A pending tree has a pending scalar to name. -/
theorem pendingPaths_ne_nil {tree : Node} (h : tree.isPending = true) :
    tree.pendingPaths ≠ [] := by
  obtain ⟨site, hs, hlive⟩ := exists_live_site tree [] "" h
  have hmem : site.path ∈ tree.pendingPaths :=
    List.mem_map_of_mem (List.mem_filter.2 ⟨hs, hlive⟩)
  exact List.ne_nil_of_mem hmem

/-! ### Trees whose sites can be replaced -/

/-- No mapping that holds something pending has a key twice. -/
inductive Tidy : Node → Prop
  | settled {node : Node} (done : node.isPending = false) : Tidy node
  | scalar (tag : Tag) (text : String) : Tidy (.scalar tag text)
  | sequence {items : List Node} (below : ∀ item ∈ items, Tidy item) : Tidy (.sequence items)
  | mapping {entries : List (String × Node)} (keys : (entries.map (·.1)).Nodup)
      (below : ∀ e ∈ entries, Tidy e.2) : Tidy (.mapping entries)

theorem Distinct.tidy {node : Node} (h : node.Distinct) : node.Tidy := by
  induction h with
  | null => exact .settled rfl
  | scalar tag text => exact .scalar tag text
  | sequence _ ih => exact .sequence ih
  | mapping keys _ ih => exact .mapping keys ih

/-- A node has a site, `r` below the place where it stands, between other ones, and its sites
are the others around those of what replaces it. -/
structure Splices (node : Node) (position : List Step) (path : String) (before : List Site)
    (site : Site) (after : List Site) (r : List Step) : Prop where
  place : site.position = position ++ r
  sites : ∀ value : Node, (node.set value r).sitesBelow position path =
    before ++ value.sitesBelow site.position site.path ++ after
  tidy : ∀ value : Node, value.Tidy → (node.set value r).Tidy
  inner : ∀ value : Node, node.isScalar = false → (node.set value r).isScalar = false

section Split

variable {before after : List Site} {site : Site} {position : List Step} {path : String}

/-- An element of two lists behind one another stands in the first or in the second. -/
theorem append_eq_split {α : Type} {xs ys before after : List α} {a : α}
    (h : xs ++ ys = before ++ a :: after) :
    (∃ mid, xs = before ++ a :: mid ∧ after = mid ++ ys) ∨
      ∃ mid, before = xs ++ mid ∧ ys = mid ++ a :: after := by
  rcases List.append_eq_append_iff.1 h with ⟨mid, hbefore, hys⟩ | ⟨mid, hxs, hmid⟩
  · exact Or.inr ⟨mid, hbefore, hys⟩
  · cases mid with
    | nil =>
      rw [List.append_nil] at hxs
      exact Or.inr ⟨[], by rw [hxs, List.append_nil], hmid.symm⟩
    | cons first rest =>
      rw [List.cons_append, List.cons.injEq] at hmid
      obtain ⟨rfl, hafter⟩ := hmid
      exact Or.inl ⟨rest, hxs, hafter⟩

/-- A site of a sequence is a site of one element; the sites around that element stay. -/
theorem itemSites_split {items : List Node} {i : Nat}
    (h : itemSites items i position path = before ++ site :: after) :
    ∃ (j : Nat) (item : Node) (left mid mid' right : List Site),
      items[j]? = some item ∧ before = left ++ mid ∧ after = mid' ++ right ∧
      item.sitesBelow (position ++ [.item (i + j)]) (Text.childPath path (toString (i + j))) =
        mid ++ site :: mid' ∧
      ∀ value : Node, itemSites (items.set j value) i position path =
        left ++ (value.sitesBelow (position ++ [.item (i + j)])
          (Text.childPath path (toString (i + j))) ++ right) := by
  induction items generalizing i before with
  | nil => exact absurd h.symm (List.append_ne_nil_of_right_ne_nil _ (List.cons_ne_nil _ _))
  | cons node rest ih =>
    rw [itemSites] at h
    rcases append_eq_split h with ⟨mid', hnode, hafter⟩ | ⟨mid, hbefore, hrest⟩
    · exact ⟨0, node, [], before, mid', _, rfl, rfl, hafter, hnode, fun _ => rfl⟩
    · obtain ⟨j, item, left, mid₁, mid', right, hj, hmid, hafter, hitem, hset⟩ := ih hrest
      rw [Nat.add_right_comm i 1 j] at hitem hset
      refine ⟨j + 1, item,
        node.sitesBelow (position ++ [.item i]) (Text.childPath path (toString i)) ++ left,
        mid₁, mid', right, hj, ?_, hafter, hitem, fun value => ?_⟩
      · rw [hbefore, hmid, List.append_assoc]
      · rw [List.set_cons_succ, itemSites, hset, List.append_assoc]
        rfl

/-- A site of a mapping is a site of the value at one key; the sites around that value stay. -/
theorem entrySites_split {entries : List (String × Node)} (keys : (entries.map (·.1)).Nodup)
    (h : entrySites entries position path = before ++ site :: after) :
    ∃ (key : String) (node : Node) (left mid mid' right : List Site),
      (key, node) ∈ entries ∧ before = left ++ mid ∧ after = mid' ++ right ∧
      node.sitesBelow (position ++ [.key key]) (Text.childPath path key) = mid ++ site :: mid' ∧
      ∀ value : Node, entrySites (setEntry key value entries) position path =
        left ++ (value.sitesBelow (position ++ [.key key]) (Text.childPath path key) ++
          right) := by
  induction entries generalizing before with
  | nil => exact absurd h.symm (List.append_ne_nil_of_right_ne_nil _ (List.cons_ne_nil _ _))
  | cons e rest ih =>
    obtain ⟨k, first⟩ := e
    rw [List.map_cons, List.nodup_cons] at keys
    rw [entrySites] at h
    rcases append_eq_split h with ⟨mid', hnode, hafter⟩ | ⟨mid, hbefore, hrest⟩
    · refine ⟨k, first, [], before, mid', _, List.mem_cons_self, rfl, hafter, hnode, fun value => ?_⟩
      rw [setEntry, if_pos rfl]
      rfl
    · obtain ⟨key, node, left, mid₁, mid', right, hmem, hmid, hafter, hnode, hset⟩ :=
        ih keys.2 hrest
      have hne : k ≠ key := fun heq => keys.1 (List.mem_map.2 ⟨_, hmem, heq.symm⟩)
      refine ⟨key, node,
        first.sitesBelow (position ++ [.key k]) (Text.childPath path k) ++ left,
        mid₁, mid', right, List.mem_cons_of_mem _ hmem, ?_, hafter, hnode, fun value => ?_⟩
      · rw [hbefore, hmid, List.append_assoc]
      · rw [setEntry, if_neg hne, entrySites, hset, List.append_assoc]

/-- What splices into a child splices into the node, one step above. -/
theorem Splices.climb {node child : Node} {step : Step} {deeper : String}
    {left mid mid' right : List Site} {r : List Step} (hc : node.child? step = some child)
    (h : child.Splices (position ++ [step]) deeper mid site mid' r)
    (hsites : ∀ value : Node, (node.setChild step value).sitesBelow position path =
      left ++ (value.sitesBelow (position ++ [step]) deeper ++ right))
    (htidy : ∀ value : Node, value.Tidy → (node.setChild step value).Tidy)
    (hinner : ∀ value : Node, (node.setChild step value).isScalar = false) :
    node.Splices position path (left ++ mid) site (mid' ++ right) (step :: r) := by
  have hset (value : Node) : node.set value (step :: r) =
      node.setChild step (child.set value r) := set_cons hc value r
  refine ⟨?_, fun value => ?_, fun value hv => ?_, fun value _ => ?_⟩
  · rw [h.place, List.append_assoc]
    rfl
  · rw [hset, hsites, h.sites]
    simp only [List.append_assoc]
  · rw [hset]
    exact htidy _ (h.tidy value hv)
  · rw [hset]
    exact hinner _

/-- **A live site of a tidy tree can be replaced**, and the other sites stay. -/
theorem Tidy.splices {node : Node} (h : node.Tidy)
    (hs : node.sitesBelow position path = before ++ site :: after) (hlive : Live site.text) :
    ∃ r, node.Splices position path before site after r := by
  induction h generalizing position path before after with
  | settled done =>
    have hmem : site ∈ before ++ site :: after := List.mem_append_right _ List.mem_cons_self
    exact absurd hlive (not_live_of_mem_sitesBelow _ position path site done (hs ▸ hmem))
  | scalar tag text =>
    rw [sitesBelow] at hs
    split at hs
    · exact absurd hs.symm (List.append_ne_nil_of_right_ne_nil _ (List.cons_ne_nil _ _))
    · obtain ⟨rfl, hsite, rfl⟩ : before = [] ∧ site = ⟨position, path, text⟩ ∧ after = [] := by
        rcases List.append_eq_singleton_iff.1 hs.symm with ⟨hb, ha⟩ | ⟨_, ha⟩
        · rw [List.cons.injEq] at ha
          exact ⟨hb, ha⟩
        · cases ha
      subst hsite
      refine ⟨[], (List.append_nil _).symm, fun value => ?_, fun _ hv => hv, fun _ hn => nomatch hn⟩
      rw [List.nil_append, List.append_nil]
      rfl
  | @sequence items below ih =>
    rw [sitesBelow] at hs
    obtain ⟨j, item, left, mid, mid', right, hj, rfl, rfl, hitem, hset⟩ := itemSites_split hs
    rw [Nat.zero_add] at hitem hset
    obtain ⟨r, hr⟩ := ih item (List.mem_of_getElem? hj) hitem
    refine ⟨.item j :: r, hr.climb hj hset (fun value hv => .sequence fun other hm => ?_)
      fun _ => rfl⟩
    rcases List.mem_or_eq_of_mem_set hm with hm | rfl
    · exact below other hm
    · exact hv
  | @mapping entries keys below ih =>
    rw [sitesBelow] at hs
    obtain ⟨key, node, left, mid, mid', right, hmem, rfl, rfl, hnode, hset⟩ :=
      entrySites_split keys hs
    obtain ⟨r, hr⟩ := ih _ hmem hnode
    have hc : (Node.mapping entries).child? (.key key) = some node := lookup_of_mem keys hmem
    refine ⟨.key key :: r, hr.climb hc hset (fun value hv => .mapping ?_ fun e he => ?_)
      fun _ => rfl⟩
    · have hk : (entries.lookup key).isSome = true := Option.isSome_of_eq_some hc
      rw [keys_setEntry hk]
      exact keys
    · rcases mem_setEntry he with hm | heq
      · exact below e hm
      · rw [heq]
        exact hv

end Split

end Node

end EnergyPlan.Config
