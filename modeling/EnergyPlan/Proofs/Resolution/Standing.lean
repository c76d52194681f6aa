/-
# Resolution rewrites only what is pending

A tree rewrites another one if it is that tree with some of its pending scalars replaced:
what holds nothing pending stands unchanged, and every mapping and sequence keeps its keys,
their order and its length. A visit changes something at or below a pending scalar of the
tree that resolution started from, because a text that is still live can only stand there,
so every pass keeps what a tree rewrites. A tree with nothing pending is left as it is by a
single pass, whatever the environment.

Key definitions: `Rewrites`.
Key theorems: `Rewrites.set`, `Rewrites.origin_of_site`, `resolve_of_settled`,
`resolve_rewrites_pending`.
-/
import EnergyPlan.Proofs.Resolution.Placeholders
import EnergyPlan.Proofs.Resolution.Sites

namespace EnergyPlan.Config

open Text

/-- One tree is another one, the root, with some of its pending scalars replaced. -/
structure Rewrites (root tree : Node) : Prop where
  /-- Where nothing is pending nothing has changed. -/
  settled : ∀ p n, root.get? p = some n → n.isPending = false → tree.get? p = some n
  /-- Sequences keep their length. -/
  items : ∀ p is, root.get? p = some (.sequence is) →
    ∃ is', tree.get? p = some (.sequence is') ∧ is'.length = is.length
  /-- Mappings keep their keys and the order of them. -/
  entries : ∀ p es, root.get? p = some (.mapping es) →
    ∃ es', tree.get? p = some (.mapping es') ∧ es'.map (·.1) = es.map (·.1)

/-- A text that a visit looks into. -/
def Live (text : String) : Prop := (hasPlaceholder text || looksLikeExpression text) = true

/-! ### Replacing a node -/

namespace Node

/-- A sequence keeps its length when something below it is replaced. -/
theorem set_sequence (is : List Node) (value : Node) (step : Step) (r : List Step) :
    ∃ is', (Node.sequence is).set value (step :: r) = .sequence is' ∧ is'.length = is.length := by
  cases hc : (Node.sequence is).child? step with
  | none => exact ⟨is, by rw [set, hc], rfl⟩
  | some child =>
    rw [set_cons hc]
    cases step with
    | key k => cases hc
    | item i => exact ⟨_, rfl, List.length_set⟩

/-- A mapping keeps its keys when something below it is replaced. -/
theorem set_mapping (es : List (String × Node)) (value : Node) (step : Step) (r : List Step) :
    ∃ es', (Node.mapping es).set value (step :: r) = .mapping es' ∧
      es'.map (·.1) = es.map (·.1) := by
  cases hc : (Node.mapping es).child? step with
  | none => exact ⟨es, by rw [set, hc], rfl⟩
  | some child =>
    rw [set_cons hc]
    cases step with
    | key k => exact ⟨_, rfl, keys_setEntry (Option.isSome_of_eq_some hc) _⟩
    | item i => cases hc

/-- A node that is no scalar stands strictly above a replaced place, or apart from it, if that
place lies at or below a scalar. -/
theorem above_or_apart {root w n : Node} {p o q : List Step} (ho : root.get? o = some w)
    (hw : w.isScalar = true) (hoq : o <+: q) (hp : root.get? p = some n)
    (hn : n.isScalar = false) :
    (∃ step r, q = p ++ step :: r) ∨ (¬ q <+: p ∧ ¬ p <+: q) := by
  have hnot : ¬ o <+: p := by
    intro hop
    have heq := eq_of_isScalar ho hw hp hop
    rw [heq, ho, Option.some.injEq] at hp
    rw [hp, hn] at hw
    cases hw
  have hqp : ¬ q <+: p := fun h => hnot (hoq.trans h)
  by_cases hpq : p <+: q
  · obtain ⟨r, rfl⟩ := hpq
    cases r with
    | nil =>
      rw [List.append_nil] at hqp
      exact absurd List.prefix_rfl hqp
    | cons step r => exact Or.inl ⟨step, r, rfl⟩
  · exact Or.inr ⟨hqp, hpq⟩

end Node

namespace Rewrites

variable {root tree : Node}

theorem refl (root : Node) : Rewrites root root where
  settled _ _ hp _ := hp
  items _ is hp := ⟨is, hp, rfl⟩
  entries _ es hp := ⟨es, hp, rfl⟩

/-- **Replacing a node at or below a pending scalar of the root** gives another tree that
rewrites the root. -/
theorem set (h : Rewrites root tree) {o q : List Step} {w : Node} (ho : root.get? o = some w)
    (hw : w.Waits) (hoq : o <+: q) (value : Node) : Rewrites root (tree.set value q) where
  settled p n hp hn := by
    have hpo : ¬ p <+: o := by
      rintro ⟨r, rfl⟩
      rw [Node.get?_append, hp, Option.bind_some] at ho
      exact hw.not_settled (Node.settled_of_get? hn ho)
    have hop : ¬ o <+: p := by
      intro hop
      have heq := Node.eq_of_isScalar ho hw.1 hp hop
      exact hpo (heq ▸ List.prefix_rfl)
    have hqp : ¬ q <+: p := fun hqp => hop (hoq.trans hqp)
    have hpq : ¬ p <+: q := fun hpq => (List.prefix_or_prefix_of_prefix hpq hoq).elim hpo hop
    rw [Node.get?_set_apart hqp hpq]
    exact h.settled p n hp hn
  items p is hp := by
    obtain ⟨is', hp', hlen⟩ := h.items p is hp
    rcases Node.above_or_apart ho hw.1 hoq hp rfl with ⟨step, r, rfl⟩ | ⟨hqp, hpq⟩
    · obtain ⟨is'', hset, hlen'⟩ := Node.set_sequence is' value step r
      refine ⟨is'', ?_, hlen'.trans hlen⟩
      rw [Node.get?_set_above hp', hset]
    · exact ⟨is', (Node.get?_set_apart hqp hpq value).trans hp', hlen⟩
  entries p es hp := by
    obtain ⟨es', hp', hkeys⟩ := h.entries p es hp
    rcases Node.above_or_apart ho hw.1 hoq hp rfl with ⟨step, r, rfl⟩ | ⟨hqp, hpq⟩
    · obtain ⟨es'', hset, hkeys'⟩ := Node.set_mapping es' value step r
      refine ⟨es'', ?_, hkeys'.trans hkeys⟩
      rw [Node.get?_set_above hp', hset]
    · exact ⟨es', (Node.get?_set_apart hqp hpq value).trans hp', hkeys⟩

/-- A tree rewrites another one below each of their children. -/
theorem child (h : Rewrites root tree) {step : Step} {a b : Node}
    (ha : root.child? step = some a) (hb : tree.child? step = some b) : Rewrites a b where
  settled p n hp hn := by
    rw [← Node.get?_cons hb]
    exact h.settled _ n ((Node.get?_cons ha p).trans hp) hn
  items p is hp := by
    rw [← Node.get?_cons hb]
    exact h.items _ is ((Node.get?_cons ha p).trans hp)
  entries p es hp := by
    rw [← Node.get?_cons hb]
    exact h.entries _ es ((Node.get?_cons ha p).trans hp)

end Rewrites

/-! ### Where live texts stand -/

namespace Node

mutual

/-- A site of a node stands at or below the position that the node stands at. -/
theorem prefix_of_mem_sitesBelow : ∀ (node : Node) (position : List Step) (path : String)
    (site : Site), site ∈ node.sitesBelow position path → position <+: site.position
  | .null, _, _, _, h => by simp [sitesBelow] at h
  | .scalar tag text, position, path, site, h => by
    rw [sitesBelow] at h
    split at h
    · cases h
    · cases List.mem_singleton.1 h
      exact List.prefix_rfl
  | .sequence items, position, path, site, h => by
    rw [sitesBelow] at h
    exact prefix_of_mem_itemSites items 0 position path site h
  | .mapping entries, position, path, site, h => by
    rw [sitesBelow] at h
    exact prefix_of_mem_entrySites entries position path site h

theorem prefix_of_mem_itemSites : ∀ (items : List Node) (i : Nat) (position : List Step)
    (path : String) (site : Site), site ∈ itemSites items i position path →
    position <+: site.position
  | [], _, _, _, _, h => by simp [itemSites] at h
  | node :: rest, i, position, path, site, h => by
    rw [itemSites, List.mem_append] at h
    rcases h with h | h
    · exact (List.prefix_append position _).trans (prefix_of_mem_sitesBelow node _ _ site h)
    · exact prefix_of_mem_itemSites rest (i + 1) position path site h

theorem prefix_of_mem_entrySites : ∀ (entries : List (String × Node)) (position : List Step)
    (path : String) (site : Site), site ∈ entrySites entries position path →
    position <+: site.position
  | [], _, _, _, h => by simp [entrySites] at h
  | (key, node) :: rest, position, path, site, h => by
    rw [entrySites, List.mem_append] at h
    rcases h with h | h
    · exact (List.prefix_append position _).trans (prefix_of_mem_sitesBelow node _ _ site h)
    · exact prefix_of_mem_entrySites rest position path site h

end

mutual

/-- No site of a node with nothing pending has a live text. -/
theorem not_live_of_mem_sitesBelow : ∀ (node : Node) (position : List Step) (path : String)
    (site : Site), node.isPending = false → site ∈ node.sitesBelow position path → ¬ Live site.text
  | .null, _, _, _, _, h => by simp [sitesBelow] at h
  | .scalar tag text, position, path, site, hset, h => by
    rw [sitesBelow] at h
    split at h
    · cases h
    · next ht =>
      rw [List.mem_singleton.1 h]
      rw [isPending, scalarPending, bne_iff_ne.2 ht, Bool.true_and] at hset
      rw [Live, hset]
      exact Bool.noConfusion
  | .sequence items, position, path, site, hset, h => by
    rw [sitesBelow] at h
    exact not_live_of_mem_itemSites items 0 position path site hset h
  | .mapping entries, position, path, site, hset, h => by
    rw [sitesBelow] at h
    exact not_live_of_mem_entrySites entries position path site hset h

theorem not_live_of_mem_itemSites : ∀ (items : List Node) (i : Nat) (position : List Step)
    (path : String) (site : Site), anyPending items = false →
    site ∈ itemSites items i position path → ¬ Live site.text
  | [], _, _, _, _, _, h => by simp [itemSites] at h
  | node :: rest, i, position, path, site, hset, h => by
    rw [anyPending, Bool.or_eq_false_iff] at hset
    rw [itemSites, List.mem_append] at h
    rcases h with h | h
    · exact not_live_of_mem_sitesBelow node _ _ site hset.1 h
    · exact not_live_of_mem_itemSites rest (i + 1) position path site hset.2 h

theorem not_live_of_mem_entrySites : ∀ (entries : List (String × Node)) (position : List Step)
    (path : String) (site : Site), anyEntryPending entries = false →
    site ∈ entrySites entries position path → ¬ Live site.text
  | [], _, _, _, _, h => by simp [entrySites] at h
  | (key, node) :: rest, position, path, site, hset, h => by
    rw [anyEntryPending, Bool.or_eq_false_iff] at hset
    rw [entrySites, List.mem_append] at h
    rcases h with h | h
    · exact not_live_of_mem_sitesBelow node _ _ site hset.1 h
    · exact not_live_of_mem_entrySites rest position path site hset.2 h

end

theorem not_live_of_mem_sites {root : Node} (h : root.isPending = false) {site : Site}
    (hs : site ∈ root.sites) : ¬ Live site.text := by
  rw [sites] at hs
  split at hs
  · cases hs
  · exact not_live_of_mem_sitesBelow root _ _ site h hs

end Node

/-- **A live text stands where a scalar of the root is pending**, at its place or below it: no
other node of a tree that rewrites the root has come in from elsewhere. -/
theorem Rewrites.origin_of_mem_sitesBelow {root : Node} (hd : root.Distinct) {tree : Node}
    (h : Rewrites root tree) {position : List Step} {path : String} {site : Site}
    (hs : site ∈ tree.sitesBelow position path) (hlive : Live site.text) :
    ∃ o w, root.get? o = some w ∧ w.Waits ∧ position ++ o <+: site.position := by
  induction hd generalizing tree position path with
  | null =>
    have htree := h.settled [] .null rfl rfl
    cases htree
    simp [Node.sitesBelow] at hs
  | scalar tag text =>
    cases hpend : (Node.scalar tag text).isPending with
    | false =>
      have htree := h.settled [] _ rfl hpend
      cases htree
      exact absurd hlive (Node.not_live_of_mem_sitesBelow _ position path site hpend hs)
    | true =>
      refine ⟨[], _, rfl, ⟨rfl, hpend⟩, ?_⟩
      rw [List.append_nil]
      exact Node.prefix_of_mem_sitesBelow tree position path site hs
  | @sequence items below ih =>
    obtain ⟨items', htree, hlen⟩ := h.items [] items rfl
    cases htree
    rw [Node.sitesBelow, Node.mem_itemSites] at hs
    obtain ⟨j, item', hj', hs⟩ := hs
    rw [Nat.zero_add] at hs
    have hlt : j < items.length := by
      rw [← hlen]
      exact (List.getElem?_eq_some_iff.1 hj').1
    have hj : items[j]? = some items[j] := List.getElem?_eq_getElem hlt
    have hc : (Node.sequence items).child? (.item j) = some items[j] := hj
    have hr : Rewrites items[j] item' := h.child hc hj'
    obtain ⟨o, w, ho, hw, hpre⟩ := ih _ (List.mem_of_getElem? hj) hr hs
    refine ⟨.item j :: o, w, (Node.get?_cons hc o).trans ho, hw, ?_⟩
    rwa [List.append_assoc] at hpre
  | @mapping entries keys below ih =>
    obtain ⟨entries', htree, hkeys⟩ := h.entries [] entries rfl
    cases htree
    rw [Node.sitesBelow, Node.mem_entrySites] at hs
    obtain ⟨⟨key, value'⟩, he', hs⟩ := hs
    have hmem : key ∈ entries.map (·.1) := by
      rw [← hkeys]
      exact List.mem_map.2 ⟨_, he', rfl⟩
    obtain ⟨⟨_, value⟩, he, rfl⟩ := List.mem_map.1 hmem
    have hc' : (Node.mapping entries').child? (.key _) = some value' :=
      Node.lookup_of_mem (hkeys ▸ keys) he'
    have hc : (Node.mapping entries).child? (.key _) = some value := Node.lookup_of_mem keys he
    obtain ⟨o, w, ho, hw, hpre⟩ := ih _ he (h.child hc hc') hs
    refine ⟨_ :: o, w, (Node.get?_cons hc o).trans ho, hw, ?_⟩
    rwa [List.append_assoc] at hpre

variable {root tree : Node}

theorem Rewrites.origin_of_site (h : Rewrites root tree) (hd : root.Distinct) {site : Site}
    (hs : site ∈ tree.sites) (hlive : Live site.text) :
    ∃ o w, root.get? o = some w ∧ w.Waits ∧ o <+: site.position := by
  rw [Node.sites] at hs
  split at hs
  · cases hs
  · exact h.origin_of_mem_sitesBelow hd hs hlive

/-! ### Visits and passes -/

theorem visitSite_of_not_live (env : Environment) (state : PassState) {site : Site}
    (h : ¬ Live site.text) : visitSite env state site = .ok state := by
  have htext : (hasPlaceholder site.text || looksLikeExpression site.text) = false :=
    Bool.eq_false_iff.2 h
  rw [visitSite, resolveScalar_settled htext]
  rfl

/-- A visit leaves the tree as it is or puts a node where it visits. -/
theorem visitSite_tree {env : Environment} {state state' : PassState} {site : Site}
    (h : visitSite env state site = .ok state') :
    state'.tree = state.tree ∨ ∃ value, state'.tree = state.tree.set value site.position := by
  rw [visitSite] at h
  cases hv : resolveScalar env state.tree site.path site.text with
  | error e =>
    rw [hv] at h
    cases h
  | ok visit =>
    rw [hv] at h
    obtain ⟨replacement, blocked⟩ := visit
    cases replacement with
    | none =>
      cases h
      exact Or.inl rfl
    | some value =>
      cases h
      exact Or.inr ⟨value, rfl⟩

/-- What a fold that can fail keeps from each step to the next it keeps to its end. -/
theorem foldlM_keeps {ε α β : Type} {P : β → Prop} {f : β → α → Except ε β} {as : List α}
    (hstep : ∀ a ∈ as, ∀ b b', P b → f b a = .ok b' → P b') {b b' : β} (hb : P b)
    (h : as.foldlM f b = .ok b') : P b' := by
  induction as generalizing b with
  | nil =>
    cases h
    exact hb
  | cons a rest ih =>
    rw [List.foldlM_cons] at h
    cases hf : f b a with
    | error e =>
      rw [hf] at h
      cases h
    | ok mid =>
      rw [hf] at h
      have hmid := hstep a List.mem_cons_self b mid hb hf
      exact ih (fun a' ha' => hstep a' (List.mem_cons_of_mem _ ha')) hmid h

/-- A pass over a tree that rewrites the root leads to another one. -/
theorem Rewrites.runPass (h : Rewrites root tree) (hd : root.Distinct) {env : Environment}
    {state : PassState} (hpass : runPass env tree = .ok state) : Rewrites root state.tree := by
  refine foldlM_keeps (P := fun s : PassState => Rewrites root s.tree) ?_ h hpass
  intro site hs before after hbefore hvisit
  by_cases hlive : Live site.text
  · obtain ⟨o, w, ho, hw, hpre⟩ := h.origin_of_site hd hs hlive
    rcases visitSite_tree hvisit with heq | ⟨value, heq⟩
    · rw [heq]
      exact hbefore
    · rw [heq]
      exact hbefore.set ho hw hpre value
  · rw [visitSite_of_not_live env before hlive] at hvisit
    cases hvisit
    exact hbefore

/-- Passes end with a tree in which nothing is pending and that rewrites the root. -/
theorem Rewrites.runPasses (h : Rewrites root tree) (hd : root.Distinct) {env : Environment}
    {allowed : Int} {left done : Nat} {blocked : List String} {result : Node}
    (hok : (runPasses env allowed left done tree blocked).outcome = .ok result) :
    Rewrites root result ∧ result.isPending = false := by
  induction left generalizing tree done blocked with
  | zero => cases hok
  | succ left ih =>
    rw [Config.runPasses] at hok
    cases hpass : Config.runPass env tree with
    | error e =>
      rw [hpass] at hok
      cases hok
    | ok state =>
      rw [hpass] at hok
      dsimp only at hok
      have hstate := h.runPass hd hpass
      split at hok
      · next hfin =>
        cases hok
        have hset := (Bool.and_eq_true_iff.1 hfin).2
        rw [Bool.not_eq_true'] at hset
        exact ⟨hstate, hset⟩
      · split at hok
        · cases hok
        · exact ih hstate hok

/-! ### Trees with nothing pending -/

theorem runPass_of_settled (env : Environment) (h : tree.isPending = false) :
    runPass env tree = .ok ⟨tree, false, []⟩ := by
  have hvisits : ∀ sites : List Site, (∀ site ∈ sites, ¬ Live site.text) →
      sites.foldlM (visitSite env) ⟨tree, false, []⟩ = .ok ⟨tree, false, []⟩ := by
    intro sites hsites
    induction sites with
    | nil => rfl
    | cons site rest ih =>
      rw [List.foldlM_cons, visitSite_of_not_live env _ (hsites site List.mem_cons_self)]
      exact ih fun s hs => hsites s (List.mem_cons_of_mem _ hs)
  exact hvisits tree.sites fun site hs => Node.not_live_of_mem_sites h hs

/-- A tree with nothing pending is its own resolution, after one pass. -/
theorem resolve_of_settled (env : Environment) {allowed : Int} (hallowed : 1 ≤ allowed)
    (h : tree.isPending = false) : resolve env allowed tree = ⟨.ok tree, 1⟩ := by
  obtain ⟨left, hleft⟩ : ∃ left, allowed.toNat = left + 1 := ⟨allowed.toNat - 1, by omega⟩
  rw [resolve, hleft, runPasses, runPass_of_settled env h]
  simp [h]

/-- **Resolution rewrites only what is pending and reaches a true fixed point.** If a tree
resolves, nothing is pending in the result. Null nodes, texts tagged as strings and all else that
was not pending stand where they stood, mappings keep their keys in order, sequences their
length. Resolving the result again returns it after one pass, whatever the environment. -/
theorem resolve_rewrites_pending {root result : Node} (hd : root.Distinct) {env : Environment}
    {allowed : Int} (h : (resolve env allowed root).outcome = .ok result) :
    (∀ p n, result.get? p = some n → n.isPending = false) ∧
      Rewrites root result ∧
      (∀ p, root.get? p = some .null → result.get? p = some .null) ∧
      (∀ p text, root.get? p = some (.scalar .string text) →
        result.get? p = some (.scalar .string text)) ∧
      ∀ (env' : Environment) (allowed' : Int), 1 ≤ allowed' →
        resolve env' allowed' result = ⟨.ok result, 1⟩ := by
  obtain ⟨hrewrites, hset⟩ := (Rewrites.refl root).runPasses hd h
  refine ⟨fun p n hp => Node.settled_of_get? hset hp, hrewrites, ?_, ?_, ?_⟩
  · exact fun p hp => hrewrites.settled p .null hp rfl
  · exact fun p text hp => hrewrites.settled p _ hp rfl
  · exact fun env' allowed' hallowed => resolve_of_settled env' hallowed hset

/-- A placeholder for a number, among nodes that are not pending. -/
def sampleMixed : Node :=
  .mapping [("a", .plain "$\x7bb\x7d"), ("b", .plain "7"), ("c", .null),
    ("d", .scalar .string "$\x7ba\x7d"), ("e", .sequence [.plain "x", .plain "$\x7bb\x7d"])]

theorem sampleMixed_distinct : sampleMixed.Distinct := by
  refine .mapping (by decide) ?_
  intro e he
  simp only [List.mem_cons, List.not_mem_nil, or_false] at he
  rcases he with rfl | rfl | rfl | rfl | rfl
  · exact .scalar _ _
  · exact .scalar _ _
  · exact .null
  · exact .scalar _ _
  · refine .sequence fun item hi => ?_
    rcases List.mem_cons.1 hi with rfl | hi
    · exact .scalar _ _
    · rw [List.mem_singleton.1 hi]
      exact .scalar _ _

/-- The tagged text stands as it is although it reads like a placeholder. -/
theorem resolve_rewrites_pending_sample :
    ∃ result, (resolve (fun _ => none) 3 sampleMixed).outcome = .ok result ∧
      result.get? [.key "d"] = some (.scalar .string "$\x7ba\x7d") ∧
      result.isPending = false ∧ resolve (fun _ => some "1") 2 result = ⟨.ok result, 1⟩ := by
  have hok : (resolve (fun _ => none) 3 sampleMixed).outcome =
      .ok (.mapping [("a", .plain "7"), ("b", .plain "7"), ("c", .null),
        ("d", .scalar .string "$\x7ba\x7d"),
        ("e", .sequence [.plain "x", .plain "7"])]) := by
    rfl
  obtain ⟨hset, _, _, htagged, hagain⟩ := resolve_rewrites_pending sampleMixed_distinct hok
  exact ⟨_, hok, htagged [.key "d"] _ rfl, hset [] _ rfl, hagain _ 2 (by decide)⟩

end EnergyPlan.Config
