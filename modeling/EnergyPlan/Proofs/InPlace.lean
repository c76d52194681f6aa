/-
# Fields are expanded in place

Expanding a configuration puts what the value of each indexed field expands to where the value
stood. Everything apart from the fields stays, and the mappings and sequences above them keep
their keys, the order of them and their length. No other configuration is like that, since one
whose mappings have no key twice is known by what stands at each position.

The fields are looked up while others are expanded already. No field stands at or below another
one, so the configuration as it has become has the same fields, and those still to come have
their values as before.

The expansion fails exactly if some field cannot be expanded, with the error of the first one.

Key definitions: `ExpandsFields`.
Key theorems: `expandable_eq_error_iff`, `fieldSites_midway`, `ExpandsFields.unique`,
`broadcastModel_in_place`.
-/
import EnergyPlan.Proofs.Resolution.Standing
import EnergyPlan.Proofs.Shorthand.Replaced

namespace EnergyPlan.Config.Node

/-- Entries with the same keys, none of them twice, are told apart by their values. -/
theorem eq_of_lookup {as bs : List (String × Node)} (hn : (as.map (·.1)).Nodup)
    (hkeys : as.map (·.1) = bs.map (·.1))
    (h : ∀ key ∈ as.map (·.1), as.lookup key = bs.lookup key) : as = bs := by
  induction as generalizing bs with
  | nil => exact (List.map_eq_nil_iff.1 hkeys.symm).symm
  | cons a as ih =>
    cases bs with
    | nil => cases hkeys
    | cons b bs =>
      obtain ⟨key, value⟩ := a
      obtain ⟨key', value'⟩ := b
      rw [List.map_cons, List.map_cons, List.cons.injEq] at hkeys
      obtain ⟨rfl, hkeys⟩ := hkeys
      rw [List.map_cons, List.nodup_cons] at hn
      have hvalue := h key List.mem_cons_self
      rw [List.lookup_cons_self, List.lookup_cons_self, Option.some.injEq] at hvalue
      rw [hvalue, ih hn.2 hkeys fun other hm => ?_]
      have hne : other ≠ key := fun heq => hn.1 (heq ▸ hm)
      have hother := h other (List.mem_cons_of_mem _ hm)
      rwa [List.lookup_cons, List.lookup_cons, beq_false_of_ne hne] at hother

end EnergyPlan.Config.Node

namespace EnergyPlan.Fields

open Config Text

/-- One configuration is another one, the root, with its fields expanded in place. -/
structure ExpandsFields (sets : MemberSets) (root result : Node) : Prop where
  /-- Where a field stands, there is what its value expands to; a null value stays. -/
  fields : ∀ site ∈ fieldSites root, ∃ expanded,
    broadcast sets site.spec.dimensions site.path site.value = .ok expanded ∧
      result.get? site.position = some expanded
  /-- Apart from the fields nothing has changed. -/
  others : ∀ p, (∀ site ∈ fieldSites root, Node.Apart site.position p) →
    result.get? p = root.get? p
  /-- Outside the fields sequences keep their length. -/
  items : ∀ p is, root.get? p = some (.sequence is) →
    (∀ site ∈ fieldSites root, ¬ site.position <+: p) →
    ∃ is', result.get? p = some (.sequence is') ∧ is'.length = is.length
  /-- Outside the fields mappings keep their keys and the order of them. -/
  entries : ∀ p es, root.get? p = some (.mapping es) →
    (∀ site ∈ fieldSites root, ¬ site.position <+: p) →
    ∃ es', result.get? p = some (.mapping es') ∧ es'.map (·.1) = es.map (·.1)

variable {sets : MemberSets} {root : Node}

/-! ### The first field that cannot be expanded -/

theorem expandable_eq_ok_iff {sites : List FieldSite} : expandable sets sites = .ok () ↔
    ∀ site ∈ sites, ∃ expanded,
      broadcast sets site.spec.dimensions site.path site.value = .ok expanded := by
  constructor
  · exact fun h site hs => ⟨_, broadcast_of_expandable h hs⟩
  · intro h
    induction sites with
    | nil => rfl
    | cons site rest ih =>
      obtain ⟨expanded, hb⟩ := h site List.mem_cons_self
      rw [expandable_cons, hb]
      exact ih fun other ho => h other (List.mem_cons_of_mem _ ho)

/-- The error is that of the first field that cannot be expanded. -/
theorem expandable_eq_error_iff {sites : List FieldSite} {error : BroadcastError} :
    expandable sets sites = .error error ↔ ∃ before site after,
      sites = before ++ site :: after ∧
      (∀ other ∈ before, ∃ expanded,
        broadcast sets other.spec.dimensions other.path other.value = .ok expanded) ∧
      broadcast sets site.spec.dimensions site.path site.value = .error error := by
  constructor
  · intro h
    induction sites with
    | nil => cases h
    | cons site rest ih =>
      rw [expandable_cons] at h
      cases hb : broadcast sets site.spec.dimensions site.path site.value with
      | error e =>
        rw [hb] at h
        cases h
        exact ⟨[], site, rest, rfl, fun _ hm => absurd hm List.not_mem_nil, hb⟩
      | ok expanded =>
        rw [hb] at h
        obtain ⟨before, first, after, rfl, hbefore, hfirst⟩ := ih h
        refine ⟨site :: before, first, after, rfl, ?_, hfirst⟩
        exact List.forall_mem_cons.2 ⟨⟨expanded, hb⟩, hbefore⟩
  · rintro ⟨before, site, after, rfl, hbefore, hsite⟩
    induction before with
    | nil =>
      rw [List.nil_append, expandable_cons, hsite]
      rfl
    | cons first before ih =>
      obtain ⟨⟨expanded, hb⟩, hbefore⟩ := List.forall_mem_cons.1 hbefore
      rw [List.cons_append, expandable_cons, hb]
      exact ih hbefore

/-! ### While fields are expanded -/

/-- **The fields are the same while they are expanded**: those still to come have their values as
before. -/
theorem fieldSites_midway {before after : List FieldSite} {midway : Node}
    (hsites : fieldSites root = before ++ after)
    (h : before.foldlM (broadcastSite sets) root = .ok midway) :
    fieldSites midway = before.map (FieldSite.readIn midway) ++ after := by
  obtain ⟨_, hfill⟩ := foldlM_broadcastSite_eq_ok_iff.1 h
  have halike : Alike root midway := by
    rw [hfill]
    refine alike_fill fun a ha => ?_
    obtain ⟨site, hs, rfl⟩ := List.mem_map.1 ha
    exact ⟨site, hsites ▸ List.mem_append_left _ hs, rfl⟩
  rw [halike.fieldSites, hsites, List.map_append]
  refine congrArg _ ((List.map_congr_left fun site hs => ?_).trans (List.map_id after))
  -- what was replaced stands apart from a field still to come
  have hapart := pairwise_apart_fieldSites root
  rw [hsites, List.pairwise_append] at hapart
  have hstay : midway.get? site.position = root.get? site.position := by
    rw [hfill]
    refine Node.get?_fill_apart fun a ha => ?_
    obtain ⟨other, ho, rfl⟩ := List.mem_map.1 ha
    exact hapart.2.2 other ho site hs
  have hmem : site ∈ fieldSites root := hsites ▸ List.mem_append_right _ hs
  refine FieldSite.readIn_eq ?_
  rw [FieldSite.readIn, hstay, get?_of_mem_fieldSites hmem]
  rfl

/-! ### One configuration is the expanded one -/

theorem out_of_replacements {sites : List FieldSite} {p : List Step}
    (h : ∀ site ∈ sites, ¬ site.position <+: p) :
    ∀ a ∈ sites.map (replacement sets), ¬ a.1 <+: p := by
  intro a ha
  obtain ⟨site, hs, rfl⟩ := List.mem_map.1 ha
  exact h site hs

/-- Replacing the values of all fields by what they expand to expands the configuration in
place. -/
theorem expandsFields_fill (h : expandable sets (fieldSites root) = .ok ()) :
    ExpandsFields sets root (root.fill ((fieldSites root).map (replacement sets))) where
  fields site hs :=
    ⟨expansion sets site, broadcast_of_expandable h hs,
      Node.get?_fill_of_mem (compatible_replacements sets root)
        (List.mem_map.2 ⟨site, hs, rfl⟩) (get?_of_mem_fieldSites hs)⟩
  others p hp := by
    refine Node.get?_fill_apart fun a ha => ?_
    obtain ⟨site, hs, rfl⟩ := List.mem_map.1 ha
    exact hp site hs
  items p is hp hout := by
    have hset : ∀ node value step r, (∃ is', node = Node.sequence is' ∧ is'.length = is.length) →
        ∃ is', node.set value (step :: r) = .sequence is' ∧ is'.length = is.length := by
      rintro _ value step r ⟨is', rfl, hlen⟩
      obtain ⟨is'', hset, hlen'⟩ := Node.set_sequence is' value step r
      exact ⟨is'', hset, hlen'.trans hlen⟩
    obtain ⟨_, hafter, is', rfl, hlen⟩ :=
      Node.exists_get?_fill _ hset (out_of_replacements hout) hp ⟨is, rfl, rfl⟩
    exact ⟨is', hafter, hlen⟩
  entries p es hp hout := by
    have hset : ∀ node value step r,
        (∃ es', node = Node.mapping es' ∧ es'.map (·.1) = es.map (·.1)) →
        ∃ es', node.set value (step :: r) = .mapping es' ∧ es'.map (·.1) = es.map (·.1) := by
      rintro _ value step r ⟨es', rfl, hkeys⟩
      obtain ⟨es'', hset, hkeys'⟩ := Node.set_mapping es' value step r
      exact ⟨es'', hset, hkeys'.trans hkeys⟩
    obtain ⟨_, hafter, es', rfl, hkeys⟩ :=
      Node.exists_get?_fill _ hset (out_of_replacements hout) hp ⟨es, rfl, rfl⟩
    exact ⟨es', hafter, hkeys⟩

namespace ExpandsFields

variable {a b : Node}

/-- A node with nothing below it stands apart from the fields that it is not in. -/
theorem apart_of_leaf {n : Node} {p : List Step} (hp : root.get? p = some n)
    (hleaf : ∀ step, n.child? step = none)
    (hout : ∀ site ∈ fieldSites root, ¬ site.position <+: p) :
    ∀ site ∈ fieldSites root, Node.Apart site.position p := by
  refine fun site hs => ⟨hout site hs, ?_⟩
  rintro ⟨r, hr⟩
  have hvalue := get?_of_mem_fieldSites hs
  cases r with
  | nil =>
    rw [List.append_nil] at hr
    exact hout site hs (hr ▸ List.prefix_rfl)
  | cons step r =>
    rw [← hr, Node.get?_append, hp, Option.bind_some, Node.get?, hleaf] at hvalue
    cases hvalue

/-- Two expanded configurations agree at and below every field, and so everywhere if they do
outside the fields. -/
theorem get?_eq_of_outside (h : ExpandsFields sets root a) (h' : ExpandsFields sets root b)
    {p : List Step} (hp : (∀ site ∈ fieldSites root, ¬ site.position <+: p) →
      a.get? p = b.get? p) : a.get? p = b.get? p := by
  by_cases hout : ∀ site ∈ fieldSites root, ¬ site.position <+: p
  · exact hp hout
  · push Not at hout
    obtain ⟨site, hs, r, rfl⟩ := hout
    obtain ⟨expanded, hb, ha⟩ := h.fields site hs
    obtain ⟨expanded', hb', ha'⟩ := h'.fields site hs
    rw [hb, Except.ok.injEq] at hb'
    rw [Node.get?_append, Node.get?_append, ha, ha', hb']

/-- Two expanded configurations agree wherever a node of the root stands: its leaves stay, and
above them there are the same children. -/
theorem get?_eq (h : ExpandsFields sets root a) (h' : ExpandsFields sets root b) {n : Node}
    (hd : n.Distinct) {p : List Step} (hp : root.get? p = some n) : a.get? p = b.get? p := by
  induction hd generalizing p with
  | null =>
    refine h.get?_eq_of_outside h' fun hout => ?_
    have hapart := apart_of_leaf hp (fun step => by cases step <;> rfl) hout
    rw [h.others p hapart, h'.others p hapart]
  | scalar tag text =>
    refine h.get?_eq_of_outside h' fun hout => ?_
    have hapart := apart_of_leaf hp (fun step => by cases step <;> rfl) hout
    rw [h.others p hapart, h'.others p hapart]
  | @sequence items _ ih =>
    refine h.get?_eq_of_outside h' fun hout => ?_
    obtain ⟨as, ha, hlen⟩ := h.items p items hp hout
    obtain ⟨bs, hb, hlen'⟩ := h'.items p items hp hout
    rw [ha, hb]
    refine congrArg (some ∘ Node.sequence) (List.ext_getElem? fun i => ?_)
    cases hi : items[i]? with
    | none =>
      rw [List.getElem?_eq_none_iff] at hi
      rw [List.getElem?_eq_none (hlen ▸ hi), List.getElem?_eq_none (hlen' ▸ hi)]
    | some item =>
      have hitem : root.get? (p ++ [.item i]) = some item := by
        rw [Node.get?_append, hp, Option.bind_some, Node.get?_singleton]
        exact hi
      have hsame := ih item (List.mem_of_getElem? hi) hitem
      rwa [Node.get?_append, Node.get?_append, ha, hb, Option.bind_some, Option.bind_some,
        Node.get?_singleton, Node.get?_singleton] at hsame
  | @mapping entries keys _ ih =>
    refine h.get?_eq_of_outside h' fun hout => ?_
    obtain ⟨as, ha, hkeys⟩ := h.entries p entries hp hout
    obtain ⟨bs, hb, hkeys'⟩ := h'.entries p entries hp hout
    rw [ha, hb]
    refine congrArg (some ∘ Node.mapping)
      (Node.eq_of_lookup (hkeys ▸ keys) (hkeys.trans hkeys'.symm) fun key hkey => ?_)
    rw [hkeys, List.mem_map] at hkey
    obtain ⟨⟨key, value⟩, hm, rfl⟩ := hkey
    have hentry : root.get? (p ++ [.key key]) = some value := by
      rw [Node.get?_append, hp, Option.bind_some, Node.get?_singleton]
      exact Node.lookup_of_mem keys hm
    have hsame := ih _ hm hentry
    rwa [Node.get?_append, Node.get?_append, ha, hb, Option.bind_some, Option.bind_some,
      Node.get?_singleton, Node.get?_singleton] at hsame

/-- **There is one expanded configuration** at most. -/
theorem unique (h : ExpandsFields sets root a) (h' : ExpandsFields sets root b)
    (hd : root.Distinct) : a = b :=
  Option.some.inj (h.get?_eq h' hd rfl : a.get? [] = b.get? [])

end ExpandsFields

/-- A configuration in which all fields are expanded in place is what expanding them leads to. -/
theorem ExpandsFields.broadcastModel {result : Node} (h : ExpandsFields sets root result)
    (hd : root.Distinct) : Fields.broadcastModel sets root = .ok result := by
  have hexp : expandable sets (fieldSites root) = .ok () := by
    refine expandable_eq_ok_iff.2 fun site hs => ?_
    obtain ⟨expanded, hb, _⟩ := h.fields site hs
    exact ⟨expanded, hb⟩
  exact foldlM_broadcastSite_eq_ok_iff.2 ⟨hexp, h.unique (expandsFields_fill hexp) hd⟩

/-- **Expanding a configuration touches only its indexed fields.** They are the fields with
dimensions of the kind of each mapping: the elements of the lists, the operating modes of
technologies, and the configuration itself. It succeeds with the configuration that has them
expanded in place, and fails exactly if the value of one of them cannot be expanded, with the
error of the first one. While it is under way the fields stay the same, and those still to come
have their values as before. -/
theorem broadcastModel_in_place (sets : MemberSets) (root : Node) :
    (∀ site, site ∈ fieldSites root ↔ ∃ path kind entity,
      Owns root site.owner path kind entity ∧ site.spec ∈ kind.indexedFields ∧
        entity.entry? site.spec.name = some site.value ∧
        site.path = childPath path site.spec.name) ∧
    (∀ result, broadcastModel sets root = .ok result → ExpandsFields sets root result) ∧
    (root.Distinct → ∀ result, ExpandsFields sets root result →
      broadcastModel sets root = .ok result) ∧
    (∀ error, broadcastModel sets root = .error error ↔ ∃ before site after,
      fieldSites root = before ++ site :: after ∧
      (∀ other ∈ before, ∃ expanded,
        broadcast sets other.spec.dimensions other.path other.value = .ok expanded) ∧
      broadcast sets site.spec.dimensions site.path site.value = .error error) ∧
    ∀ before after midway, fieldSites root = before ++ after →
      before.foldlM (broadcastSite sets) root = .ok midway →
      fieldSites midway = before.map (FieldSite.readIn midway) ++ after := by
  refine ⟨fun site => mem_fieldSites_iff, fun result h => ?_,
    fun hd result h => h.broadcastModel hd, fun error => ?_, fun _ _ _ => fieldSites_midway⟩
  · obtain ⟨hexp, rfl⟩ := foldlM_broadcastSite_eq_ok_iff.1 h
    exact expandsFields_fill hexp
  · exact foldlM_broadcastSite_eq_error_iff.trans expandable_eq_error_iff

/-- A technology with a cost for all keys and one that is null, a rate for one region, and an entry
that has the name of a field but does not belong to an entity. -/
def samplePlan : Node :=
  .mapping [
    ("technologies", .sequence [.mapping [
      ("capex", .mapping [("*", .plain "6")]),
      ("id", .plain "boiler"),
      ("opex_fixed", .null)]]),
    ("discount_rate", .mapping [("R2", .plain "0.1")]),
    ("capex", .plain "3")]

theorem samplePlan_distinct : samplePlan.Distinct := by
  have leaf : ∀ key text, (Node.mapping [(key, .plain text)]).Distinct := fun key text =>
    .mapping (List.nodup_singleton key) (List.forall_mem_singleton.2 (.scalar _ _))
  refine .mapping (by decide) ?_
  refine List.forall_mem_cons.2 ⟨.sequence (List.forall_mem_singleton.2 (.mapping (by decide) ?_)),
    List.forall_mem_cons.2 ⟨leaf _ _, List.forall_mem_singleton.2 (.scalar _ _)⟩⟩
  exact List.forall_mem_cons.2 ⟨leaf _ _, List.forall_mem_cons.2 ⟨.scalar _ _,
    List.forall_mem_singleton.2 .null⟩⟩

/-- The cost is listed for each region and year, before the id as it was. -/
theorem broadcastModel_in_place_sample :
    ∃ result, broadcastModel sampleSets samplePlan = .ok result ∧
      (∃ entries, result.get? [.key "technologies", .item 0] = some (.mapping entries) ∧
        entries.map (·.1) = ["capex", "id", "opex_fixed"]) ∧
      result.get? [.key "technologies", .item 0, .key "capex", .key "R1", .key "2021"] =
        some (.plain "6") ∧
      ∀ other, ExpandsFields sampleSets samplePlan other → other = result := by
  obtain ⟨_, hforward, hbackward, _, _⟩ := broadcastModel_in_place sampleSets samplePlan
  have hok : broadcastModel sampleSets samplePlan = .ok (.mapping [
      ("technologies", .sequence [.mapping [
        ("capex", .mapping [
          ("R1", .mapping [("2020", .plain "6"), ("2021", .plain "6")]),
          ("R2", .mapping [("2020", .plain "6"), ("2021", .plain "6")])]),
        ("id", .plain "boiler"),
        ("opex_fixed", .null)]]),
      ("discount_rate", .mapping [("R2", .plain "0.1")]),
      ("capex", .plain "3")]) := by rfl
  have hentries := (hforward _ hok).entries [.key "technologies", .item 0] _ rfl (by
    decide +kernel)
  obtain ⟨es', hes', hkeys⟩ := hentries
  refine ⟨_, hok, ⟨es', hes', hkeys⟩, rfl, fun other h => ?_⟩
  exact Except.ok.inj ((hbackward samplePlan_distinct other h).symm.trans hok)

end EnergyPlan.Fields
