/-
# Fields that are expanded beforehand

A configuration some of whose fields are expanded beforehand is like the one it comes from
but for the values there. An expanded value has declared members as keys, in the order of the
dimensions, so inference adds nothing for it, and its expansion is itself. So the same members
are inferred, the expansion of each field comes to the same, and the expanded configurations
are equal: every replacement made beforehand is made again.

Key definitions: `expansion`, `replacement`, `Foreseen`.
Key theorems: `foldlM_broadcastSite`, `isPending_broadcast`, `Foreseen.inferSets`,
`Foreseen.broadcastModel`.
-/
import EnergyPlan.Proofs.Shorthand.Declared
import EnergyPlan.Proofs.Shorthand.Outline

namespace EnergyPlan.Fields

open Config Text

variable {sets : MemberSets}

/-! ### Expansions as replacements -/

/-- What the value of a site expands to; a value that cannot be expanded stays. -/
def expansion (sets : MemberSets) (site : FieldSite) : Node :=
  match broadcast sets site.spec.dimensions site.path site.value with
  | .ok expanded => expanded
  | .error _ => site.value

/-- The replacement of a site's value by its expansion. -/
def replacement (sets : MemberSets) (site : FieldSite) : List Step × Node :=
  (site.position, expansion sets site)

theorem compatible_replacements (sets : MemberSets) (root : Node) :
    Node.Compatible ((fieldSites root).map (replacement sets)) := by
  intro a ha b hb
  obtain ⟨site, hs, rfl⟩ := List.mem_map.1 ha
  obtain ⟨site', hs', rfl⟩ := List.mem_map.1 hb
  rcases eq_or_apart hs hs' with rfl | hapart
  · exact Or.inl rfl
  · exact Or.inr hapart

/-- Whether the values of all sites can be expanded. -/
def expandable (sets : MemberSets) (sites : List FieldSite) : Except BroadcastError Unit :=
  sites.forM fun site => do
    let _ ← broadcast sets site.spec.dimensions site.path site.value

theorem expandable_cons (sets : MemberSets) (site : FieldSite) (rest : List FieldSite) :
    expandable sets (site :: rest) =
      (broadcast sets site.spec.dimensions site.path site.value).bind fun _ =>
        expandable sets rest := by
  unfold expandable
  rw [List.forM_eq_forM, List.forM_cons]
  cases broadcast sets site.spec.dimensions site.path site.value <;> rfl

/-- **Expanding sites replaces their values**, unless one of them cannot be expanded. -/
theorem foldlM_broadcastSite (sets : MemberSets) (sites : List FieldSite) (root : Node) :
    sites.foldlM (broadcastSite sets) root =
      (expandable sets sites).map fun _ => root.fill (sites.map (replacement sets)) := by
  induction sites generalizing root with
  | nil => rfl
  | cons site rest ih =>
    rw [List.foldlM_cons, broadcastSite, expandable_cons, List.map_cons, Node.fill_cons,
      replacement, expansion]
    cases broadcast sets site.spec.dimensions site.path site.value with
    | error e => rfl
    | ok expanded => exact ih (root.set expanded site.position)

theorem foldlM_broadcastSite_eq_ok_iff {sites : List FieldSite} {root result : Node} :
    sites.foldlM (broadcastSite sets) root = .ok result ↔
      expandable sets sites = .ok () ∧ result = root.fill (sites.map (replacement sets)) := by
  rw [foldlM_broadcastSite]
  cases expandable sets sites with
  | error e => exact ⟨fun h => (nomatch h), fun h => (nomatch h.1)⟩
  | ok _ => exact ⟨fun h => ⟨rfl, (Except.ok.inj h).symm⟩, fun h => congrArg Except.ok h.2.symm⟩

theorem foldlM_broadcastSite_eq_error_iff {sites : List FieldSite} {root : Node}
    {error : BroadcastError} : sites.foldlM (broadcastSite sets) root = .error error ↔
      expandable sets sites = .error error := by
  rw [foldlM_broadcastSite]
  cases expandable sets sites with
  | error e => exact ⟨fun h => congrArg Except.error (Except.error.inj h), fun h => h ▸ rfl⟩
  | ok _ => exact ⟨fun h => (nomatch h), fun h => (nomatch h)⟩

theorem broadcast_of_expandable {sites : List FieldSite} (h : expandable sets sites = .ok ())
    {site : FieldSite} (hs : site ∈ sites) :
    broadcast sets site.spec.dimensions site.path site.value = .ok (expansion sets site) := by
  induction sites with
  | nil => cases hs
  | cons first rest ih =>
    rw [expandable_cons] at h
    cases hb : broadcast sets first.spec.dimensions first.path first.value with
    | error e =>
      rw [hb] at h
      cases h
    | ok expanded =>
      rw [hb] at h
      rcases List.mem_cons.1 hs with rfl | hs
      · rw [expansion, hb]
      · exact ih h hs

/-! ### Expansion leaves nothing pending -/

mutual

theorem settled_of_mem_scalars : ∀ (node : Node) (leaf : List String × Node),
    node.isPending = false → leaf ∈ node.scalars → leaf.2.isPending = false
  | .null, _, _, h => by simp [Node.scalars] at h
  | .scalar tag text, leaf, hset, h => by
    rw [Node.scalars, List.mem_singleton] at h
    rw [h]
    exact hset
  | .sequence _, _, _, h => by simp [Node.scalars] at h
  | .mapping entries, leaf, hset, h =>
    settled_of_mem_entryScalars entries leaf hset (by rwa [Node.scalars] at h)

theorem settled_of_mem_entryScalars : ∀ (entries : List (String × Node))
    (leaf : List String × Node), Node.anyEntryPending entries = false →
    leaf ∈ Node.entryScalars entries → leaf.2.isPending = false
  | [], _, _, h => by simp [Node.entryScalars] at h
  | (key, node) :: rest, leaf, hset, h => by
    rw [Node.anyEntryPending, Bool.or_eq_false_iff] at hset
    rw [Node.entryScalars, List.mem_append, List.mem_map] at h
    rcases h with ⟨below, hb, rfl⟩ | h
    · exact settled_of_mem_scalars node below hset.1 hb
    · exact settled_of_mem_entryScalars rest leaf hset.2 h

end

theorem isPending_expand {labels : List (List String)} {position : Nat} {es : List Entry}
    (h : ∀ e ∈ es, e.value.isPending = false) :
    (expand position labels es).isPending = false := by
  induction labels generalizing position es with
  | nil =>
    rw [expand]
    cases hw : winner? es with
    | none => rfl
    | some w => exact h w (winner?_mem hw)
  | cons ls rest ih =>
    rw [expand, Node.isPending, Node.anyEntryPending_eq_any, List.any_eq_false]
    intro entry hentry
    obtain ⟨l, _, hl⟩ := List.mem_filterMap.1 hentry
    obtain ⟨_, hl⟩ := Option.ite_none_left_eq_some.1 hl
    rw [← Option.some.inj hl, Bool.not_eq_true]
    exact ih fun e he => h e (List.mem_of_mem_filter he)

/-- What a value with nothing pending expands to has nothing pending. -/
theorem isPending_broadcast {dimensions : List Dimension} {path : String} {value result : Node}
    (hd : dimensions ≠ []) (hv : value.isPending = false)
    (h : broadcast sets dimensions path value = .ok result) : result.isPending = false := by
  by_cases hs : value.scalars = []
  · rcases broadcast_of_no_scalars hd hs h with rfl | rfl
    · rfl
    · rfl
  · obtain ⟨positions, labels, _, _, _, rfl⟩ := broadcast_eq_ok hd hs h
    refine isPending_expand fun e he => ?_
    obtain ⟨leaf, hleaf, rfl⟩ := List.mem_map.1 he
    exact settled_of_mem_scalars value leaf hv hleaf

/-! ### Expanded values add nothing -/

/-- A value of one level at most is aligned if there is a dimension. -/
theorem exists_alignLevels_of_length_le {dimensions : List Dimension} {value : Node}
    (hd : dimensions ≠ []) (hlen : (levelKeys value).length ≤ 1) (path : String) :
    ∃ positions, alignLevels sets dimensions path value = .ok positions := by
  have hall : freePositions dimensions [] = List.range dimensions.length :=
    List.filter_eq_self.2 fun _ _ => rfl
  obtain ⟨ps, hps⟩ : ∃ ps, chooseAll sets dimensions [] (levelKeys value) = some ps := by
    rw [chooseAll_isSome_iff, hall, List.length_range]
    exact Nat.le_trans hlen (List.length_pos_of_ne_nil hd)
  exact ⟨ps, by simp only [alignLevels, hps]⟩

/-- An expanded value is aligned over the members, and its keys are members. -/
theorem keysIn_of_expanded {dimensions : List Dimension} {value : Node} (hd : dimensions ≠ [])
    (hstar : ∀ d, wildcard ∉ sets.members d) (h : IsExpanded sets dimensions value) :
    KeysIn sets.members sets dimensions value ∧
      ∀ path, ∃ positions, alignLevels sets dimensions path value = .ok positions := by
  rcases h with rfl | rfl | h
  · refine ⟨fun path positions _ level p keys d _ hlevel => ?_,
      exists_alignLevels_of_length_le hd (Nat.zero_le 1)⟩
    cases hlevel
  · refine ⟨fun path positions _ level p keys d _ hlevel hd key hk => ?_,
      exists_alignLevels_of_length_le hd (Nat.le_refl 1)⟩
    cases level with
    | zero =>
      cases hlevel
      cases hk
    | succ level => cases hlevel
  · have hlevels := h.levels fun d _ => hstar d
    refine ⟨fun path positions hp level p keys d hpos hlevel hd key hk => ?_,
      fun path => ⟨_, alignLevels_of_full h (fun d _ => hstar d) path⟩⟩
    rw [alignLevels_of_full h (fun d _ => hstar d) path, Except.ok.injEq] at hp
    subst hp
    have hlt : level < dimensions.length := by
      have hlen := (List.getElem?_eq_some_iff.1 hpos).1
      simpa using hlen
    rw [List.getElem?_range hlt, Option.some.injEq] at hpos
    subst hpos
    obtain ⟨hl, rfl⟩ := List.getElem?_eq_some_iff.1 hlevel
    have hfit := (List.forall₂_iff_get.1 hlevels).2 level hlt hl
    rw [List.getElem?_eq_getElem hlt, Option.some.injEq] at hd
    subst hd
    exact hfit.2 key hk

/-! ### A configuration with some fields expanded -/

/-- A configuration, the members inferred from it, and some of its sites with declared keys whose
values are expanded beforehand. -/
structure Foreseen {R : Type} (time : TimeStructure R) (sets : MemberSets) (root : Node)
    (chosen : List FieldSite) (root' : Node) : Prop where
  settled : root.isPending = false
  inferred : inferSets root time = .ok sets
  no_wildcard : ∀ d, wildcard ∉ sets.members d
  declared : ∀ site ∈ fieldSites root, KeysIn sets.declared sets site.spec.dimensions site.value
  sites : ∀ site ∈ chosen, site ∈ fieldSites root
  expanded : chosen.foldlM (broadcastSite sets) root = .ok root'

namespace Foreseen

variable {R : Type} {time : TimeStructure R} {root root' : Node} {chosen : List FieldSite}
  {site : FieldSite}

theorem expandable (h : Foreseen time sets root chosen root') :
    Fields.expandable sets chosen = .ok () :=
  (foldlM_broadcastSite_eq_ok_iff.1 h.expanded).1

theorem eq_fill (h : Foreseen time sets root chosen root') :
    root' = root.fill (chosen.map (replacement sets)) :=
  (foldlM_broadcastSite_eq_ok_iff.1 h.expanded).2

theorem alike (h : Foreseen time sets root chosen root') : Alike root root' := by
  rw [h.eq_fill]
  refine alike_fill fun a ha => ?_
  obtain ⟨site, hs, rfl⟩ := List.mem_map.1 ha
  exact ⟨site, h.sites site hs, rfl⟩

/-- Where a field stands its value stands, or what it expands to. -/
theorem value (h : Foreseen time sets root chosen root') (hs : site ∈ Fields.fieldSites root) :
    (site.readIn root').value = site.value ∨
      (site.readIn root').value = expansion sets site ∧
        broadcast sets site.spec.dimensions site.path site.value = .ok (expansion sets site) := by
  have hcompat := compatible_replacements sets root
  have hsub : chosen.map (replacement sets) ⊆
      (Fields.fieldSites root).map (replacement sets) := List.map_subset _ h.sites
  have hin : replacement sets site ∈ (Fields.fieldSites root).map (replacement sets) :=
    List.mem_map.2 ⟨site, hs, rfl⟩
  rw [FieldSite.readIn, h.eq_fill]
  rcases Node.get?_fill hcompat hsub hin (get?_of_mem_fieldSites hs) with hold | ⟨hm, hnew⟩
  · refine Or.inl ?_
    dsimp only [replacement] at hold
    rw [hold]
    rfl
  · obtain ⟨site', hs', heq⟩ := List.mem_map.1 hm
    have hsame : site' = site := by
      rcases eq_or_apart (h.sites site' hs') hs with rfl | hapart
      · rfl
      · have hpos : site'.position = site.position := congrArg Prod.fst heq
        rw [hpos] at hapart
        exact absurd List.prefix_rfl hapart.1
    subst hsame
    refine Or.inr ⟨?_, broadcast_of_expandable h.expandable hs'⟩
    dsimp only [replacement] at hnew
    rw [hnew]
    rfl

theorem members_declared (h : Foreseen time sets root chosen root') :
    sets = declareIdentifiers root time.sets :=
  (declared_of_inferSets h.inferred h.declared).1

theorem keysIn (h : Foreseen time sets root chosen root') (hs : site ∈ Fields.fieldSites root) :
    KeysIn sets.members sets site.spec.dimensions site.value := by
  have hall : sets.AllDeclared :=
    h.members_declared ▸ allDeclared_declareIdentifiers root (allDeclared_sets time)
  intro path positions hp level p keys d hpos hlevel hd key hk
  rw [← hall.declared_eq]
  exact h.declared site hs path positions hp level p keys d hpos hlevel hd key hk

theorem expanded_value (h : Foreseen time sets root chosen root')
    (hs : site ∈ Fields.fieldSites root)
    (hb : broadcast sets site.spec.dimensions site.path site.value = .ok (expansion sets site)) :
    IsExpanded sets site.spec.dimensions (expansion sets site) :=
  expanded_of_broadcast (dimensions_ne_nil hs) (h.keysIn hs) hb

/-- **The same members are inferred.** -/
theorem inferSets (h : Foreseen time sets root chosen root') :
    Fields.inferSets root' time = .ok sets := by
  obtain ⟨hsets, hstay⟩ := declared_of_inferSets h.inferred h.declared
  refine inferSets_of_unchanged ?_ fun site' hs' => ?_
  · rw [declareIdentifiers, ← h.alike.identifiers]
    exact hsets
  · rw [h.alike.fieldSites] at hs'
    obtain ⟨site, hs, rfl⟩ := List.mem_map.1 hs'
    rcases h.value hs with hold | ⟨hnew, hb⟩
    · rw [FieldSite.readIn_eq hold]
      exact hstay site hs
    · obtain ⟨hkeys, halign⟩ := keysIn_of_expanded (dimensions_ne_nil hs) h.no_wildcard
        (h.expanded_value hs hb)
      refine inferField_of_keysIn ?_ fun _ => ?_
      · rw [hnew]
        exact hkeys
      · rw [hnew]
        exact halign _

/-- The value of a field expands to what it expanded to before. -/
theorem broadcast_readIn (h : Foreseen time sets root chosen root')
    (hs : site ∈ Fields.fieldSites root) :
    broadcast sets site.spec.dimensions site.path (site.readIn root').value =
      broadcast sets site.spec.dimensions site.path site.value := by
  rcases h.value hs with hold | ⟨hnew, hb⟩
  · rw [hold]
  · rw [hnew, hb]
    exact broadcast_of_expanded (dimensions_ne_nil hs) (fun d _ => h.no_wildcard d)
      (h.expanded_value hs hb) site.path

/-- **The expanded configuration is the same**, and so is the failure to expand. -/
theorem broadcastModel (h : Foreseen time sets root chosen root') :
    Fields.broadcastModel sets root' = Fields.broadcastModel sets root := by
  have hexpandable : ∀ sites : List FieldSite, (∀ site ∈ sites, site ∈ Fields.fieldSites root) →
      Fields.expandable sets (sites.map (FieldSite.readIn root')) =
        Fields.expandable sets sites := by
    intro sites hsites
    induction sites with
    | nil => rfl
    | cons site rest ih =>
      have hfirst := h.broadcast_readIn (hsites site List.mem_cons_self)
      have hrest := ih fun s hs => hsites s (List.mem_cons_of_mem _ hs)
      rw [List.map_cons, expandable_cons, expandable_cons, hrest]
      exact congrArg (Except.bind · fun _ => Fields.expandable sets rest) hfirst
  have hreplacements : ((Fields.fieldSites root).map (FieldSite.readIn root')).map
      (replacement sets) = (Fields.fieldSites root).map (replacement sets) := by
    rw [List.map_map]
    refine List.map_congr_left fun site hs => congrArg (Prod.mk site.position) ?_
    rcases h.value hs with hold | ⟨_, hb⟩
    · rw [FieldSite.readIn_eq hold]
    · have hnew := h.broadcast_readIn hs
      rw [expansion, show broadcast sets (site.readIn root').spec.dimensions
        (site.readIn root').path (site.readIn root').value = _ from hnew, hb]
  rw [Fields.broadcastModel, Fields.broadcastModel, h.alike.fieldSites, foldlM_broadcastSite,
    foldlM_broadcastSite, hexpandable _ fun _ hs => hs, hreplacements]
  have hfill : root'.fill ((Fields.fieldSites root).map (replacement sets)) =
      root.fill ((Fields.fieldSites root).map (replacement sets)) := by
    rw [h.eq_fill]
    exact Node.fill_absorbs (compatible_replacements sets root) (List.map_subset _ h.sites) root
  rw [hfill]

/-- Nothing has become pending. -/
theorem settled_after (h : Foreseen time sets root chosen root') : root'.isPending = false := by
  rw [h.eq_fill]
  refine Node.isPending_fill h.settled fun a ha => ?_
  obtain ⟨site, hs, rfl⟩ := List.mem_map.1 ha
  have hmem := h.sites site hs
  have hvalue := Node.settled_of_get? h.settled (get?_of_mem_fieldSites hmem)
  exact isPending_broadcast (dimensions_ne_nil hmem) hvalue
    (broadcast_of_expandable h.expandable hs)

end Foreseen

end EnergyPlan.Fields
