/-
# The places of the indexed fields

Every indexed field belongs to a mapping that stands at a position of its own: the
configuration itself, an element of one of its lists, or an operating mode of a technology.
No field has the name of such a list, and no mapping has two fields of one name, so any two
fields stand apart from each other.

Key definitions: `Owns`.
Key theorems: `mem_fieldSites_iff`, `Owns.unique`, `Owns.apart`, `get?_of_mem_fieldSites`,
`eq_or_apart`, `pairwise_apart_fieldSites`.
-/
import EnergyPlan.Fields.Inference
import EnergyPlan.Proofs.Shorthand.Replacing
import Mathlib.Data.List.Sigma

namespace EnergyPlan.Fields

open Config Text

/-- The elements of the list at a key. -/
def listAt (parent : Node) (key : String) : List Node :=
  ((parent.entry? key).getD .null).items

/-! ### Names -/

theorem name_ne {kind : EntityKind} {spec : FieldSpec} (h : spec ∈ kind.indexedFields) :
    spec.name ≠ "id" ∧ spec.name ≠ EntityKind.operatingMode.collection := by
  have hall : ∀ spec ∈ kind.indexedFields,
      spec.name ≠ "id" ∧ spec.name ≠ EntityKind.operatingMode.collection := by
    cases kind <;> decide +kernel
  exact hall spec h

/-- No field of the whole model has the name of a list, of the time definition or the options. -/
theorem model_name_ne {spec : FieldSpec} (h : spec ∈ EntityKind.model.indexedFields) :
    (∀ kind ∈ EntityKind.listed, spec.name ≠ kind.collection) ∧
      spec.name ≠ "time_definition" ∧ spec.name ≠ "compiler" := by
  have hall : ∀ spec ∈ EntityKind.model.indexedFields,
      (∀ kind ∈ EntityKind.listed, spec.name ≠ kind.collection) ∧
        spec.name ≠ "time_definition" ∧ spec.name ≠ "compiler" := by
    decide +kernel
  exact hall spec h

theorem collection_ne {kind : EntityKind} (h : kind ∈ EntityKind.listed) :
    kind.collection ≠ "time_definition" ∧ kind.collection ≠ "compiler" := by
  revert kind
  decide +kernel

theorem collection_inj {kind kind' : EntityKind} (h : kind ∈ EntityKind.listed)
    (h' : kind' ∈ EntityKind.listed) (heq : kind.collection = kind'.collection) :
    kind = kind' := by
  have hall : ∀ kind ∈ EntityKind.listed, ∀ kind' ∈ EntityKind.listed,
      kind.collection = kind'.collection → kind = kind' := by
    decide +kernel
  exact hall kind h kind' h' heq

theorem spec_eq_of_name {kind : EntityKind} {spec spec' : FieldSpec}
    (h : spec ∈ kind.indexedFields) (h' : spec' ∈ kind.indexedFields)
    (heq : spec.name = spec'.name) : spec = spec' :=
  List.inj_on_of_nodup_map kind.field_nodup (List.mem_of_mem_filter h)
    (List.mem_of_mem_filter h') heq

/-! ### Owners of fields -/

/-- The position of an element of a list at the top of a configuration. -/
def listedPosition (kind : EntityKind) (i : Nat) : List Step := [.key kind.collection, .item i]

/-- The position of an operating mode of a technology. -/
def modePosition (i j : Nat) : List Step :=
  listedPosition .technology i ++ [.key EntityKind.operatingMode.collection, .item j]

/-- A mapping of a configuration that has fields of a kind, with its position and path. -/
inductive Owns (root : Node) (owner : List Step) (path : String) : EntityKind → Node → Prop
  | model (ho : owner = []) (hp : path = "") : Owns root owner path .model root
  | listed {kind : EntityKind} {i : Nat} {e : Node} (hk : kind ∈ EntityKind.listed)
      (he : (listAt root kind.collection)[i]? = some e) (ho : owner = listedPosition kind i)
      (hp : path = childPath (childPath "" kind.collection) (e.label i)) :
      Owns root owner path kind e
  | mode {i j : Nat} {t m : Node}
      (ht : (listAt root EntityKind.technology.collection)[i]? = some t)
      (hm : (listAt t EntityKind.operatingMode.collection)[j]? = some m)
      (ho : owner = modePosition i j)
      (hp : path = childPath (childPath (childPath (childPath ""
        EntityKind.technology.collection) (t.label i)) EntityKind.operatingMode.collection)
          (m.label j)) :
      Owns root owner path .operatingMode m

theorem mem_listedEntities {parent : Node} {owner : List Step} {path key : String}
    {listed : List Step × String × Node} :
    listed ∈ listedEntities parent owner path key ↔ ∃ i e, (listAt parent key)[i]? = some e ∧
      e.isMapping = true ∧
      listed = (owner ++ [.key key, .item i], childPath (childPath path key) (e.label i), e) := by
  rw [listedEntities, List.mem_filterMap]
  constructor
  · rintro ⟨⟨e, i⟩, hm, hsome⟩
    obtain ⟨hmap, hsome⟩ := Option.ite_none_right_eq_some.1 hsome
    exact ⟨i, e, List.mem_zipIdx_iff_getElem?.1 hm, hmap, (Option.some.inj hsome).symm⟩
  · rintro ⟨i, e, hi, hmap, rfl⟩
    exact ⟨(e, i), List.mem_zipIdx_iff_getElem?.2 hi, if_pos hmap⟩

theorem mem_ownSites {kind : EntityKind} {owner : List Step} {path : String} {entity : Node}
    {site : FieldSite} : site ∈ ownSites kind owner path entity ↔
      ∃ spec ∈ kind.indexedFields, ∃ value, entity.entry? spec.name = some value ∧
        site = ⟨owner, spec, childPath path spec.name, value⟩ := by
  rw [ownSites, List.mem_filterMap]
  refine exists_congr fun spec => and_congr_right fun _ => ?_
  rw [Option.map_eq_some_iff]
  exact exists_congr fun value => and_congr_right fun _ => eq_comm

theorem isMapping_of_entry? {node value : Node} {key : String} (h : node.entry? key = some value) :
    node.isMapping = true := by
  cases node with
  | mapping entries => rfl
  | _ => cases h

/-- Every site is a field of an owner. -/
theorem owns_of_mem_fieldSites {root : Node} {site : FieldSite} (h : site ∈ fieldSites root) :
    ∃ path kind entity, Owns root site.owner path kind entity ∧
      site ∈ ownSites kind site.owner path entity := by
  have howner : ∀ {kind owner path entity}, site ∈ ownSites kind owner path entity →
      site.owner = owner := by
    intro kind owner path entity hs
    obtain ⟨spec, _, value, _, rfl⟩ := mem_ownSites.1 hs
    rfl
  rw [fieldSites, List.mem_append, List.mem_flatMap] at h
  rcases h with ⟨kind, hkind, h⟩ | h
  · obtain ⟨_, hl, h⟩ := List.mem_flatMap.1 h
    obtain ⟨i, e, hi, _, rfl⟩ := mem_listedEntities.1 hl
    rcases List.mem_append.1 h with h | h
    · have ho := howner h
      exact ⟨_, kind, e, .listed hkind hi ho rfl, ho ▸ h⟩
    · split at h
      · next htech =>
        subst htech
        obtain ⟨_, hm, h⟩ := List.mem_flatMap.1 h
        obtain ⟨j, m, hj, _, rfl⟩ := mem_listedEntities.1 hm
        have ho := howner h
        exact ⟨_, .operatingMode, m, .mode hi hj ho rfl, ho ▸ h⟩
      · cases h
  · have ho := howner h
    exact ⟨"", .model, root, .model ho rfl, ho ▸ h⟩

/-- **The sites of a configuration** are the indexed fields that its mappings give. -/
theorem mem_fieldSites_iff {root : Node} {site : FieldSite} : site ∈ fieldSites root ↔
    ∃ path kind entity, Owns root site.owner path kind entity ∧
      site.spec ∈ kind.indexedFields ∧ entity.entry? site.spec.name = some site.value ∧
      site.path = childPath path site.spec.name := by
  constructor
  · intro h
    obtain ⟨path, kind, entity, ho, hs⟩ := owns_of_mem_fieldSites h
    obtain ⟨spec, hspec, value, hv, heq⟩ := mem_ownSites.1 hs
    rw [heq] at ho ⊢
    exact ⟨path, kind, entity, ho, hspec, hv, rfl⟩
  · rintro ⟨path, kind, entity, ho, hspec, hv, hp⟩
    have hown : site ∈ ownSites kind site.owner path entity := by
      refine mem_ownSites.2 ⟨site.spec, hspec, site.value, hv, ?_⟩
      rw [← hp]
    have hmapping := isMapping_of_entry? hv
    rw [fieldSites, List.mem_append]
    cases ho with
    | model ho hp =>
      rw [ho, hp] at hown
      exact Or.inr hown
    | listed hk he ho hp =>
      refine Or.inl (List.mem_flatMap.2 ⟨_, hk, List.mem_flatMap.2 ⟨_,
        mem_listedEntities.2 ⟨_, _, he, hmapping, rfl⟩, List.mem_append_left _ ?_⟩⟩)
      rw [ho, hp] at hown
      exact hown
    | @mode i j technology m ht hm ho hp =>
      have htechnology : technology.isMapping = true := by
        cases hmodes : technology.entry? EntityKind.operatingMode.collection with
        | none =>
          rw [listAt, hmodes] at hm
          cases hm
        | some modes => exact isMapping_of_entry? hmodes
      refine Or.inl (List.mem_flatMap.2 ⟨.technology, by decide, List.mem_flatMap.2 ⟨_,
        mem_listedEntities.2 ⟨_, _, ht, htechnology, rfl⟩, List.mem_append_right _ ?_⟩⟩)
      rw [if_pos rfl]
      refine List.mem_flatMap.2 ⟨_, mem_listedEntities.2 ⟨_, _, hm, hmapping, rfl⟩, ?_⟩
      rw [ho, hp] at hown
      exact hown

theorem get?_listAt {parent e : Node} {key : String} {i : Nat}
    (h : (listAt parent key)[i]? = some e) (r : List Step) :
    parent.get? (.key key :: .item i :: r) = e.get? r := by
  cases hc : parent.entry? key with
  | none =>
    rw [listAt, hc] at h
    cases h
  | some child =>
    rw [listAt, hc] at h
    have hkey : parent.child? (.key key) = some child := hc
    have hitem : child.child? (.item i) = some e := h
    rw [Node.get?_cons hkey, Node.get?_cons hitem]

section

variable {root entity entity' : Node} {kind kind' : EntityKind} {owner owner' : List Step}
  {path path' : String}

/-- An owner stands at its position. -/
theorem Owns.get (h : Owns root owner path kind entity) : root.get? owner = some entity := by
  cases h with
  | model ho => rw [ho, Node.get?]
  | listed _ he ho => exact ho ▸ get?_listAt he []
  | mode ht hm ho => exact ho ▸ (get?_listAt ht _).trans (get?_listAt hm [])

/-- A position has one owner at most. -/
theorem Owns.unique (h : Owns root owner path kind entity)
    (h' : Owns root owner path' kind' entity') :
    path = path' ∧ kind = kind' ∧ entity = entity' := by
  have hentity : entity = entity' := Option.some.inj (h.get.symm.trans h'.get)
  subst hentity
  cases h with
  | model ho hp =>
    cases h' with
    | model _ hp' => exact ⟨hp.trans hp'.symm, rfl, rfl⟩
    | listed _ _ ho' => cases ho.symm.trans ho'
    | mode _ _ ho' => cases ho.symm.trans ho'
  | listed hk he ho hp =>
    cases h' with
    | model ho' => cases ho'.symm.trans ho
    | listed hk' he' ho' hp' =>
      have hpos := ho.symm.trans ho'
      simp only [listedPosition, List.cons.injEq, Step.key.injEq, Step.item.injEq, and_true] at hpos
      obtain ⟨hcoll, rfl⟩ := hpos
      obtain rfl := collection_inj hk hk' hcoll
      exact ⟨hp.trans hp'.symm, rfl, rfl⟩
    | mode _ _ ho' =>
      have hlen := congrArg List.length (ho.symm.trans ho')
      cases hlen
  | mode ht hm ho hp =>
    cases h' with
    | model ho' => cases ho'.symm.trans ho
    | listed _ _ ho' =>
      have hlen := congrArg List.length (ho.symm.trans ho')
      cases hlen
    | mode ht' hm' ho' hp' =>
      have hpos := ho.symm.trans ho'
      simp only [modePosition, listedPosition, List.cons_append, List.nil_append, List.cons.injEq,
        Step.item.injEq, true_and, and_true] at hpos
      obtain ⟨rfl, rfl⟩ := hpos
      rw [ht, Option.some.injEq] at ht'
      subst ht'
      exact ⟨hp.trans hp'.symm, rfl, rfl⟩

/-- The fields of two owners stand apart from each other, and so do two fields of one owner. -/
theorem Owns.apart (h : Owns root owner path kind entity)
    (h' : Owns root owner' path' kind' entity') {spec spec' : FieldSpec}
    (hs : spec ∈ kind.indexedFields) (hs' : spec' ∈ kind'.indexedFields)
    (hne : ¬ (owner = owner' ∧ spec.name = spec'.name)) :
    Node.Apart (owner ++ [.key spec.name]) (owner' ++ [.key spec'.name]) := by
  have htech : EntityKind.technology ∈ EntityKind.listed := by decide
  have hmode := (name_ne hs).2
  have hmode' := (name_ne hs').2
  cases h with
  | model ho =>
    have hname := (model_name_ne hs).1
    cases h' with
    | model ho' =>
      subst ho ho'
      simp only [true_and] at hne
      simp [Node.Apart, List.cons_prefix_cons, hne, Ne.symm hne]
    | listed hk _ ho' =>
      subst ho ho'
      simp [Node.Apart, listedPosition, List.cons_prefix_cons, hname _ hk]
    | mode _ _ ho' =>
      subst ho ho'
      simp [Node.Apart, modePosition, listedPosition, List.cons_prefix_cons, hname _ htech]
  | listed hk _ ho =>
    cases h' with
    | model ho' =>
      have hname := (model_name_ne hs').1
      subst ho ho'
      simp [Node.Apart, listedPosition, List.cons_prefix_cons, hname _ hk]
    | listed _ _ ho' =>
      subst ho ho'
      simp only [listedPosition, List.cons.injEq, and_true] at hne
      simp only [Node.Apart, listedPosition, List.cons_append, List.nil_append,
        List.cons_prefix_cons, List.prefix_nil, Step.key.injEq, Step.item.injEq]
      tauto
    | mode _ _ ho' =>
      subst ho ho'
      simp [Node.Apart, modePosition, listedPosition, List.cons_prefix_cons, hmode]
  | mode _ _ ho =>
    cases h' with
    | model ho' =>
      have hname := (model_name_ne hs').1
      subst ho ho'
      simp [Node.Apart, modePosition, listedPosition, List.cons_prefix_cons, hname _ htech]
    | listed _ _ ho' =>
      subst ho ho'
      simp [Node.Apart, modePosition, listedPosition, List.cons_prefix_cons, hmode']
    | mode _ _ ho' =>
      subst ho ho'
      simp only [modePosition, listedPosition, List.cons_append, List.nil_append, List.cons.injEq,
        and_true] at hne
      simp only [Node.Apart, modePosition, listedPosition, List.cons_append, List.nil_append,
        List.cons_prefix_cons, List.prefix_nil, Step.key.injEq, Step.item.injEq]
      tauto

end

/-! ### Sites -/

section

variable {root : Node} {site site' : FieldSite}

/-- A site holds the value at its position. -/
theorem get?_of_mem_fieldSites (h : site ∈ fieldSites root) :
    root.get? site.position = some site.value := by
  obtain ⟨path, kind, entity, ho, hs⟩ := owns_of_mem_fieldSites h
  obtain ⟨spec, _, value, hv, heq⟩ := mem_ownSites.1 hs
  have hentity := ho.get
  rw [heq] at hentity ⊢
  rw [FieldSite.position, Node.get?_append, hentity, Option.bind_some, Node.get?_singleton]
  exact hv

/-- An indexed field has a dimension. -/
theorem dimensions_ne_nil (h : site ∈ fieldSites root) : site.spec.dimensions ≠ [] := by
  obtain ⟨path, kind, entity, _, hs⟩ := owns_of_mem_fieldSites h
  obtain ⟨spec, hspec, value, _, heq⟩ := mem_ownSites.1 hs
  have hne := (List.mem_filter.1 hspec).2
  rw [heq]
  rintro hnil
  rw [show spec.dimensions = [] from hnil] at hne
  cases hne

/-- **Two sites are the same or stand apart.** -/
theorem eq_or_apart (h : site ∈ fieldSites root) (h' : site' ∈ fieldSites root) :
    site = site' ∨ Node.Apart site.position site'.position := by
  obtain ⟨path, kind, entity, ho, hs⟩ := owns_of_mem_fieldSites h
  obtain ⟨path', kind', entity', ho', hs'⟩ := owns_of_mem_fieldSites h'
  obtain ⟨spec, hspec, value, hv, heq⟩ := mem_ownSites.1 hs
  obtain ⟨spec', hspec', value', hv', heq'⟩ := mem_ownSites.1 hs'
  by_cases hsame : site.owner = site'.owner ∧ spec.name = spec'.name
  · obtain ⟨howner, hname⟩ := hsame
    rw [howner] at ho heq
    obtain ⟨rfl, rfl, rfl⟩ := ho.unique ho'
    obtain rfl := spec_eq_of_name hspec hspec' hname
    rw [hv, Option.some.injEq] at hv'
    rw [heq, heq', hv']
    exact Or.inl rfl
  · refine Or.inr ?_
    have hapart := ho.apart ho' hspec hspec' hsame
    have hp : site.position = site.owner ++ [.key spec.name] := by rw [heq, FieldSite.position]
    have hp' : site'.position = site'.owner ++ [.key spec'.name] := by
      rw [heq', FieldSite.position]
    rw [hp, hp']
    exact hapart

/-! ### Every field has one site -/

theorem prefix_owner_of_mem_entitySites {kind : EntityKind} {owner : List Step} {path : String}
    {entity : Node} (h : site ∈ entitySites kind owner path entity) : owner <+: site.owner := by
  rcases List.mem_append.1 h with h | h
  · obtain ⟨spec, _, value, _, rfl⟩ := mem_ownSites.1 h
    exact List.prefix_rfl
  · split at h
    · obtain ⟨_, hm, h⟩ := List.mem_flatMap.1 h
      obtain ⟨j, m, _, _, rfl⟩ := mem_listedEntities.1 hm
      obtain ⟨spec, _, value, _, rfl⟩ := mem_ownSites.1 h
      exact List.prefix_append owner _
    · cases h

theorem nodup_ownSites (kind : EntityKind) (owner : List Step) (path : String) (entity : Node) :
    (ownSites kind owner path entity).Nodup := by
  refine (kind.field_nodup.of_map.filter _).filterMap fun spec spec' site hs hs' => ?_
  obtain ⟨value, _, rfl⟩ := Option.map_eq_some_iff.1 hs
  obtain ⟨value', _, heq⟩ := Option.map_eq_some_iff.1 hs'
  exact (congrArg FieldSite.spec heq).symm

/-- What is collected over listed mappings has no repetition if it has none for each of them and
stands at or below its position. -/
theorem nodup_flatMap_listedEntities {parent : Node} {owner : List Step} {path key : String}
    {f : List Step × String × Node → List FieldSite} (hf : ∀ listed, (f listed).Nodup)
    (hbelow : ∀ listed, ∀ site ∈ f listed, listed.1 <+: site.owner) :
    ((listedEntities parent owner path key).flatMap f).Nodup := by
  refine List.nodup_flatMap.2 ⟨fun listed _ => hf listed, ?_⟩
  rw [listedEntities, List.pairwise_filterMap]
  have hindices := List.nodup_zipIdx_map_snd ((parent.entry? key).getD .null).items
  refine (List.pairwise_map.1 hindices).imp fun {a b} hne listed ha listed' hb => ?_
  obtain ⟨_, ha⟩ := Option.ite_none_right_eq_some.1 ha
  obtain ⟨_, hb⟩ := Option.ite_none_right_eq_some.1 hb
  intro site hs hs'
  have hfirst := hbelow listed site hs
  have hsecond := hbelow listed' site hs'
  rw [← Option.some.inj ha] at hfirst
  rw [← Option.some.inj hb] at hsecond
  have hsame := (List.prefix_of_prefix_length_le hfirst hsecond (by simp)).eq_of_length (by simp)
  simp only [List.append_cancel_left_eq, List.cons.injEq, Step.item.injEq, true_and,
    and_true] at hsame
  exact hne hsame

theorem nodup_entitySites (kind : EntityKind) (owner : List Step) (path : String)
    (entity : Node) : (entitySites kind owner path entity).Nodup := by
  refine List.Nodup.append (nodup_ownSites kind owner path entity) ?_ fun site hs hs' => ?_
  · split
    · refine nodup_flatMap_listedEntities (fun _ => nodup_ownSites _ _ _ _) ?_
      rintro ⟨position, path, mode⟩ site hs
      obtain ⟨spec, _, value, _, rfl⟩ := mem_ownSites.1 hs
      exact List.prefix_rfl
    · exact .nil
  · obtain ⟨spec, _, value, _, rfl⟩ := mem_ownSites.1 hs
    split at hs'
    · obtain ⟨_, hm, hs'⟩ := List.mem_flatMap.1 hs'
      obtain ⟨j, m, _, _, rfl⟩ := mem_listedEntities.1 hm
      obtain ⟨spec', _, value', _, heq⟩ := mem_ownSites.1 hs'
      have howner := congrArg (fun site => site.owner.length) heq
      simp at howner
    · cases hs'

/-- **No field is visited twice.** -/
theorem nodup_fieldSites (root : Node) : (fieldSites root).Nodup := by
  have hbelow : ∀ {kind : EntityKind} {site : FieldSite},
      (∃ listed ∈ listedEntities root [] "" kind.collection,
        site ∈ entitySites kind listed.1 listed.2.1 listed.2.2) →
      [.key kind.collection] <+: site.owner := by
    rintro kind site ⟨_, hl, h⟩
    obtain ⟨i, e, _, _, rfl⟩ := mem_listedEntities.1 hl
    refine List.IsPrefix.trans ?_ (prefix_owner_of_mem_entitySites h)
    exact List.prefix_append [Step.key kind.collection] [Step.item i]
  refine List.Nodup.append (List.nodup_flatMap.2 ⟨fun kind _ => ?_, ?_⟩)
    (nodup_ownSites .model [] "" root) fun site hs hs' => ?_
  · exact nodup_flatMap_listedEntities (fun _ => nodup_entitySites _ _ _ _)
      fun _ _ hs => prefix_owner_of_mem_entitySites hs
  · have hkinds : EntityKind.listed.Pairwise fun kind kind' =>
        kind.collection ≠ kind'.collection := by decide +kernel
    refine hkinds.imp fun {kind kind'} hne site hs hs' => hne ?_
    have hfirst := hbelow (List.mem_flatMap.1 hs)
    have hsecond := hbelow (List.mem_flatMap.1 hs')
    have hsame := (List.prefix_of_prefix_length_le hfirst hsecond (by simp)).eq_of_length (by simp)
    simpa using hsame
  · obtain ⟨kind, _, hs⟩ := List.mem_flatMap.1 hs
    obtain ⟨spec, _, value, _, rfl⟩ := mem_ownSites.1 hs'
    have hlen := (hbelow (List.mem_flatMap.1 hs)).length_le
    simp at hlen

/-- Any two sites in the list stand apart. -/
theorem pairwise_apart_fieldSites (root : Node) :
    (fieldSites root).Pairwise fun site site' => Node.Apart site.position site'.position :=
  (nodup_fieldSites root).pairwise_of_forall_ne fun _ hs _ hs' hne =>
    (eq_or_apart hs hs').resolve_left hne

end

end EnergyPlan.Fields
