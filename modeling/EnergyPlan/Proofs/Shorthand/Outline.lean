/-
# What stays of a configuration when fields are replaced

Which entities there are, their ids, which fields each of them gives, the time definition
and the options make up the outline of a configuration. Two configurations that are alike in
this have the same identifiers and the same sites but for their values, and replacing the
values of fields leads to a configuration that is alike.

Key definitions: `entityOutline`, `Alike`, `FieldSite.readIn`.
Key theorems: `Alike.fieldSites`, `Alike.identifiers`, `alike_set`, `alike_fill`.
-/
import EnergyPlan.Proofs.Shorthand.Places

namespace EnergyPlan.Fields

open Config Text

/-- What stays of a mapping when a field of it is replaced: that it is one, its id, and which
fields it gives. -/
def fieldOutline (kind : EntityKind) (entity : Node) : Bool × Option Node × List Bool :=
  (entity.isMapping, entity.entry? "id",
    kind.indexedFields.map fun spec => (entity.entry? spec.name).isSome)

/-- What stays of an entity when a field of it or of its operating modes is replaced. -/
def entityOutline (kind : EntityKind) (entity : Node) :
    (Bool × Option Node × List Bool) × List (Bool × Option Node × List Bool) :=
  (fieldOutline kind entity,
    (listAt entity EntityKind.operatingMode.collection).map (fieldOutline .operatingMode))

/-- Two configurations have the same outline. -/
structure Alike (a b : Node) : Prop where
  listed : ∀ kind ∈ EntityKind.listed, (listAt a kind.collection).map (entityOutline kind) =
    (listAt b kind.collection).map (entityOutline kind)
  fields : ∀ spec ∈ EntityKind.model.indexedFields,
    (a.entry? spec.name).isSome = (b.entry? spec.name).isSome
  time : a.entry? "time_definition" = b.entry? "time_definition"
  options : a.entry? "compiler" = b.entry? "compiler"

theorem Alike.refl (a : Node) : Alike a a :=
  ⟨fun _ _ => rfl, fun _ _ => rfl, rfl, rfl⟩

theorem Alike.trans {a b c : Node} (h : Alike a b) (h' : Alike b c) : Alike a c where
  listed kind hk := (h.listed kind hk).trans (h'.listed kind hk)
  fields spec hs := (h.fields spec hs).trans (h'.fields spec hs)
  time := h.time.trans h'.time
  options := h.options.trans h'.options

/-! ### Sites but for their values -/

namespace FieldSite

/-- A site without its value. -/
def blank (site : FieldSite) : FieldSite := { site with value := .null }

/-- A site with the value that a configuration has at its position. -/
def readIn (root : Node) (site : FieldSite) : FieldSite :=
  { site with value := (root.get? site.position).getD .null }

theorem readIn_of_mem {root : Node} {site : FieldSite} (h : site ∈ fieldSites root) :
    readIn root site = site := by
  rw [readIn, get?_of_mem_fieldSites h]
  rfl

theorem readIn_eq {root : Node} {site : FieldSite} (h : (readIn root site).value = site.value) :
    readIn root site = site :=
  congrArg (FieldSite.mk site.owner site.spec site.path) h

end FieldSite

theorem blank_ownSites {kind : EntityKind} {e e' : Node}
    (h : kind.indexedFields.map (fun spec => (e.entry? spec.name).isSome) =
      kind.indexedFields.map (fun spec => (e'.entry? spec.name).isSome))
    (owner : List Step) (path : String) :
    (ownSites kind owner path e).map FieldSite.blank =
      (ownSites kind owner path e').map FieldSite.blank := by
  rw [List.map_inj_left] at h
  rw [ownSites, ownSites, List.map_filterMap, List.map_filterMap]
  refine List.filterMap_congr fun spec hs => ?_
  have hsome := h spec hs
  cases hv : e.entry? spec.name with
  | none =>
    rw [hv] at hsome
    have hv' : e'.entry? spec.name = none := by simpa using hsome.symm
    rw [hv']
  | some value =>
    rw [hv] at hsome
    obtain ⟨value', hv'⟩ := Option.isSome_iff_exists.1 hsome.symm
    rw [hv']
    rfl

/-- What is collected over the listed mappings depends on their outlines only, if what is
collected for each of them does. -/
theorem flatMap_listedEntities {β γ : Type} {f : Node → γ} {a b : Node} {key : String}
    (hf : ∀ e e', f e = f e' → e.isMapping = e'.isMapping ∧ e.entry? "id" = e'.entry? "id")
    (h : (listAt a key).map f = (listAt b key).map f)
    {F : List Step × String × Node → List β}
    (hF : ∀ position path e e', f e = f e' → F (position, path, e) = F (position, path, e'))
    (owner : List Step) (path : String) :
    (listedEntities a owner path key).flatMap F = (listedEntities b owner path key).flatMap F := by
  have hall : ∀ (xs ys : List Node) (start : Nat), xs.map f = ys.map f →
      ((xs.zipIdx start).filterMap fun item =>
        if item.1.isMapping then
          some (owner ++ [.key key, .item item.2],
            childPath (childPath path key) (item.1.label item.2), item.1)
        else none).flatMap F =
      ((ys.zipIdx start).filterMap fun item =>
        if item.1.isMapping then
          some (owner ++ [.key key, .item item.2],
            childPath (childPath path key) (item.1.label item.2), item.1)
        else none).flatMap F := by
    intro xs
    induction xs with
    | nil =>
      intro ys start hmap
      rw [List.map_nil, eq_comm, List.map_eq_nil_iff] at hmap
      rw [hmap]
    | cons x xs ih =>
      intro ys start hmap
      cases ys with
      | nil => cases hmap
      | cons y ys =>
        rw [List.map_cons, List.map_cons, List.cons.injEq] at hmap
        obtain ⟨hxy, hrest⟩ := hmap
        obtain ⟨hmapping, hid⟩ := hf x y hxy
        have hlabel : x.label start = y.label start := by
          rw [Node.label, Node.label, Node.id?, Node.id?, hid]
        rw [List.zipIdx_cons, List.zipIdx_cons, List.filterMap_cons, List.filterMap_cons]
        by_cases hm : y.isMapping = true
        · simp only [hmapping, hm, hlabel, if_true, List.flatMap_cons, hF _ _ x y hxy,
            ih ys (start + 1) hrest]
        · simp only [hmapping, hm, Bool.false_eq_true, if_false, ih ys (start + 1) hrest]
  exact hall _ _ 0 h

theorem fieldOutline_eq {kind : EntityKind} {e e' : Node}
    (h : fieldOutline kind e = fieldOutline kind e') :
    e.isMapping = e'.isMapping ∧ e.entry? "id" = e'.entry? "id" := by
  rw [fieldOutline, fieldOutline, Prod.mk.injEq, Prod.mk.injEq] at h
  exact ⟨h.1, h.2.1⟩

theorem entityOutline_eq {kind : EntityKind} {e e' : Node}
    (h : entityOutline kind e = entityOutline kind e') :
    e.isMapping = e'.isMapping ∧ e.entry? "id" = e'.entry? "id" :=
  fieldOutline_eq (congrArg Prod.fst h)

/-- The sites of an entity are those of any other one with its outline, but for their values. -/
theorem blank_entitySites {kind : EntityKind} {e e' : Node}
    (h : entityOutline kind e = entityOutline kind e') (owner : List Step) (path : String) :
    (entitySites kind owner path e).map FieldSite.blank =
      (entitySites kind owner path e').map FieldSite.blank := by
  rw [entityOutline, entityOutline, Prod.mk.injEq] at h
  obtain ⟨hown, hmodes⟩ := h
  have hfields := blank_ownSites (congrArg (fun o => o.2.2) hown) owner path
  rw [entitySites, entitySites, List.map_append, List.map_append, hfields]
  refine congrArg _ ?_
  by_cases htech : kind = .technology
  · rw [if_pos htech, if_pos htech, modeSites, modeSites, List.map_flatMap, List.map_flatMap]
    refine flatMap_listedEntities (fun _ _ => fieldOutline_eq) hmodes ?_ owner path
    intro position path m m' hm
    exact blank_ownSites (congrArg (fun o => o.2.2) hm) position path
  · rw [if_neg htech, if_neg htech]

namespace Alike

variable {a b : Node}

theorem blank_fieldSites (h : Alike a b) :
    (Fields.fieldSites a).map FieldSite.blank = (Fields.fieldSites b).map FieldSite.blank := by
  have hown := blank_ownSites (List.map_inj_left.2 h.fields) [] ""
  rw [Fields.fieldSites, Fields.fieldSites, List.map_append, List.map_append, hown,
    List.map_flatMap, List.map_flatMap]
  refine congrArg (· ++ _) (List.flatMap_congr fun kind hk => ?_)
  rw [List.map_flatMap, List.map_flatMap]
  refine flatMap_listedEntities (fun _ _ => entityOutline_eq) (h.listed kind hk) ?_ [] ""
  intro position path e e' he
  exact blank_entitySites he position path

/-- **Configurations that are alike have the same sites**, but for the values. -/
theorem fieldSites (h : Alike a b) :
    Fields.fieldSites b = (Fields.fieldSites a).map (FieldSite.readIn b) := by
  have hread : ∀ root : Node, (Fields.fieldSites root).map (FieldSite.readIn b) =
      ((Fields.fieldSites root).map FieldSite.blank).map (FieldSite.readIn b) := by
    intro root
    rw [List.map_map]
    rfl
  have hself : (Fields.fieldSites b).map (FieldSite.readIn b) = Fields.fieldSites b := by
    conv_rhs => rw [← List.map_id (Fields.fieldSites b)]
    exact List.map_congr_left fun site hs => FieldSite.readIn_of_mem hs
  rw [hread a, h.blank_fieldSites, ← hread b, hself]

/-- Lists whose elements have the same outlines agree in whatever follows from the outlines. -/
theorem map_eq_of_map_eq {γ δ : Type} {f : Node → γ} {g : Node → δ}
    (hg : ∀ e e', f e = f e' → g e = g e') {xs ys : List Node} (h : xs.map f = ys.map f) :
    xs.map g = ys.map g := by
  induction xs generalizing ys with
  | nil =>
    rw [List.map_nil, eq_comm, List.map_eq_nil_iff] at h
    rw [h]
  | cons x xs ih =>
    cases ys with
    | nil => cases h
    | cons y ys =>
      rw [List.map_cons, List.map_cons, List.cons.injEq] at h
      rw [List.map_cons, List.map_cons, hg x y h.1, ih h.2]

theorem listedIds_eq {γ : Type} {f : Node → γ} {key : String}
    (hf : ∀ e e', f e = f e' → e.entry? "id" = e'.entry? "id")
    (h : (listAt a key).map f = (listAt b key).map f) : listedIds a key = listedIds b key := by
  have hids : (listAt a key).map Node.id? = (listAt b key).map Node.id? := by
    refine map_eq_of_map_eq (fun e e' he => ?_) h
    rw [Node.id?, Node.id?, hf e e' he]
  have hfilter : ∀ xs : List Node, xs.filterMap Node.id? = (xs.map Node.id?).filterMap id := by
    intro xs
    rw [List.filterMap_map]
    rfl
  show (listAt a key).filterMap Node.id? = (listAt b key).filterMap Node.id?
  rw [hfilter, hfilter, hids]

/-- Configurations that are alike have the same ids. -/
theorem identifiers (h : Alike a b) : Fields.identifiers a = Fields.identifiers b := by
  have hids : ∀ kind ∈ EntityKind.listed,
      listedIds a kind.collection = listedIds b kind.collection :=
    fun kind hk => listedIds_eq (fun _ _ he => (entityOutline_eq he).2) (h.listed kind hk)
  have hmodes : (listAt a EntityKind.technology.collection).map
        (listedIds · EntityKind.operatingMode.collection) =
      (listAt b EntityKind.technology.collection).map
        (listedIds · EntityKind.operatingMode.collection) := by
    refine map_eq_of_map_eq (fun e e' he => ?_) (h.listed .technology (by decide))
    exact listedIds_eq (fun _ _ hm => (fieldOutline_eq hm).2) (congrArg Prod.snd he)
  simp only [listAt] at hmodes
  rw [Fields.identifiers, Fields.identifiers, hids .region (by decide),
    hids .commodity (by decide), hids .impact (by decide), hids .technology (by decide),
    hids .storage (by decide)]
  simp only [List.flatMap_def, hmodes]

end Alike

/-! ### Replacing the value of a field -/

theorem entry?_set_of_ne {node : Node} {k k' : String} (hne : k' ≠ k) (value : Node)
    (r : List Step) : Node.entry? (node.set value (.key k :: r)) k' = node.entry? k' := by
  have hpq : ¬ (.key k :: r) <+: [.key k'] := by simp [List.cons_prefix_cons, Ne.symm hne]
  have hqp : ¬ [.key k'] <+: (.key k :: r) := by simp [List.cons_prefix_cons, hne]
  have h : (node.set value (.key k :: r)).get? [.key k'] = node.get? [.key k'] :=
    Node.get?_set_apart hpq hqp value
  rwa [Node.get?_singleton, Node.get?_singleton] at h

theorem isSome_entry?_set (node : Node) (k k' : String) (value : Node) (r : List Step) :
    (Node.entry? (node.set value (.key k :: r)) k').isSome = (node.entry? k').isSome := by
  by_cases hne : k' = k
  · subst hne
    cases hc : node.child? (.key k') with
    | none => rw [Node.set, hc]
    | some child =>
      have hset := Node.child?_setChild hc (child.set value r) (.key k')
      rw [if_pos rfl] at hset
      rw [Node.set_cons hc]
      exact (congrArg Option.isSome hset).trans (congrArg Option.isSome hc).symm
  · rw [entry?_set_of_ne hne]

/-- Replacing something below an element of a list keeps an outline of the elements that does not
change there. -/
theorem map_listAt_set {γ : Type} {f : Node → γ} {node e : Node} {key : String} {i : Nat}
    (he : (listAt node key)[i]? = some e) {value : Node} {r : List Step}
    (hf : f (e.set value r) = f e) :
    (listAt (node.set value (.key key :: .item i :: r)) key).map f = (listAt node key).map f := by
  cases hc : node.entry? key with
  | none =>
    rw [listAt, hc] at he
    cases he
  | some child =>
    have hitems : listAt node key = child.items := by rw [listAt, hc, Option.getD_some]
    rw [hitems] at he ⊢
    have hkey : node.child? (.key key) = some child := hc
    have hitem : child.child? (.item i) = some e := he
    have hset := Node.child?_setChild hkey (child.set value (.item i :: r)) (.key key)
    rw [if_pos rfl, ← Node.set_cons hkey] at hset
    have hnew : listAt (node.set value (.key key :: .item i :: r)) key =
        child.items.set i (e.set value r) := by
      rw [listAt, show Node.entry? (node.set value (.key key :: .item i :: r)) key = _ from hset,
        Option.getD_some, Node.set_cons hitem]
      cases child with
      | sequence items => rfl
      | _ => cases he
    rw [hnew, List.map_set, hf]
    refine List.ext_getElem? fun j => ?_
    by_cases hj : i = j
    · subst hj
      have hlt := (List.getElem?_eq_some_iff.1 he).1
      rw [List.getElem?_set_self (by simpa using hlt), List.getElem?_map, he, Option.map_some]
    · rw [List.getElem?_set_ne hj]

theorem listAt_set_of_ne {node : Node} {key key' : String} (hne : key' ≠ key) (value : Node)
    (r : List Step) : listAt (node.set value (.key key :: r)) key' = listAt node key' := by
  rw [listAt, listAt, entry?_set_of_ne hne]

theorem fieldOutline_set {kind : EntityKind} {entity : Node} {name : String} (hid : name ≠ "id")
    (value : Node) (r : List Step) :
    fieldOutline kind (entity.set value (.key name :: r)) = fieldOutline kind entity := by
  have hmapping := (Node.sameKind_set entity value (.key name) r).1
  have hsome : ∀ spec : FieldSpec,
      (Node.entry? (entity.set value (.key name :: r)) spec.name).isSome =
        (entity.entry? spec.name).isSome := fun spec => isSome_entry?_set _ _ _ _ _
  simp only [fieldOutline, hmapping, entry?_set_of_ne (Ne.symm hid), hsome]

theorem entityOutline_set {kind : EntityKind} {entity : Node} {name : String} (hid : name ≠ "id")
    (hmode : name ≠ EntityKind.operatingMode.collection) (value : Node) (r : List Step) :
    entityOutline kind (entity.set value (.key name :: r)) = entityOutline kind entity := by
  rw [entityOutline, entityOutline, fieldOutline_set hid, listAt_set_of_ne (Ne.symm hmode)]

/-- Replacing something below an element of a list at the top of a configuration keeps the
outline if it keeps that of the element. -/
theorem alike_set_listed {root e : Node} {kind : EntityKind} (hk : kind ∈ EntityKind.listed)
    {i : Nat} (he : (listAt root kind.collection)[i]? = some e) {value : Node} {r : List Step}
    (hf : entityOutline kind (e.set value r) = entityOutline kind e) :
    Alike root (root.set value (listedPosition kind i ++ r)) where
  listed kind' hk' := by
    by_cases hsame : kind' = kind
    · subst hsame
      exact (map_listAt_set he hf).symm
    · have hne : kind'.collection ≠ kind.collection :=
        fun hcoll => hsame (collection_inj hk' hk hcoll)
      exact congrArg _ (listAt_set_of_ne hne value _).symm
  fields spec _ := (isSome_entry?_set _ _ _ _ _).symm
  time := (entry?_set_of_ne (Ne.symm (collection_ne hk).1) _ _).symm
  options := (entry?_set_of_ne (Ne.symm (collection_ne hk).2) _ _).symm

/-- **Replacing the value of a field** leads to a configuration that is alike. -/
theorem alike_set {root : Node} {site : FieldSite} (h : site ∈ fieldSites root) (value : Node) :
    Alike root (root.set value site.position) := by
  obtain ⟨path, kind, entity, ho, hs⟩ := owns_of_mem_fieldSites h
  obtain ⟨spec, hspec, old, hv, heq⟩ := mem_ownSites.1 hs
  obtain ⟨hid, hmode⟩ := name_ne hspec
  have hp : site.position = site.owner ++ [.key spec.name] := by rw [heq, FieldSite.position]
  rw [hp]
  cases ho with
  | model ho =>
    obtain ⟨hlisted, htime, hoptions⟩ := model_name_ne hspec
    rw [ho]
    refine ⟨fun kind hk => ?_, fun spec' _ => ?_, ?_, ?_⟩
    · exact congrArg _ (listAt_set_of_ne (Ne.symm (hlisted kind hk)) value _).symm
    · exact (isSome_entry?_set _ _ _ _ _).symm
    · exact (entry?_set_of_ne (Ne.symm htime) _ _).symm
    · exact (entry?_set_of_ne (Ne.symm hoptions) _ _).symm
  | listed hk he ho =>
    rw [ho]
    exact alike_set_listed hk he (entityOutline_set hid hmode value [])
  | @mode i j t m ht hm ho =>
    rw [ho, modePosition, List.append_assoc]
    refine alike_set_listed (by decide) ht ?_
    have hmodes := map_listAt_set (f := fieldOutline .operatingMode) hm
      (fieldOutline_set hid value [])
    have hcoll : EntityKind.operatingMode.collection ≠ "id" := by decide
    exact congrArg₂ Prod.mk (fieldOutline_set hcoll value _) hmodes

/-- Replacing the values of several fields leads to a configuration that is alike. -/
theorem alike_fill {root : Node} {ps : List (List Step × Node)}
    (h : ∀ a ∈ ps, ∃ site ∈ fieldSites root, a.1 = site.position) : Alike root (root.fill ps) := by
  induction ps generalizing root with
  | nil => exact Alike.refl root
  | cons a rest ih =>
    obtain ⟨site, hs, hp⟩ := h a List.mem_cons_self
    have hfirst : Alike root (root.set a.2 a.1) := hp ▸ alike_set hs a.2
    rw [Node.fill_cons]
    refine hfirst.trans (ih fun b hb => ?_)
    obtain ⟨site', hs', hp'⟩ := h b (List.mem_cons_of_mem _ hb)
    refine ⟨site'.readIn (root.set a.2 a.1), ?_, hp'⟩
    rw [hfirst.fieldSites]
    exact List.mem_map.2 ⟨site', hs', rfl⟩

end EnergyPlan.Fields
