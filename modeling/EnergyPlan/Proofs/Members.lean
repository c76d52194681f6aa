/-
# The members of a built model are declared

Defaults are filled over the members that a configuration declares: the ids in its lists and the
labels of its time structure, as they were before the fields were expanded. A model is compiled
over the ids of its entities as they were read from the expanded configuration. Both are the same
labels where defaults need them: expansion keeps the ids, inference declares nothing besides,
destinations are declared as regions are, and an entity whose id cannot be read is a violation.

Key definitions: `IndexSets.Tuple`.
Key theorems: `alike_of_broadcastModel`, `declared_of_expandModel`, `id?_of_text`,
`declared_of_mem_members`, `mem_product_of_tuple`.
-/
import EnergyPlan.Proofs.Built
import EnergyPlan.Proofs.References
import EnergyPlan.Proofs.Shorthand.Replaced
import EnergyPlan.Proofs.Stages

namespace EnergyPlan

open Config Fields Text

/-- A key has one member of the sets for each dimension. -/
def IndexSets.Tuple (sets : IndexSets) (dimensions : List Dimension) (key : Key) : Prop :=
  key.length = dimensions.length ∧ ∀ e ∈ dimensions.zip key, e.2 ∈ sets.members e.1

instance (sets : IndexSets) (dimensions : List Dimension) (key : Key) :
    Decidable (sets.Tuple dimensions key) :=
  inferInstanceAs (Decidable (_ ∧ _))

/-! ### What is declared -/

section

variable {R : Type}

/-- Expansion leads to a configuration with the same outline. -/
theorem alike_of_broadcastModel {sets : MemberSets} {root expanded : Node}
    (h : broadcastModel sets root = .ok expanded) : Alike root expanded := by
  rw [broadcastModel, foldlM_broadcastSite] at h
  cases he : expandable sets (fieldSites root) with
  | error e =>
    rw [he] at h
    cases h
  | ok _ =>
    rw [he] at h
    cases h
    apply alike_fill
    intro a ha
    obtain ⟨site, hs, rfl⟩ := List.mem_map.1 ha
    exact ⟨site, hs, rfl⟩

/-- What is declared are the ids and the time labels of the expanded configuration. -/
theorem declared_of_expandModel [One R] [Div R] [Scalar R] {root : Node} {expanded : Expanded R}
    (h : expandModel root = .ok expanded) (d : Dimension) :
    expanded.sets.declared d =
      (declareIdentifiers expanded.root expanded.time.sets).members d := by
  obtain ⟨time, ht, h⟩ := bind_eq_ok h
  obtain ⟨sets, hs, h⟩ := bind_eq_ok h
  obtain ⟨tree, hb, h⟩ := bind_eq_ok h
  cases h
  have hgrows := grows_inferSets (eq_ok_of_mapError hs)
  have hall : (declareIdentifiers root time.sets).AllDeclared :=
    allDeclared_declareIdentifiers root (allDeclared_sets time)
  have hids : declareIdentifiers tree time.sets = declareIdentifiers root time.sets := by
    rw [declareIdentifiers, declareIdentifiers,
      (alike_of_broadcastModel (eq_ok_of_mapError hb)).identifiers]
  rw [hids, ← hall.declared_eq, MemberSets.declared, hgrows.given]
  rfl

variable (root : Node) (time : TimeStructure R)

/-- The labels of the time dimensions are members beside the ids. -/
theorem members_declareIdentifiers (d : Dimension) (label : String) :
    label ∈ (declareIdentifiers root time.sets).members d ↔
      (∃ ids ∈ identifiers root, ids.1 = d ∧ label ∈ ids.2) ∨ label ∈ time.sets.members d := by
  have hfold : ∀ (all : List (Dimension × List String)) (sets : MemberSets),
      label ∈ (all.foldl (fun sets ids => sets.declareAll ids.1 ids.2) sets).members d ↔
        (∃ ids ∈ all, ids.1 = d ∧ label ∈ ids.2) ∨ label ∈ sets.members d := by
    intro all
    induction all with
    | nil => simp
    | cons first rest ih =>
      intro sets
      rw [List.foldl_cons, ih, MemberSets.members_declareAll]
      simp only [List.mem_cons, or_and_right, exists_or, exists_eq_left]
      by_cases hd : first.1 = d
      · rw [if_pos hd, mem_foldl_appendNew, and_iff_right hd]
        exact or_left_comm.trans or_assoc.symm
      · simp only [hd, if_false, false_and, false_or]
  exact hfold _ _

/-- The dimensions whose members are the ids of a kind at the top of a configuration. -/
def identified : List (Dimension × EntityKind) :=
  [(.region, .region), (.linkedRegion, .region), (.technology, .technology),
    (.storage, .storage)]

/-- The ids in a list are declared in the dimension of its kind. -/
theorem declared_of_listed {d : Dimension} {k : EntityKind} (h : (d, k) ∈ identified)
    {label : String} (hl : label ∈ listedIds root k.collection) :
    label ∈ (declareIdentifiers root time.sets).members d := by
  rw [members_declareIdentifiers]
  refine .inl ⟨(d, listedIds root k.collection), ?_, rfl, hl⟩
  simp only [identified, List.mem_cons, Prod.mk.injEq, List.not_mem_nil, or_false] at h
  rcases h with ⟨rfl, rfl⟩ | ⟨rfl, rfl⟩ | ⟨rfl, rfl⟩ | ⟨rfl, rfl⟩ <;> simp [identifiers]

/-- The labels of a time dimension are declared. -/
theorem declared_of_time {d : Dimension} {label : String} (hl : label ∈ time.sets.members d) :
    label ∈ (declareIdentifiers root time.sets).members d :=
  (members_declareIdentifiers root time d label).2 (.inr hl)

theorem members_sets_year : time.sets.members .year = time.yearLabels.foldl appendNew [] := by
  simp only [TimeStructure.sets, TimeStructure.memberSets, MemberSets.members_declareAll,
    reduceCtorEq, if_false, if_true]
  rfl

theorem members_sets_timeslice :
    time.sets.members .timeslice = time.timeslices.foldl appendNew [] := by
  simp only [TimeStructure.sets, TimeStructure.memberSets, MemberSets.members_declareAll,
    reduceCtorEq, if_false, if_true]
  rfl

end

/-! ### The ids that were read -/

/-- An id that was read without a violation is the one that the mapping shows. -/
theorem id?_of_text {reader : Reader} (hk : (reader.kind.field? "id").any FieldSpec.required)
    (h : (reader.text "id").notes = []) : reader.entity.id? = some (reader.text "id").value := by
  have hspec : (reader.spec "id").required = true := by
    rw [Reader.spec]
    cases hf : reader.kind.field? "id" with
    | none =>
      rw [hf] at hk
      cases hk
    | some spec =>
      rw [hf] at hk
      exact hk
  unfold Reader.text at h ⊢
  cases hgiven : reader.entity.given? "id" with
  | none =>
    simp only [hgiven, hspec, Reading.reportIf, if_true, Noted.notes_bind] at h
    cases h
  | some value =>
    simp only [hgiven] at h ⊢
    rw [Node.id?, (Option.filter_eq_some_iff.1 hgiven).1, Option.bind_some]
    cases htext : value.text? with
    | none =>
      rw [htext] at h
      cases h
    | some text => rfl

/-- What follows the heading of an entity leaves its id, and what was wrong with it stays wrong. -/
theorem id?_of_parseHeading {reader : Reader}
    (hk : (reader.kind.field? "id").any FieldSpec.required)
    (h : (parseHeading reader).notes = []) :
    reader.entity.id? = some (parseHeading reader).value.id :=
  id?_of_text hk (List.append_eq_nil_iff.1 h).1

/-- An entity that was read from a mapping without a violation has the id of the mapping, if it
starts with its heading. -/
theorem id?_of_parseMapping {α : Type} {kind : EntityKind} {sets : MemberSets} {node : Node}
    {path : String} {blank : α} {extra : List String} {parse : Reader → Reading α}
    (heading : α → Heading) (hk : (kind.field? "id").any FieldSpec.required)
    (hparse : ∀ reader, (parse reader).notes = [] → (parseHeading reader).notes = [] ∧
      heading (parse reader).value = (parseHeading reader).value)
    (h : (parseMapping kind sets node path blank extra parse).notes = []) :
    node.id? = some (heading (parseMapping kind sets node path blank extra parse).value).id := by
  unfold parseMapping at h ⊢
  by_cases hm : node.isMapping = true
  · rw [if_pos hm] at h ⊢
    obtain ⟨hnotes, hheading⟩ := hparse _ (List.append_eq_nil_iff.1 h).2
    show _ = some (heading (parse ⟨node, kind, path, sets⟩).value).id
    rw [hheading]
    exact id?_of_parseHeading hk hnotes
  · rw [if_neg hm] at h
    cases h

section

variable {R : Type} [Zero R] [One R] [LT R] [DecidableLT R] [Scalar R] {sets : MemberSets}
  {node : Node} {path : String}

theorem id?_of_parseRegion (h : (parseRegion sets node path).notes = []) :
    node.id? = some (parseRegion sets node path).value.id :=
  id?_of_parseMapping Region.toHeading (by decide +kernel)
    (fun _ h => ⟨(List.append_eq_nil_iff.1 h).1, rfl⟩) h

theorem id?_of_parseTechnology (h : (parseTechnology (R := R) sets node path).notes = []) :
    node.id? = some (parseTechnology (R := R) sets node path).value.id :=
  id?_of_parseMapping Technology.toHeading (by decide +kernel)
    (fun _ h => ⟨(List.append_eq_nil_iff.1 h).1, rfl⟩) h

theorem id?_of_parseStorage (h : (parseStorage (R := R) sets node path).notes = []) :
    node.id? = some (parseStorage (R := R) sets node path).value.id :=
  id?_of_parseMapping Storage.toHeading (by decide +kernel)
    (fun _ h => ⟨(List.append_eq_nil_iff.1 h).1, rfl⟩) h

end

/-! ### The members of a built model -/

/-- The dimensions of the fields that are filled. -/
def filledDimensions : List Dimension :=
  [.region, .linkedRegion, .year, .timeslice, .technology, .storage]

section

variable {R : Type} [Zero R] [One R] [Add R] [Sub R] [Neg R] [LT R] [DecidableLT R] [LE R]
  [DecidableLE R] [Scalar R]

/-- The ids of the entities that were collected are listed. -/
theorem mem_listedIds {α : Type} {root : Node} {kind : EntityKind}
    {parse : Node → String → Reading α} {check : α → String → List Violation} (id : α → String)
    (hid : ∀ node path, (parse node path).notes = [] →
      node.id? = some (id (parse node path).value))
    {entity : α} (h : entity ∈ (collect root kind parse check).value) :
    id entity ∈ listedIds root kind.collection := by
  obtain ⟨node, hm, path, rfl, hnotes, -⟩ := mem_collect h
  exact List.mem_filterMap.2 ⟨node, hm, hid node path hnotes⟩

variable [Div R] {root : Node} {expanded : Expanded R} {tolerance : R} {model : EnergyModel R}
  {sets : IndexSets}

/-- **What a model is compiled over was declared**, in the dimensions that defaults are filled
over. -/
theorem declared_of_mem_members (he : expandModel root = .ok expanded)
    (hb : buildModel expanded.root expanded.time expanded.sets tolerance = .ok model)
    (hs : deriveSets model = .ok sets) {d : Dimension} (hd : d ∈ filledDimensions)
    {label : String} (hl : label ∈ sets.members d) : label ∈ expanded.sets.declared d := by
  obtain rfl := (deriveSets_eq_ok_iff.1 hs).1
  obtain ⟨-, rfl⟩ := Noted.checked_eq_ok_iff.1 hb
  rw [declared_of_expandModel he]
  have hregion : label ∈ (IndexSets.ofModel
      (readModel expanded.root expanded.time expanded.sets tolerance).value).regions →
        label ∈ listedIds expanded.root EntityKind.region.collection := by
    intro h
    obtain ⟨region, hr, rfl⟩ := List.mem_map.1 (mem_sortedDistinct.1 h)
    exact mem_listedIds (fun region : Region => region.id) (fun _ _ => id?_of_parseRegion) hr
  simp only [filledDimensions, List.mem_cons, List.not_mem_nil, or_false] at hd
  rcases hd with rfl | rfl | rfl | rfl | rfl | rfl
  · exact declared_of_listed _ _ (k := .region) (by decide) (hregion hl)
  · exact declared_of_listed _ _ (k := .region) (by decide) (hregion hl)
  · obtain ⟨year, hy, rfl⟩ := List.mem_map.1 hl
    apply declared_of_time
    rw [members_sets_year, mem_foldl_appendNew]
    exact .inl (List.mem_map_of_mem (List.mem_mergeSort.1 hy))
  · apply declared_of_time
    rw [members_sets_timeslice, mem_foldl_appendNew]
    exact .inl hl
  · obtain ⟨technology, ht, rfl⟩ := List.mem_map.1 (mem_sortedDistinct.1 hl)
    refine declared_of_listed _ _ (k := .technology) (by decide) ?_
    exact mem_listedIds (fun technology : Technology R => technology.id)
      (fun _ _ => id?_of_parseTechnology) ht
  · obtain ⟨storage, ho, rfl⟩ := List.mem_map.1 (mem_sortedDistinct.1 hl)
    refine declared_of_listed _ _ (k := .storage) (by decide) ?_
    exact mem_listedIds (fun storage : Storage R => storage.id)
      (fun _ _ => id?_of_parseStorage) ho

/-- The tuples over such dimensions are among those that defaults are filled at. -/
theorem mem_product_of_tuple (he : expandModel root = .ok expanded)
    (hb : buildModel expanded.root expanded.time expanded.sets tolerance = .ok model)
    (hs : deriveSets model = .ok sets) {dimensions : List Dimension}
    (hd : ∀ d ∈ dimensions, d ∈ filledDimensions) {key : Key} (hk : sets.Tuple dimensions key) :
    key ∈ expanded.sets.product dimensions := by
  refine MemberSets.mem_product.2 ⟨hk.1, fun e hm => ?_⟩
  exact declared_of_mem_members he hb hs (hd e.1 (List.of_mem_zip hm).1) (hk.2 e hm)

end

end EnergyPlan
