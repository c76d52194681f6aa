/-
# Everything wrong is reported

A model is built element by element. An element of a list on its own is either an entity or
the violations that reading and checking it yield, and no element changes what another one
is. A model comes out exactly if every element of every list is an entity, and then there is
one entity for each element, in the same order and with the same id. Otherwise what is
reported is the row of what the time structure, the fields of the model and the elements of
each list yield on their own, and after them what is wrong with the composition of the
entities that were read.

Key definitions: `elements`, `readAlone`, `violationsOf`, `ownViolations`, `ReadList`,
`EnergyModel.ReadFrom`.
Key theorems: `value_collect`, `notes_collect`, `readList_iff`, `buildModel_reports`.
-/
import EnergyPlan.Proofs.Composition
import EnergyPlan.Proofs.Members

namespace EnergyPlan

open Config Fields

/-- The elements of the list of a kind, with their positions. -/
def elements (root : Node) (kind : EntityKind) : List (Node × Nat) :=
  ((root.given? kind.collection).getD .null).items.zipIdx

/-- The violation of something else in the place of the list of a kind. -/
def misplaced (root : Node) (kind : EntityKind) : List Violation :=
  if (root.given? kind.collection).all Node.isSequence then []
  else [⟨kind.collection, "must be a list of " ++ kind.name ++ " entries"⟩]

/-- What went wrong, if anything did. -/
def violationsOf {α : Type} : Except (List Violation) α → List Violation
  | .ok _ => []
  | .error violations => violations

section

variable {α : Type}

/-- An element of a list on its own: the entity, or all its violations. -/
def readAlone (kind : EntityKind) (parse : Node → String → Reading α)
    (check : α → String → List Violation) (element : Node × Nat) : Except (List Violation) α :=
  let path := kind.collection ++ "." ++ element.1.label element.2
  validate check path (parse element.1 path)

/-- What the list of a kind and each of its elements yield, one after the other. -/
def ownViolations (root : Node) (kind : EntityKind) (parse : Node → String → Reading α)
    (check : α → String → List Violation) : List Violation :=
  misplaced root kind ++
    (elements root kind).flatMap fun element => violationsOf (readAlone kind parse check element)

/-- There is one entity for each element of a list, in the same order: what the element is on its
own, with its id. -/
def ReadList (root : Node) (kind : EntityKind) (parse : Node → String → Reading α)
    (check : α → String → List Violation) (heading : α → Heading) (entities : List α) : Prop :=
  misplaced root kind = [] ∧
    List.Forall₂ (fun element entity => readAlone kind parse check element = .ok entity ∧
      element.1.id? = some (heading entity).id) (elements root kind) entities

variable {kind : EntityKind} {parse : Node → String → Reading α}
  {check : α → String → List Violation} {root : Node}

/-! ### One list -/

/-- What cannot be an entity has a violation. -/
theorem violationsOf_validate_eq_nil_iff {path : String} {parsed : Reading α} :
    violationsOf (validate check path parsed) = [] ↔
      validate check path parsed = .ok parsed.value := by
  unfold validate
  dsimp only
  split
  · simp [violationsOf]
  · next h => simpa [violationsOf] using h

theorem value_collectItems (items : List (Node × Nat)) :
    (collectItems (fun node path => validate check path (parse node path)) kind.collection
      items).value =
        items.filterMap fun element => (readAlone kind parse check element).toOption := by
  induction items with
  | nil => rfl
  | cons element rest ih =>
    rw [collectItems, List.filterMap_cons, readAlone]
    split
    · next entity h =>
      rw [h, ← ih]
      rfl
    · next violations h =>
      rw [h, ← ih]
      rfl

theorem notes_collectItems (items : List (Node × Nat)) :
    (collectItems (fun node path => validate check path (parse node path)) kind.collection
      items).notes =
        items.flatMap fun element => violationsOf (readAlone kind parse check element) := by
  induction items with
  | nil => rfl
  | cons element rest ih =>
    rw [collectItems, List.flatMap_cons, readAlone]
    split
    · next entity h =>
      rw [h, ← ih, Noted.notes_bind, Noted.notes_pure, List.append_nil]
      rfl
    · next violations h =>
      rw [h, ← ih]
      rfl

/-- The entities of a list are those that its elements are on their own. -/
theorem value_collect :
    (collect root kind parse check).value = (elements root kind).filterMap fun element =>
      (readAlone kind parse check element).toOption := by
  unfold collect elements
  split
  · next h => simp [h, Node.items]
  · next items h =>
    rw [h, value_collectItems]
    rfl
  · next value hother h =>
    have hitems : value.items = [] := by
      cases value <;> first | rfl | exact absurd rfl (hother _)
    simp [h, hitems]

/-- What is wrong with a list is what is wrong with each of its elements on its own. -/
theorem notes_collect :
    (collect root kind parse check).notes = ownViolations root kind parse check := by
  unfold collect ownViolations elements misplaced
  split
  · next h => simp [h, Node.items]
  · next items h =>
    rw [h, notes_collectItems]
    rfl
  · next value hother h =>
    have hseq : value.isSequence = false ∧ value.items = [] := by
      cases value <;> first | exact ⟨rfl, rfl⟩ | exact absurd rfl (hother _)
    simp [h, hseq]

/-- Nothing is wrong with a list exactly if each of its elements is an entity. -/
theorem readList_iff {heading : α → Heading}
    (hid : ∀ node path, (parse node path).notes = [] →
      node.id? = some (heading (parse node path).value).id) {entities : List α} :
    ReadList root kind parse check heading entities ↔
      ownViolations root kind parse check = [] ∧
        (collect root kind parse check).value = entities := by
  rw [ReadList, ownViolations, List.append_eq_nil_iff, and_assoc, value_collect,
    List.flatMap_eq_nil_iff]
  refine and_congr_right fun _ => ?_
  generalize elements root kind = all
  induction all generalizing entities with
  | nil => simp [eq_comm]
  | cons element rest ih =>
    rw [List.forall_mem_cons, List.filterMap_cons, readAlone, violationsOf_validate_eq_nil_iff]
    constructor
    · intro h
      obtain ⟨entity, others, ⟨hread, -⟩, hrest, rfl⟩ := List.forall₂_cons_left_iff.1 h
      obtain ⟨hnotes, hvalue⟩ := ih.1 hrest
      dsimp only [readAlone] at hread
      rw [hread, hvalue]
      exact ⟨⟨congrArg _ (validate_eq_ok hread).1.symm, hnotes⟩, rfl⟩
    · rintro ⟨⟨hread, hnotes⟩, hvalue⟩
      rw [hread] at hvalue
      subst hvalue
      refine List.Forall₂.cons ⟨hread, ?_⟩ (ih.2 ⟨hnotes, rfl⟩)
      exact hid _ _ (validate_eq_ok hread).2.1

end

/-! ### All lists -/

variable {R : Type} [Zero R] [One R] [LT R] [DecidableLT R] [Scalar R]

section

variable {sets : MemberSets} {node : Node} {path : String}

theorem id?_of_parseRegionGroup (h : (parseRegionGroup (R := R) sets node path).notes = []) :
    node.id? = some (parseRegionGroup (R := R) sets node path).value.id :=
  id?_of_parseMapping RegionGroup.toHeading (by decide +kernel)
    (fun _ h => ⟨(List.append_eq_nil_iff.1 h).1, rfl⟩) h

theorem id?_of_parseCommodity (h : (parseCommodity (R := R) sets node path).notes = []) :
    node.id? = some (parseCommodity (R := R) sets node path).value.id :=
  id?_of_parseMapping Commodity.toHeading (by decide +kernel)
    (fun _ h => ⟨(List.append_eq_nil_iff.1 h).1, rfl⟩) h

theorem id?_of_parseImpact (h : (parseImpact (R := R) sets node path).notes = []) :
    node.id? = some (parseImpact (R := R) sets node path).value.id :=
  id?_of_parseMapping Impact.toHeading (by decide +kernel)
    (fun _ h => ⟨(List.append_eq_nil_iff.1 h).1, rfl⟩) h

theorem id?_of_parseTrade (h : (parseTrade (R := R) sets node path).notes = []) :
    node.id? = some (parseTrade (R := R) sets node path).value.id :=
  id?_of_parseMapping Trade.toHeading (by decide +kernel)
    (fun _ h => ⟨(List.append_eq_nil_iff.1 h).1, rfl⟩) h

end

variable [Add R] [Sub R] [Neg R] [LE R] [DecidableLE R]

/-- Each list of a model is read, element by element, from that of its kind in a configuration. -/
structure EnergyModel.ReadFrom (model : EnergyModel R) (root : Node) (sets : MemberSets)
    (tolerance : R) : Prop where
  regions : ReadList root .region (parseRegion sets) noRules (·.toHeading) model.regions
  regionGroups : ReadList root .regionGroup (parseRegionGroup sets) RegionGroup.check
    (·.toHeading) model.regionGroups
  commodities : ReadList root .commodity (parseCommodity sets) (Commodity.check tolerance)
    (·.toHeading) model.commodities
  impacts : ReadList root .impact (parseImpact sets) Impact.check (·.toHeading) model.impacts
  technologies : ReadList root .technology (parseTechnology sets) Technology.check
    (·.toHeading) model.technologies
  storage : ReadList root .storage (parseStorage sets) Storage.check (·.toHeading) model.storage
  trade : ReadList root .trade (parseTrade sets) Trade.check (·.toHeading) model.trade

/-- The fields of the model as a whole on their own: the fields, or all their violations. -/
def readFields (sets : MemberSets) (root : Node) : Except (List Violation) (ModelFields R) :=
  validate noRules "" (parseModelFields sets root)

/-- What the time structure, the fields of the model and the elements of each list yield on their
own, one after the other. -/
def allOwnViolations (root : Node) (time : TimeStructure R) (sets : MemberSets) (tolerance : R) :
    List Violation :=
  time.check tolerance ++ violationsOf (readFields (R := R) sets root) ++
    ownViolations root .region (parseRegion sets) noRules ++
    ownViolations root .regionGroup (parseRegionGroup (R := R) sets) RegionGroup.check ++
    ownViolations root .commodity (parseCommodity sets) (Commodity.check tolerance) ++
    ownViolations root .impact (parseImpact (R := R) sets) Impact.check ++
    ownViolations root .technology (parseTechnology (R := R) sets) Technology.check ++
    ownViolations root .storage (parseStorage (R := R) sets) Storage.check ++
    ownViolations root .trade (parseTrade (R := R) sets) Trade.check

variable {root : Node} {time : TimeStructure R} {sets : MemberSets} {tolerance : R}

/-- What is wrong with a model is what is wrong with its parts, and with how they fit together. -/
theorem notes_readModel : (readModel root time sets tolerance).notes =
    allOwnViolations root time sets tolerance ++
      (readModel root time sets tolerance).value.composition := by
  simp only [allOwnViolations, ← notes_collect, List.append_assoc, readFields]
  unfold readModel
  cases validate noRules "" (parseModelFields (R := R) sets root) <;>
    simp only [Noted.notes_bind, Noted.notes_pure, Noted.value_bind, Noted.value_pure,
      List.append_nil] <;>
    rfl

/-- Where nothing is wrong with a part on its own, the model is what the parts are. -/
theorem readFrom_of_allOwnViolations (h : allOwnViolations root time sets tolerance = []) :
    time.check tolerance = [] ∧
      readFields sets root = .ok (readModel root time sets tolerance).value.toModelFields ∧
        (readModel root time sets tolerance).value.ReadFrom root sets tolerance := by
  simp only [allOwnViolations, List.append_eq_nil_iff] at h
  obtain ⟨⟨⟨⟨⟨⟨⟨⟨htime, hfields⟩, hr⟩, hg⟩, hc⟩, hi⟩, ht⟩, hs⟩, htr⟩ := h
  rw [readFields, violationsOf_validate_eq_nil_iff] at hfields
  refine ⟨htime, ?_, ?_⟩
  · rw [readFields, hfields]
    unfold readModel
    rw [hfields]
    rfl
  · exact {
      regions := (readList_iff fun _ _ h => id?_of_parseRegion h).2 ⟨hr, rfl⟩
      regionGroups := (readList_iff fun _ _ h => id?_of_parseRegionGroup h).2 ⟨hg, rfl⟩
      commodities := (readList_iff fun _ _ h => id?_of_parseCommodity h).2 ⟨hc, rfl⟩
      impacts := (readList_iff fun _ _ h => id?_of_parseImpact h).2 ⟨hi, rfl⟩
      technologies := (readList_iff fun _ _ h => id?_of_parseTechnology h).2 ⟨ht, rfl⟩
      storage := (readList_iff fun _ _ h => id?_of_parseStorage h).2 ⟨hs, rfl⟩
      trade := (readList_iff fun _ _ h => id?_of_parseTrade h).2 ⟨htr, rfl⟩ }

/-- A model that is what the parts are is the one that is read, and nothing is wrong with a
part. -/
theorem readModel_of_readFrom {model : EnergyModel R} (htime : model.time.check tolerance = [])
    (hfields : readFields sets root = .ok model.toModelFields)
    (hlists : model.ReadFrom root sets tolerance) :
    allOwnViolations root model.time sets tolerance = [] ∧
      (readModel root model.time sets tolerance).value = model := by
  obtain ⟨hr, hrv⟩ := (readList_iff fun _ _ h => id?_of_parseRegion h).1 hlists.regions
  obtain ⟨hg, hgv⟩ := (readList_iff fun _ _ h => id?_of_parseRegionGroup h).1 hlists.regionGroups
  obtain ⟨hc, hcv⟩ := (readList_iff fun _ _ h => id?_of_parseCommodity h).1 hlists.commodities
  obtain ⟨hi, hiv⟩ := (readList_iff fun _ _ h => id?_of_parseImpact h).1 hlists.impacts
  obtain ⟨ht, htv⟩ := (readList_iff fun _ _ h => id?_of_parseTechnology h).1 hlists.technologies
  obtain ⟨hs, hsv⟩ := (readList_iff fun _ _ h => id?_of_parseStorage h).1 hlists.storage
  obtain ⟨htr, htrv⟩ := (readList_iff fun _ _ h => id?_of_parseTrade h).1 hlists.trade
  constructor
  · have hnothing : violationsOf (readFields (R := R) sets root) = [] := by
      rw [hfields]
      rfl
    rw [allOwnViolations, htime, hnothing, hr, hg, hc, hi, ht, hs, htr]
    rfl
  · unfold readModel
    rw [readFields] at hfields
    rw [hfields]
    simp only [Noted.value_bind, Noted.value_pure, hrv, hgv, hcv, hiv, htv, hsv, htrv]

/-- **A model comes out exactly if everything in the configuration is right on its own and fits
together, and otherwise everything is reported.** A model that comes out has the given time
structure, the fields, and one entity for each element of each list, in the same order and with
the same id. What is reported otherwise is everything that the time structure, the fields and each
element yield on their own, in this order, and then what is wrong with the composition of the
entities that could be read. -/
theorem buildModel_reports :
    (∀ model, buildModel root time sets tolerance = .ok model ↔
      time.check tolerance = [] ∧ model.time = time ∧
        readFields sets root = .ok model.toModelFields ∧ model.ReadFrom root sets tolerance ∧
          model.Composed) ∧
    ∀ violations, buildModel root time sets tolerance = .error violations ↔
      violations ≠ [] ∧ violations = allOwnViolations root time sets tolerance ++
        (readModel root time sets tolerance).value.composition := by
  refine ⟨fun model => ?_, fun violations => ?_⟩
  · rw [buildModel, Noted.checked_eq_ok_iff, notes_readModel, List.append_eq_nil_iff]
    constructor
    · rintro ⟨⟨hown, hcomposed⟩, rfl⟩
      obtain ⟨htime, hfields, hlists⟩ := readFrom_of_allOwnViolations hown
      exact ⟨htime, rfl, hfields, hlists, EnergyModel.composition_eq_nil_iff.1 hcomposed⟩
    · rintro ⟨htime, rfl, hfields, hlists, hcomposed⟩
      obtain ⟨hown, hvalue⟩ := readModel_of_readFrom htime hfields hlists
      rw [hvalue]
      exact ⟨⟨hown, EnergyModel.composition_eq_nil_iff.2 hcomposed⟩, rfl⟩
  · rw [buildModel, Noted.checked_eq_error_iff, notes_readModel]
    exact and_congr_right fun _ => eq_comm

end EnergyPlan
