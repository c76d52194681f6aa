/-
# Members in order of appearance and tuples in order of declaration

Members are declared or found in the data, one by one or several at once, in any order; a
member may be found before it is declared. A change appends what it names to the members of
its dimension, and to the declared ones if it declares (`members_apply`, `declared_apply`),
each text unless it is there. So after any changes the members of a dimension are the texts
that were named for it, in order of first appearance, and the declared ones those that were
declared, in order of first declaration.

Tuples are enumerated over the declared members: each of them once, in lexicographic order of
the places at which its members were declared.

Key definitions: `Appearances`, `MemberSets.Change`, `MemberSets.after`, `MemberSets.places`.
Key theorems: `appearances_foldl`, `members_after`, `declared_after`, `pairwise_product`,
`product_eq_nil_iff`, `after_enumerated`.
-/
import EnergyPlan.Index.Members
import Mathlib.Data.List.Forall2
import Mathlib.Data.List.Induction
import Mathlib.Data.List.Lex
import Mathlib.Data.List.Nodup

namespace EnergyPlan

open Text

/-! ### Order of first appearance -/

/-- A list has the same texts as another, in the order in which they first appear there. -/
structure Appearances (seen texts : List String) : Prop where
  mem : ∀ s, s ∈ seen ↔ s ∈ texts
  ordered : seen.Pairwise fun s t => texts.idxOf s < texts.idxOf t

namespace Appearances

variable {seen texts : List String}

theorem nodup (h : Appearances seen texts) : seen.Nodup :=
  h.ordered.imp fun {s t} hlt heq => by simp [heq] at hlt

theorem nil : Appearances [] [] := ⟨fun _ => Iff.rfl, .nil⟩

/-- Texts that appear stay where they appeared first. -/
theorem ordered_append (h : Appearances seen texts) (s : String) :
    seen.Pairwise fun t u => (texts ++ [s]).idxOf t < (texts ++ [s]).idxOf u := by
  refine h.ordered.imp_of_mem fun {t u} ht hu hlt => ?_
  rw [List.idxOf_append_of_mem ((h.mem t).1 ht), List.idxOf_append_of_mem ((h.mem u).1 hu)]
  exact hlt

/-- One more text is appended if it is new. -/
theorem appendNew (h : Appearances seen texts) (s : String) :
    Appearances (Text.appendNew seen s) (texts ++ [s]) := by
  refine ⟨fun t => by simp [mem_appendNew, h.mem t], ?_⟩
  unfold Text.appendNew
  by_cases hs : s ∈ seen
  · rw [if_pos hs]
    exact h.ordered_append s
  · rw [if_neg hs, List.pairwise_append]
    refine ⟨h.ordered_append s, List.pairwise_singleton .., fun t ht u hu => ?_⟩
    obtain rfl := List.mem_singleton.1 hu
    have hnew : u ∉ texts := fun hm => hs ((h.mem u).2 hm)
    have hold : t ∈ texts := (h.mem t).1 ht
    rw [List.idxOf_append_of_mem hold, List.idxOf_append_of_notMem hnew]
    have := List.idxOf_lt_length_iff.2 hold
    omega

end Appearances

/-- **Appending what is new keeps the order of first appearance.** -/
theorem appearances_foldl (texts : List String) :
    Appearances (texts.foldl appendNew []) texts := by
  induction texts using List.reverseRecOn with
  | nil => exact .nil
  | append_singleton texts s ih =>
    rw [List.foldl_append]
    exact ih.appendNew s

/-- In a list without repetitions a text before another is at a lesser place. -/
theorem pairwise_idxOf {texts : List String} (h : texts.Nodup) :
    texts.Pairwise fun s t => texts.idxOf s < texts.idxOf t := by
  apply List.pairwise_iff_getElem.2
  intro i j hi hj hij
  simpa only [h.idxOf_getElem i hi, h.idxOf_getElem j hj] using hij

namespace MemberSets

/-! ### Changes -/

/-- A change of the members. -/
inductive Change where
  | declare (dimension : Dimension) (member : String)
  | declareAll (dimension : Dimension) (members : List String)
  | infer (dimension : Dimension) (member : String)

namespace Change

/-- The members after a change. -/
def apply (sets : MemberSets) : Change → MemberSets
  | .declare dimension member => sets.declare dimension member
  | .declareAll dimension members => sets.declareAll dimension members
  | .infer dimension member => sets.infer dimension member

/-- The texts that a change names for a dimension. -/
def named (d : Dimension) : Change → List String
  | .declare dimension member => if dimension = d then [member] else []
  | .declareAll dimension members => if dimension = d then members else []
  | .infer dimension member => if dimension = d then [member] else []

/-- The texts that a change declares for a dimension. -/
def declared (d : Dimension) : Change → List String
  | .infer .. => []
  | change => change.named d

theorem declared_subset (d : Dimension) (change : Change) : change.declared d ⊆ change.named d := by
  cases change <;> simp [declared]

end Change

/-- The members after several changes, none being known at first. -/
def after (changes : List Change) : MemberSets := changes.foldl Change.apply empty

/-- A change appends the texts that it names. -/
theorem members_apply (sets : MemberSets) (change : Change) (d : Dimension) :
    (change.apply sets).members d = (change.named d).foldl appendNew (sets.members d) := by
  cases change with
  | declare dimension member =>
    simp only [Change.apply, Change.named, members_declare]
    split
    · next h => simp [h]
    · rfl
  | declareAll dimension members =>
    simp only [Change.apply, Change.named, members_declareAll]
    split
    · rfl
    · rfl
  | infer dimension member =>
    simp only [Change.apply, Change.named, members_infer]
    split
    · next h => simp [h]
    · rfl

/-- A change appends the texts that it declares to the declared ones. -/
theorem declared_apply (sets : MemberSets) (change : Change) (d : Dimension) :
    (change.apply sets).declared d = (change.declared d).foldl appendNew (sets.declared d) := by
  cases change with
  | declare dimension member =>
    simp only [Change.apply, Change.declared, Change.named, declared_declare]
    split
    · next h => simp [h]
    · rfl
  | declareAll dimension members =>
    simp only [Change.apply, Change.declared, Change.named, declared_declareAll]
    split
    · rfl
    · rfl
  | infer dimension member => exact declared_infer sets dimension d member

/-- Where each change appends some texts, several changes append those of each in turn. -/
theorem after_eq_foldl (read : MemberSets → List String) (texts : Change → List String)
    (hempty : read empty = [])
    (hstep : ∀ sets change, read (change.apply sets) = (texts change).foldl appendNew (read sets))
    (changes : List Change) : read (after changes) = (changes.flatMap texts).foldl appendNew [] := by
  induction changes using List.reverseRecOn with
  | nil => exact hempty
  | append_singleton changes change ih =>
    rw [after, List.foldl_append, List.flatMap_append, List.foldl_append, ← ih]
    simp [after, hstep]

/-- The members after several changes are the texts that they name, each where it is new. -/
theorem members_after (changes : List Change) (d : Dimension) :
    (after changes).members d = (changes.flatMap (Change.named d)).foldl appendNew [] :=
  after_eq_foldl (members · d) (Change.named d) (by simp [members, empty])
    (fun sets change => members_apply sets change d) changes

theorem declared_after (changes : List Change) (d : Dimension) :
    (after changes).declared d = (changes.flatMap (Change.declared d)).foldl appendNew [] :=
  after_eq_foldl (declared · d) (Change.declared d) (by simp [declared, empty])
    (fun sets change => declared_apply sets change d) changes

theorem declared_subset_members (changes : List Change) (d : Dimension) :
    (after changes).declared d ⊆ (after changes).members d := by
  intro s hs
  rw [declared_after, (appearances_foldl _).mem, List.mem_flatMap] at hs
  obtain ⟨change, hc, hs⟩ := hs
  rw [members_after, (appearances_foldl _).mem, List.mem_flatMap]
  exact ⟨change, hc, change.declared_subset d hs⟩

/-! ### Tuples -/

variable {sets : MemberSets} {dimensions : List Dimension}

/-- The place at which each label of a tuple was declared in its dimension. -/
def places (sets : MemberSets) (dimensions : List Dimension) (key : Key) : List Nat :=
  dimensions.zipWith (fun d label => (sets.declared d).idxOf label) key

/-- **Tuples are in lexicographic order of declaration**, the first dimension varying slowest. -/
theorem pairwise_product (h : ∀ d, (sets.declared d).Nodup) (dimensions : List Dimension) :
    (sets.product dimensions).Pairwise
      fun key key' => sets.places dimensions key < sets.places dimensions key' := by
  induction dimensions with
  | nil => simp [product]
  | cons d rest ih =>
    rw [product, List.pairwise_flatMap]
    constructor
    · -- below one label the labels of the other dimensions decide
      intro label _
      rw [List.pairwise_map]
      refine ih.imp fun hlt => ?_
      simpa [places] using hlt
    · refine (pairwise_idxOf (h d)).imp fun hlt key hk key' hk' => ?_
      obtain ⟨below, -, rfl⟩ := List.mem_map.1 hk
      obtain ⟨below', -, rfl⟩ := List.mem_map.1 hk'
      exact List.cons_lt_cons_iff.2 (.inl hlt)

theorem nodup_product (h : ∀ d, (sets.declared d).Nodup) (dimensions : List Dimension) :
    (sets.product dimensions).Nodup :=
  (pairwise_product h dimensions).imp fun hlt heq => by simp [heq] at hlt

/-- The tuples have one declared member for each dimension. -/
theorem mem_product_iff {key : Key} : key ∈ sets.product dimensions ↔
    List.Forall₂ (fun d label => label ∈ sets.declared d) dimensions key := by
  rw [mem_product, List.forall₂_iff_zip, eq_comm, Prod.forall]

/-- There is no tuple exactly if a dimension has no declared member. -/
theorem product_eq_nil_iff :
    sets.product dimensions = [] ↔ ∃ d ∈ dimensions, sets.declared d = [] := by
  induction dimensions with
  | nil => simp [product]
  | cons d rest ih =>
    simp only [product, List.flatMap_eq_nil_iff, List.map_eq_nil_iff, ih, List.exists_mem_cons_iff]
    by_cases hd : sets.declared d = []
    · simp [hd]
    · obtain ⟨label, hl⟩ := List.exists_mem_of_ne_nil _ hd
      simp only [hd, false_or]
      exact ⟨fun h => h label hl, fun h _ _ => h⟩

/-- **Members stay in order, and tuples enumerate the declared ones.** After any changes the
members of a dimension are the texts named for it, each once and in order of first appearance;
the declared ones are those declared, each once and in order of first declaration, and they are
members. Over any dimensions the tuples of declared members are enumerated, each once and in
lexicographic order of declaration, the first dimension varying slowest: the empty tuple over no
dimension, and none if a dimension has no declared member. -/
theorem after_enumerated (changes : List Change) :
    (∀ d, Appearances ((after changes).members d) (changes.flatMap (Change.named d)) ∧
      ((after changes).members d).Nodup ∧
      Appearances ((after changes).declared d) (changes.flatMap (Change.declared d)) ∧
      ((after changes).declared d).Nodup ∧
      (after changes).declared d ⊆ (after changes).members d) ∧
    (after changes).product [] = [[]] ∧
    ∀ dimensions,
      (∀ key, key ∈ (after changes).product dimensions ↔
        List.Forall₂ (fun d label => label ∈ (after changes).declared d) dimensions key) ∧
      ((after changes).product dimensions).Nodup ∧
      ((after changes).product dimensions).Pairwise (fun key key' =>
        (after changes).places dimensions key < (after changes).places dimensions key') ∧
      ((after changes).product dimensions = [] ↔
        ∃ d ∈ dimensions, (after changes).declared d = []) := by
  have hmembers : ∀ d, Appearances ((after changes).members d)
      (changes.flatMap (Change.named d)) := fun d =>
    members_after changes d ▸ appearances_foldl _
  have hdeclared : ∀ d, Appearances ((after changes).declared d)
      (changes.flatMap (Change.declared d)) := fun d =>
    declared_after changes d ▸ appearances_foldl _
  have hnodup : ∀ d, ((after changes).declared d).Nodup := fun d => (hdeclared d).nodup
  refine ⟨fun d => ?_, rfl, fun dimensions => ?_⟩
  · exact ⟨hmembers d, (hmembers d).nodup, hdeclared d, hnodup d,
      declared_subset_members changes d⟩
  · exact ⟨fun key => mem_product_iff, nodup_product hnodup dimensions,
      pairwise_product hnodup dimensions, product_eq_nil_iff⟩

end MemberSets

end EnergyPlan
