/-
# The members of the dimensions

Each dimension has members, in the order in which they were first seen. A member
is declared (an entity's id, a part of the time structure) or inferred from a key
in the data. A wildcard stands for all members; defaults are filled over the
declared ones only.

Key definitions: `MemberSets`, `MemberSets.declare`, `MemberSets.infer`,
`MemberSets.product`.
Key theorems: `members_declare`, `declared_declare`, `members_infer`, `declared_infer`,
`members_declareAll`, `declared_declareAll`, `mem_product`.
-/
import EnergyPlan.Index.Dimension
import Std.Data.ExtTreeMap

namespace EnergyPlan

/-- Lists of members by dimension; a dimension without a list has no members. -/
abbrev MemberTable := Std.ExtTreeMap Dimension (List String)

/-- Adds a member to one dimension of a table, unless it is there already. -/
def MemberTable.add (table : MemberTable) (dimension : Dimension) (member : String) :
    MemberTable :=
  table.insert dimension (Text.appendNew (table.getD dimension []) member)

/-- Adding a member to a dimension appends it if it is new, and leaves the others. -/
theorem MemberTable.getD_add (table : MemberTable) (dimension d : Dimension) (member : String) :
    (table.add dimension member).getD d [] =
      if dimension = d then Text.appendNew (table.getD dimension []) member
      else table.getD d [] := by
  simp only [MemberTable.add, Std.ExtTreeMap.getD_insert, Std.compare_eq_iff_eq]

/-- Adding several members in turn appends those that are new. -/
theorem MemberTable.getD_foldl_add (table : MemberTable) (dimension d : Dimension)
    (members : List String) :
    (members.foldl (fun table member => table.add dimension member) table).getD d [] =
      if dimension = d then members.foldl Text.appendNew (table.getD d []) else table.getD d [] := by
  induction members generalizing table with
  | nil => simp
  | cons member rest ih =>
    rw [List.foldl_cons, ih, MemberTable.getD_add]
    by_cases hd : dimension = d
    · subst hd
      simp only [if_true, List.foldl_cons]
    · simp only [if_neg hd]

/-- The members of every dimension, and which of them are declared. -/
structure MemberSets where
  known : MemberTable
  given : MemberTable

namespace MemberSets

/-- No members at all. -/
def empty : MemberSets := ⟨∅, ∅⟩

/-- The members of a dimension. -/
def members (sets : MemberSets) (dimension : Dimension) : List String :=
  sets.known.getD dimension []

/-- The declared members of a dimension. -/
def declared (sets : MemberSets) (dimension : Dimension) : List String :=
  sets.given.getD dimension []

/-- Declares a member. -/
def declare (sets : MemberSets) (dimension : Dimension) (member : String) : MemberSets :=
  ⟨sets.known.add dimension member, sets.given.add dimension member⟩

/-- Declares several members in turn. -/
def declareAll (sets : MemberSets) (dimension : Dimension) (members : List String) : MemberSets :=
  members.foldl (fun sets member => sets.declare dimension member) sets

/-- Adds a member found in the data. -/
def infer (sets : MemberSets) (dimension : Dimension) (member : String) : MemberSets :=
  { sets with known := sets.known.add dimension member }

/-- Adds several members found in the data. -/
def inferAll (sets : MemberSets) (dimension : Dimension) (members : List String) : MemberSets :=
  members.foldl (fun sets member => sets.infer dimension member) sets

/-- Whether a dimension has a member. -/
def contains (sets : MemberSets) (dimension : Dimension) (member : String) : Bool :=
  decide (member ∈ sets.members dimension)

/-- Whether a dimension has any member. -/
def hasMembers (sets : MemberSets) (dimension : Dimension) : Bool :=
  !(sets.members dimension).isEmpty

/-- Every tuple of declared members, the first dimension varying slowest. -/
def product (sets : MemberSets) : List Dimension → List Key
  | [] => [[]]
  | dimension :: rest =>
    (sets.declared dimension).flatMap fun member => (sets.product rest).map (member :: ·)

/-! ### What the operations do to the lists -/

theorem members_declare (sets : MemberSets) (dimension d : Dimension) (member : String) :
    (sets.declare dimension member).members d =
      if dimension = d then Text.appendNew (sets.members dimension) member else sets.members d :=
  MemberTable.getD_add sets.known dimension d member

theorem declared_declare (sets : MemberSets) (dimension d : Dimension) (member : String) :
    (sets.declare dimension member).declared d =
      if dimension = d then Text.appendNew (sets.declared dimension) member
      else sets.declared d :=
  MemberTable.getD_add sets.given dimension d member

theorem members_infer (sets : MemberSets) (dimension d : Dimension) (member : String) :
    (sets.infer dimension member).members d =
      if dimension = d then Text.appendNew (sets.members dimension) member else sets.members d :=
  MemberTable.getD_add sets.known dimension d member

/-- A member found in the data is not declared by that. -/
theorem declared_infer (sets : MemberSets) (dimension d : Dimension) (member : String) :
    (sets.infer dimension member).declared d = sets.declared d := rfl

/-- Declaring several members adds them to both lists. -/
theorem declareAll_eq (sets : MemberSets) (dimension : Dimension) (members : List String) :
    sets.declareAll dimension members =
      ⟨members.foldl (fun table member => table.add dimension member) sets.known,
        members.foldl (fun table member => table.add dimension member) sets.given⟩ := by
  induction members generalizing sets with
  | nil => rfl
  | cons member rest ih => exact ih (sets.declare dimension member)

theorem members_declareAll (sets : MemberSets) (dimension d : Dimension) (members : List String) :
    (sets.declareAll dimension members).members d =
      if dimension = d then members.foldl Text.appendNew (sets.members d) else sets.members d := by
  rw [declareAll_eq]
  exact MemberTable.getD_foldl_add sets.known dimension d members

theorem declared_declareAll (sets : MemberSets) (dimension d : Dimension)
    (members : List String) :
    (sets.declareAll dimension members).declared d =
      if dimension = d then members.foldl Text.appendNew (sets.declared d)
      else sets.declared d := by
  rw [declareAll_eq]
  exact MemberTable.getD_foldl_add sets.given dimension d members

/-- The tuples are those with one declared member for each dimension. -/
theorem mem_product {sets : MemberSets} {dimensions : List Dimension} {key : Key} :
    key ∈ sets.product dimensions ↔
      key.length = dimensions.length ∧ ∀ e ∈ dimensions.zip key, e.2 ∈ sets.declared e.1 := by
  induction dimensions generalizing key with
  | nil => simp [product]
  | cons d rest ih =>
    simp only [product, List.mem_flatMap, List.mem_map, ih]
    constructor
    · rintro ⟨m, hm, k, ⟨hl, hk⟩, rfl⟩
      refine ⟨by simp [hl], ?_⟩
      simpa [hm] using hk
    · rintro ⟨hl, hk⟩
      cases key with
      | nil => simp at hl
      | cons m k =>
        rw [List.zip_cons_cons, List.forall_mem_cons] at hk
        exact ⟨m, hk.1, k, ⟨by simpa using hl, hk.2⟩, rfl⟩

end MemberSets

end EnergyPlan
