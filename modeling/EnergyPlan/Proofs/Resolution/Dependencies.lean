/-
# What a placeholder depends on

A placeholder is a scalar that is wholly one reference. It depends on the placeholders that
stand on the way to the node its path addresses, at that node or below it: those must be
replaced first. A path that runs into a placeholder goes on from the path that this one
refers to; it leads somewhere if it finds a node in the end. Without a cycle, the number of
placeholders in a chain of dependencies is bounded by the number of scalars.

Key definitions: `Refers`, `DependsOn`, `Continues`, `Leads`, `ByPosition`,
`Acyclic`, `Longest`, `Within`, `OnlyReferences`.
Key theorems: `exists_longest`, `within_of_longest`.
-/
import EnergyPlan.Proofs.Resolution.Addresses
import EnergyPlan.Proofs.Resolution.Placeholders
import EnergyPlan.Proofs.Resolution.Sites
import Mathlib.Data.List.Chain
import Mathlib.Data.List.Perm.Subperm
import Mathlib.Logic.Relation
import Mathlib.Order.Lattice.Nat

namespace EnergyPlan.Config

open Text

/-- The scalar at a position is a placeholder for a path. -/
def Refers (root : Node) (p : List Step) (path : List String) : Prop :=
  ∃ tag text inner, root.get? p = some (.scalar tag text) ∧ tag ≠ .string ∧
    Wholly text inner ∧ path = splitDots (String.ofList inner)

/-- The second placeholder stands on the way to the path of the first one, at it or below it. -/
def DependsOn (root : Node) (p p' : List Step) : Prop :=
  ∃ path path', Refers root p path ∧ Refers root p' path' ∧
    ∃ pre post q, path = pre ++ post ∧ root.address? pre = some q ∧
      (q = p' ∨ post = [] ∧ q <+: p')

/-- A path that runs into a placeholder goes on from the path of that one. -/
def Continues (root : Node) (path path' : List String) : Prop :=
  ∃ pre post p inner, path = pre ++ post ∧ root.address? pre = some p ∧ Refers root p inner ∧
    path' = inner ++ post

/-- A path finds a node if the placeholders on it are replaced; otherwise it dangles. -/
def Leads (root : Node) (path : List String) : Prop :=
  ∃ path', Relation.ReflTransGen (Continues root) path path' ∧ (root.find path').isSome = true

/-- A path addresses sequences by position, also where it goes on from a placeholder. -/
def ByPosition (root : Node) (path : List String) : Prop :=
  ∀ path', Relation.ReflTransGen (Continues root) path path' → Positional root path'

/-- No placeholder depends on itself, directly or through others. -/
def Acyclic (root : Node) : Prop := ∀ p, ¬ Relation.TransGen (DependsOn root) p p

/-- Placeholders that each depend on the next one. -/
def Chain (root : Node) (ps : List (List Step)) : Prop :=
  ps.IsChain (DependsOn root) ∧ ∀ p ∈ ps, ∃ path, Refers root p path

/-- The number of placeholders in the longest chain. -/
def Longest (root : Node) (depth : Nat) : Prop :=
  IsGreatest {n | ∃ ps, Chain root ps ∧ ps.length = n} depth

/-- No chain from a placeholder has more than a number of placeholders. -/
def Within (root : Node) : Nat → List Step → Prop
  | 0, _ => False
  | k + 1, p => ∀ p', DependsOn root p p' → Within root k p'

/-- The scalars of a tree that need resolution are wholly one reference each, to a path that
addresses mappings by key and sequences by position. -/
structure OnlyReferences (root : Node) : Prop where
  distinct : root.Distinct
  wholly : ∀ p tag text, root.get? p = some (.scalar tag text) →
    Node.scalarPending tag text = true → ∃ inner, Wholly text inner
  positional : ∀ p path, Refers root p path → ByPosition root path

variable {root : Node} {p p' : List Step} {path : List String}

/-! ### Placeholders are the scalars that wait -/

theorem Refers.waits (h : Refers root p path) : ∃ w, root.get? p = some w ∧ w.Waits := by
  obtain ⟨tag, text, inner, hp, htag, hw, _⟩ := h
  refine ⟨_, hp, rfl, ?_⟩
  rw [Node.isPending, Node.scalarPending, hw.hasPlaceholder, bne_iff_ne.2 htag]
  rfl

theorem OnlyReferences.refers (h : OnlyReferences root) {w : Node} (hp : root.get? p = some w)
    (hw : w.Waits) : ∃ path, Refers root p path := by
  obtain ⟨hs, hpend⟩ := hw
  cases w with
  | scalar tag text =>
    obtain ⟨inner, hinner⟩ := h.wholly p tag text hp hpend
    have htag : tag ≠ .string := by
      rintro rfl
      cases hpend
    exact ⟨_, tag, text, inner, hp, htag, hinner, rfl⟩
  | _ => cases hs

theorem Refers.unique {path' : List String} (h : Refers root p path) (h' : Refers root p path') :
    path = path' := by
  obtain ⟨tag, text, inner, hp, _, hw, rfl⟩ := h
  obtain ⟨tag', text', inner', hp', _, hw', rfl⟩ := h'
  rw [hp] at hp'
  cases hp'
  rw [hw.unique hw']

/-! ### Chains -/

theorem Chain.nodup (ha : Acyclic root) {ps : List (List Step)} (h : Chain root ps) :
    ps.Nodup := by
  have htrans : ps.IsChain (Relation.TransGen (DependsOn root)) :=
    h.1.imp fun _ _ hab => Relation.TransGen.single hab
  apply (List.isChain_iff_pairwise.1 htrans).imp
  rintro a b hab rfl
  exact ha a hab

/-- Every placeholder is a site of the tree. -/
theorem Refers.mem_positions (h : Refers root p path) :
    p ∈ (root.sitesBelow [] "").map Site.position := by
  obtain ⟨tag, text, inner, hp, htag, _, _⟩ := h
  obtain ⟨site, hs, hpos, _⟩ := Node.exists_site_below hp htag [] ""
  exact List.mem_map.2 ⟨site, hs, hpos⟩

/-- **Without a cycle there is a longest chain**: none repeats a placeholder. -/
theorem exists_longest (ha : Acyclic root) : ∃ depth, Longest root depth := by
  have hnonempty : {n | ∃ ps, Chain root ps ∧ ps.length = n}.Nonempty :=
    ⟨0, [], ⟨List.IsChain.nil, fun _ hp => nomatch hp⟩, rfl⟩
  have hbound : BddAbove {n | ∃ ps, Chain root ps ∧ ps.length = n} := by
    refine ⟨((root.sitesBelow [] "").map Site.position).length, ?_⟩
    rintro n ⟨ps, hps, rfl⟩
    refine (List.subperm_of_subset (hps.nodup ha) fun p hp => ?_).length_le
    obtain ⟨path, hpath⟩ := hps.2 p hp
    exact hpath.mem_positions
  exact ⟨_, Nat.sSup_mem hnonempty hbound, fun n hn => le_csSup hbound hn⟩

theorem within_of_chains {k : Nat} (hk : ∀ ps, Chain root (p :: ps) → ps.length < k)
    (hp : ∃ path, Refers root p path) : Within root k p := by
  induction k generalizing p with
  | zero =>
    have hone : Chain root [p] :=
      ⟨List.isChain_singleton p, fun q hq => by rwa [List.mem_singleton.1 hq]⟩
    exact absurd (hk [] hone) (Nat.not_lt_zero _)
  | succ k ih =>
    intro p' hdep
    obtain ⟨_, path', _, hp', _⟩ := id hdep
    refine ih (fun ps hps => ?_) ⟨path', hp'⟩
    have hchain : Chain root (p :: p' :: ps) := by
      refine ⟨List.isChain_cons_cons.2 ⟨hdep, hps.1⟩, fun q hq => ?_⟩
      rcases List.mem_cons.1 hq with rfl | hq
      · exact hp
      · exact hps.2 q hq
    have hlen := hk _ hchain
    rw [List.length_cons] at hlen
    omega

theorem within_of_longest {depth : Nat} (hd : Longest root depth)
    (hp : Refers root p path) : Within root depth p := by
  refine within_of_chains (fun ps hps => ?_) ⟨path, hp⟩
  have hle := hd.2 ⟨_, hps, rfl⟩
  rw [List.length_cons] at hle
  omega

theorem Within.succ {k : Nat} (h : Within root k p) : Within root (k + 1) p := by
  induction k generalizing p with
  | zero => cases h
  | succ k ih => exact fun p' hdep => ih (h p' hdep)

theorem Within.mono {j k : Nat} (h : Within root j p) (hjk : j ≤ k) : Within root k p := by
  induction hjk with
  | refl => exact h
  | step _ ih => exact ih.succ

end EnergyPlan.Config
