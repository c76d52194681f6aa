/-
# Reading a tree after a node of it was replaced

A position either lies at or below the replaced node, where the new node is read, or
strictly above it, where the same kind of node stands with one node below it replaced, or
apart from it, where nothing has changed. What is found along a path stands at a position,
and a node is pending exactly if a scalar that waits stands somewhere below it.

Key definitions: `Node.Waits`, `Node.SameKind`.
Key theorems: `Node.get?_set_below`, `Node.get?_set_above`, `Node.get?_set_apart`,
`Node.set_get_self`, `Node.Distinct.set`, `Node.exists_waiting`, `Node.settled_of_get?`.
-/
import EnergyPlan.Config.Merge
import EnergyPlan.Config.Pending
import EnergyPlan.Proofs.Leaves

namespace EnergyPlan.Config.Node

/-- A scalar that needs resolution. -/
def Waits (node : Node) : Prop := node.isScalar = true ∧ node.isPending = true

/-- Two nodes are both mappings, both sequences, or neither. -/
def SameKind (a b : Node) : Prop := a.isMapping = b.isMapping ∧ a.isSequence = b.isSequence

theorem SameKind.symm {a b : Node} (h : a.SameKind b) : b.SameKind a := ⟨h.1.symm, h.2.symm⟩

theorem SameKind.trans {a b c : Node} (h : a.SameKind b) (h' : b.SameKind c) : a.SameKind c :=
  ⟨h.1.trans h'.1, h.2.trans h'.2⟩

/-! ### Positions -/

theorem get?_append (node : Node) (p r : List Step) :
    node.get? (p ++ r) = (node.get? p).bind fun below => below.get? r := by
  induction p generalizing node with
  | nil => rfl
  | cons step rest ih =>
    rw [List.cons_append, get?, get?]
    cases node.child? step with
    | none => rfl
    | some child => exact ih child

theorem get?_cons {node child : Node} {step : Step} (h : node.child? step = some child)
    (r : List Step) : node.get? (step :: r) = child.get? r := by
  rw [get?, h]
  rfl

theorem get?_singleton (node : Node) (step : Step) : node.get? [step] = node.child? step := by
  rw [get?]
  cases node.child? step <;> rfl

/-- A node that has something below it is no scalar. -/
theorem isScalar_of_child {node child : Node} {step : Step} (h : node.child? step = some child) :
    node.isScalar = false := by
  cases node with
  | scalar tag text => cases step <;> cases h
  | _ => rfl

theorem get?_eq_none_of_isScalar {node : Node} (h : node.isScalar = true) (step : Step)
    (r : List Step) : node.get? (step :: r) = none := by
  cases hc : node.child? step with
  | none =>
    rw [get?, hc]
    rfl
  | some child =>
    rw [isScalar_of_child hc] at h
    cases h

/-- Nothing stands below a scalar. -/
theorem eq_of_isScalar {node w m : Node} {p q : List Step} (hp : node.get? p = some w)
    (hw : w.isScalar = true) (hq : node.get? q = some m) (hpq : p <+: q) : q = p := by
  obtain ⟨r, rfl⟩ := hpq
  cases r with
  | nil => exact List.append_nil p
  | cons step r =>
    rw [get?_append, hp, Option.bind_some, get?_eq_none_of_isScalar hw] at hq
    cases hq

/-- What is found by a segment stands at a step. -/
theorem exists_step_of_segment {node child : Node} {segment : String}
    (h : node.segment? segment = some child) : ∃ step, node.child? step = some child := by
  cases node with
  | null => cases h
  | scalar tag text => cases h
  | mapping entries => exact ⟨.key segment, h⟩
  | sequence items =>
    have hmem : child ∈ items := by
      simp only [segment?, element?] at h
      split at h
      · split at h
        · exact List.mem_of_getElem? h
        · cases h
      · exact List.mem_of_find?_eq_some h
    obtain ⟨i, hi⟩ := List.getElem?_of_mem hmem
    exact ⟨.item i, hi⟩

theorem find_append (node : Node) (pre post : List String) :
    node.find (pre ++ post) = (node.find pre).bind fun below => below.find post := by
  induction pre generalizing node with
  | nil => rfl
  | cons segment rest ih =>
    rw [List.cons_append, find, find]
    cases node.segment? segment with
    | none => rfl
    | some child => exact ih child

/-- What is found along a path stands at a position. -/
theorem exists_position_of_find {node m : Node} {path : List String}
    (h : node.find path = some m) : ∃ p, node.get? p = some m := by
  induction path generalizing node with
  | nil => exact ⟨[], h⟩
  | cons segment rest ih =>
    rw [find] at h
    obtain ⟨child, hc, hm⟩ := Option.bind_eq_some_iff.1 h
    obtain ⟨step, hs⟩ := exists_step_of_segment hc
    obtain ⟨p, hp⟩ := ih hm
    exact ⟨step :: p, (get?_cons hs p).trans hp⟩

theorem find_eq_none_of_isScalar {node : Node} (h : node.isScalar = true) (segment : String)
    (rest : List String) : node.find (segment :: rest) = none := by
  cases node with
  | scalar tag text => rfl
  | _ => cases h

/-! ### Replacing a node -/

theorem child?_setChild {node old : Node} {step : Step} (h : node.child? step = some old)
    (value : Node) (s : Step) :
    (node.setChild step value).child? s = if s = step then some value else node.child? s := by
  cases step with
  | key k =>
    cases node with
    | mapping entries =>
      cases s with
      | key k' =>
        simp only [setChild, child?, entry?, Node.entries, lookup_setEntry, Step.key.injEq]
      | item i => rfl
    | _ => cases h
  | item i =>
    cases node with
    | sequence items =>
      have hi : i < items.length := (List.getElem?_eq_some_iff.1 h).1
      cases s with
      | key k => rfl
      | item j =>
        simp only [setChild, child?, Node.items, List.getElem?_set, Step.item.injEq]
        by_cases hj : j = i
        · subst hj
          rw [if_pos rfl, if_pos rfl, if_pos hi]
        · rw [if_neg hj, if_neg (Ne.symm hj)]
    | _ => cases h

theorem sameKind_setChild (node : Node) (step : Step) (value : Node) :
    (node.setChild step value).SameKind node := by
  cases step <;> cases node <;> exact ⟨rfl, rfl⟩

theorem set_cons {node child : Node} {step : Step} (h : node.child? step = some child)
    (value : Node) (r : List Step) :
    node.set value (step :: r) = node.setChild step (child.set value r) := by
  rw [set, h]

/-- Replacing a node below another one does not change what kind that one is. -/
theorem sameKind_set (node value : Node) (step : Step) (r : List Step) :
    (node.set value (step :: r)).SameKind node := by
  cases h : node.child? step with
  | none =>
    rw [set, h]
    exact ⟨rfl, rfl⟩
  | some child =>
    rw [set_cons h]
    exact sameKind_setChild node step _

/-- At and below the place of a replaced node the new one is read. -/
theorem get?_set_below {node old : Node} {p : List Step} (h : node.get? p = some old)
    (value : Node) (r : List Step) : (node.set value p).get? (p ++ r) = value.get? r := by
  rw [get?_append, get?_set_self value p node old h]
  rfl

/-- Above a replaced node the node there is read, with the one below it replaced. -/
theorem get?_set_above {node t : Node} {p : List Step} (hp : node.get? p = some t)
    (value : Node) (r : List Step) :
    (node.set value (p ++ r)).get? p = some (t.set value r) := by
  induction p generalizing node with
  | nil =>
    cases hp
    rfl
  | cons step rest ih =>
    obtain ⟨child, hc, hm⟩ := Option.bind_eq_some_iff.1 (by rw [get?] at hp; exact hp)
    rw [List.cons_append, set_cons hc]
    have hs := child?_setChild hc (child.set value (rest ++ r)) step
    rw [if_pos rfl] at hs
    rw [get?_cons hs]
    exact ih hm

/-- Apart from a replaced node nothing has changed. -/
theorem get?_set_apart {node : Node} {p q : List Step} (hpq : ¬ p <+: q) (hqp : ¬ q <+: p)
    (value : Node) : (node.set value p).get? q = node.get? q := by
  induction p generalizing node q with
  | nil => exact absurd List.nil_prefix hpq
  | cons step rest ih =>
    cases q with
    | nil => exact absurd List.nil_prefix hqp
    | cons s q =>
      cases hc : node.child? step with
      | none => rw [set, hc]
      | some child =>
        rw [set_cons hc, get?, get?, child?_setChild hc]
        by_cases h : s = step
        · subst h
          rw [if_pos rfl, hc]
          refine ih (fun hpre => hpq ?_) (fun hpre => hqp ?_)
          · exact (List.prefix_cons_inj s).2 hpre
          · exact (List.prefix_cons_inj s).2 hpre
        · rw [if_neg h]

/-- Replacing one scalar leaves the place of every other one as it is. -/
theorem get?_set_scalar {root node w u : Node} {p q : List Step} (hp : root.get? p = some w)
    (hw : w.isScalar = true) (hq : root.get? q = some u) (hu : u.isScalar = true) (hne : q ≠ p)
    (value : Node) : (node.set value p).get? q = node.get? q := by
  refine get?_set_apart (fun hpre => hne ?_) (fun hpre => hne ?_) value
  · exact eq_of_isScalar hp hw hq hpre
  · exact (eq_of_isScalar hq hu hp hpre).symm

/-! ### Putting a node where it stands -/

theorem setEntry_lookup {key : String} {value : Node} {entries : List (String × Node)}
    (h : entries.lookup key = some value) : setEntry key value entries = entries := by
  induction entries with
  | nil => cases h
  | cons e rest ih =>
    obtain ⟨k, v⟩ := e
    by_cases hk : k = key
    · subst hk
      rw [List.lookup_cons_self, Option.some.injEq] at h
      rw [setEntry, if_pos rfl, h]
    · rw [List.lookup_cons, beq_false_of_ne (Ne.symm hk)] at h
      rw [setEntry, if_neg hk, ih h]

theorem setChild_child {node child : Node} {step : Step} (h : node.child? step = some child) :
    node.setChild step child = node := by
  cases step with
  | key k =>
    cases node with
    | mapping entries => exact congrArg mapping (setEntry_lookup h)
    | _ => cases h
  | item i =>
    cases node with
    | sequence items =>
      obtain ⟨hi, rfl⟩ := List.getElem?_eq_some_iff.1 h
      exact congrArg sequence (List.set_getElem_self hi)
    | _ => cases h

/-- A tree stays as it is if a node is put where it stands already. -/
theorem set_get_self {node value : Node} {p : List Step} (h : node.get? p = some value) :
    node.set value p = node := by
  induction p generalizing node with
  | nil =>
    cases h
    rfl
  | cons step rest ih =>
    rw [get?] at h
    obtain ⟨child, hc, hm⟩ := Option.bind_eq_some_iff.1 h
    rw [set_cons hc, ih hm, setChild_child hc]

/-! ### Distinct keys -/

theorem mem_of_lookup {key : String} {value : Node} {entries : List (String × Node)}
    (h : entries.lookup key = some value) : (key, value) ∈ entries := by
  obtain ⟨before, after, rfl, _⟩ := List.lookup_eq_some_iff.1 h
  exact List.mem_append_right _ List.mem_cons_self

/-- A key that leads to one entry only finds its value. -/
theorem lookup_of_mem {key : String} {value : Node} {entries : List (String × Node)}
    (hn : (entries.map (·.1)).Nodup) (h : (key, value) ∈ entries) :
    entries.lookup key = some value := by
  induction entries with
  | nil => cases h
  | cons e rest ih =>
    rw [List.map_cons, List.nodup_cons] at hn
    rcases List.mem_cons.1 h with rfl | h
    · exact List.lookup_cons_self
    · have hne : key ≠ e.1 := by
        intro heq
        exact hn.1 (List.mem_map.2 ⟨_, h, heq⟩)
      rw [List.lookup_cons, beq_false_of_ne hne]
      exact ih hn.2 h

theorem keys_setEntry {key : String} {entries : List (String × Node)}
    (h : (entries.lookup key).isSome = true) (value : Node) :
    (setEntry key value entries).map (·.1) = entries.map (·.1) := by
  induction entries with
  | nil => cases h
  | cons e rest ih =>
    obtain ⟨k, v⟩ := e
    by_cases hk : k = key
    · rw [setEntry, if_pos hk]
      rfl
    · rw [List.lookup_cons, beq_false_of_ne (Ne.symm hk)] at h
      rw [setEntry, if_neg hk, List.map_cons, ih h]
      rfl

theorem mem_setEntry {key : String} {value : Node} {entries : List (String × Node)}
    {e : String × Node} (h : e ∈ setEntry key value entries) : e ∈ entries ∨ e.2 = value := by
  induction entries with
  | nil =>
    rw [setEntry, List.mem_singleton] at h
    rw [h]
    exact Or.inr rfl
  | cons first rest ih =>
    rw [setEntry] at h
    split at h
    · rcases List.mem_cons.1 h with rfl | h
      · exact Or.inr rfl
      · exact Or.inl (List.mem_cons_of_mem _ h)
    · rcases List.mem_cons.1 h with rfl | h
      · exact Or.inl List.mem_cons_self
      · rcases ih h with hm | hv
        · exact Or.inl (List.mem_cons_of_mem _ hm)
        · exact Or.inr hv

namespace Distinct

variable {node below value : Node} {step : Step}

theorem child (h : node.Distinct) (hc : node.child? step = some below) : below.Distinct := by
  cases h with
  | null => cases step <;> cases hc
  | scalar tag text => cases step <;> cases hc
  | sequence all =>
    cases step with
    | key k => cases hc
    | item i => exact all below (List.mem_of_getElem? hc)
  | mapping keys all =>
    cases step with
    | key k => exact all _ (mem_of_lookup hc)
    | item i => cases hc

theorem get (h : node.Distinct) {p : List Step} (hp : node.get? p = some below) :
    below.Distinct := by
  induction p generalizing node with
  | nil =>
    cases hp
    exact h
  | cons step rest ih =>
    rw [get?] at hp
    obtain ⟨first, hc, hm⟩ := Option.bind_eq_some_iff.1 hp
    exact ih (h.child hc) hm

theorem setChild (h : node.Distinct) (hc : node.child? step = some below)
    (hv : value.Distinct) : (node.setChild step value).Distinct := by
  cases h with
  | null => cases step <;> cases hc
  | scalar tag text => cases step <;> cases hc
  | sequence all =>
    cases step with
    | key k => cases hc
    | item i =>
      refine .sequence fun item hm => ?_
      rcases List.mem_or_eq_of_mem_set hm with hm | rfl
      · exact all item hm
      · exact hv
  | @mapping entries keys all =>
    cases step with
    | key k =>
      have hk : (entries.lookup k).isSome = true := Option.isSome_of_eq_some hc
      refine .mapping ?_ fun e he => ?_
      · rw [keys_setEntry hk]
        exact keys
      · rcases mem_setEntry he with hm | rfl
        · exact all e hm
        · exact hv
    | item i => cases hc

/-- Replacing a node by one with distinct keys keeps the keys of the tree distinct. -/
theorem set (h : node.Distinct) (hv : value.Distinct) (p : List Step) :
    (node.set value p).Distinct := by
  induction p generalizing node with
  | nil => exact hv
  | cons step rest ih =>
    cases hc : node.child? step with
    | none =>
      rw [Node.set, hc]
      exact h
    | some child =>
      rw [set_cons hc]
      exact h.setChild hc (ih (h.child hc))

end Distinct

/-! ### Nodes that are pending -/

theorem isPending_of_child {node child : Node} {step : Step} (hc : node.child? step = some child)
    (h : child.isPending = true) : node.isPending = true := by
  cases node with
  | null => cases step <;> cases hc
  | scalar tag text => cases step <;> cases hc
  | sequence items =>
    cases step with
    | key k => cases hc
    | item i =>
      rw [isPending, anyPending_eq_any, List.any_eq_true]
      exact ⟨child, List.mem_of_getElem? hc, h⟩
  | mapping entries =>
    cases step with
    | key k =>
      rw [isPending, anyEntryPending_eq_any, List.any_eq_true]
      exact ⟨_, mem_of_lookup hc, h⟩
    | item i => cases hc

/-- A node is pending if a node below it is. -/
theorem isPending_of_get? {node below : Node} {p : List Step} (hp : node.get? p = some below)
    (h : below.isPending = true) : node.isPending = true := by
  induction p generalizing node with
  | nil =>
    cases hp
    exact h
  | cons step rest ih =>
    rw [get?] at hp
    obtain ⟨child, hc, hm⟩ := Option.bind_eq_some_iff.1 hp
    exact isPending_of_child hc (ih hm)

/-- Nothing is pending below a node with nothing pending in it. -/
theorem settled_of_get? {node below : Node} {p : List Step} (h : node.isPending = false)
    (hp : node.get? p = some below) : below.isPending = false := by
  rw [← Bool.not_eq_true]
  intro hpend
  rw [isPending_of_get? hp hpend] at h
  cases h

theorem settled_of_find {node m : Node} {path : List String} (h : node.isPending = false)
    (hm : node.find path = some m) : m.isPending = false := by
  obtain ⟨p, hp⟩ := exists_position_of_find hm
  exact settled_of_get? h hp

theorem Waits.not_settled {w : Node} (h : w.Waits) : ¬ w.isPending = false := by
  rw [h.2]
  exact Bool.noConfusion

/-- A pending node with distinct keys has a scalar that waits somewhere below it. -/
theorem exists_waiting {node : Node} (hd : node.Distinct) (h : node.isPending = true) :
    ∃ p w, node.get? p = some w ∧ w.Waits := by
  induction hd with
  | null => cases h
  | scalar tag text => exact ⟨[], _, rfl, rfl, h⟩
  | sequence below ih =>
    rw [isPending, anyPending_eq_any, List.any_eq_true] at h
    obtain ⟨item, hm, hp⟩ := h
    obtain ⟨p, w, hw, hwaits⟩ := ih item hm hp
    obtain ⟨i, hi⟩ := List.getElem?_of_mem hm
    have hc : (sequence _).child? (.item i) = some item := hi
    exact ⟨.item i :: p, w, (get?_cons hc p).trans hw, hwaits⟩
  | mapping keys below ih =>
    rw [isPending, anyEntryPending_eq_any, List.any_eq_true] at h
    obtain ⟨e, hm, hp⟩ := h
    obtain ⟨p, w, hw, hwaits⟩ := ih e hm hp
    have hc : (mapping _).child? (.key e.1) = some e.2 := lookup_of_mem keys hm
    exact ⟨.key e.1 :: p, w, (get?_cons hc p).trans hw, hwaits⟩

end EnergyPlan.Config.Node
