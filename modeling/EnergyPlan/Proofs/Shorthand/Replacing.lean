/-
# Replacing several nodes of a tree

Of two nodes put at one position the later one stands, and nodes put at positions apart
from each other do not depend on their order. So replacing some nodes twice is replacing
them once, and replacing some of them before all of them changes nothing: what a set of
replacements makes of a tree is a matter of the positions alone.

Key definitions: `Node.Apart`, `Node.fill`, `Node.Compatible`.
Key theorems: `Node.set_set`, `Node.set_comm`, `Node.fill_absorbs`, `Node.get?_fill`,
`Node.isPending_fill`.
-/
import EnergyPlan.Proofs.Resolution.Positions

namespace EnergyPlan.Config.Node

variable {node value : Node}

/-! ### Two replacements -/

theorem setEntry_setEntry (key : String) (v w : Node) (entries : List (String × Node)) :
    setEntry key w (setEntry key v entries) = setEntry key w entries := by
  induction entries with
  | nil => simp [setEntry]
  | cons e rest ih =>
    obtain ⟨k, old⟩ := e
    by_cases h : k = key
    · simp [setEntry, h]
    · simp [setEntry, h, ih]

/-- Entries at different keys that are there are set in either order. -/
theorem setEntry_comm {k k' : String} (hne : k ≠ k') (v w : Node)
    {entries : List (String × Node)} (hk : (entries.lookup k).isSome = true)
    (hk' : (entries.lookup k').isSome = true) :
    setEntry k' w (setEntry k v entries) = setEntry k v (setEntry k' w entries) := by
  induction entries with
  | nil => cases hk
  | cons e rest ih =>
    obtain ⟨j, old⟩ := e
    by_cases h : j = k
    · subst h
      simp [setEntry, hne]
    · by_cases h' : j = k'
      · subst h'
        simp [setEntry, h]
      · rw [List.lookup_cons, beq_false_of_ne (Ne.symm h)] at hk
        rw [List.lookup_cons, beq_false_of_ne (Ne.symm h')] at hk'
        simp [setEntry, h, h', ih hk hk']

theorem setChild_setChild {step : Step} (v w : Node) :
    (node.setChild step v).setChild step w = node.setChild step w := by
  cases step with
  | key k =>
    cases node with
    | mapping entries => exact congrArg mapping (setEntry_setEntry k v w entries)
    | _ => rfl
  | item i =>
    cases node with
    | sequence items => exact congrArg sequence (List.set_set v)
    | _ => rfl

theorem setChild_comm {s s' : Step} (hne : s ≠ s') (v w : Node)
    (hs : (node.child? s).isSome = true) (hs' : (node.child? s').isSome = true) :
    (node.setChild s v).setChild s' w = (node.setChild s' w).setChild s v := by
  cases node with
  | null => cases s <;> cases hs
  | scalar tag text => cases s <;> cases hs
  | sequence items =>
    cases s with
    | key k => cases hs
    | item i =>
      cases s' with
      | key k => cases hs'
      | item j =>
        refine congrArg sequence (List.set_comm v w fun h => hne ?_)
        rw [h]
  | mapping entries =>
    cases s with
    | item i => cases hs
    | key k =>
      cases s' with
      | item i => cases hs'
      | key k' =>
        refine congrArg mapping (setEntry_comm (fun h => hne ?_) v w hs hs')
        rw [h]

/-- Of two nodes put at one position the later one stands. -/
theorem set_set (node v w : Node) (p : List Step) : (node.set v p).set w p = node.set w p := by
  induction p generalizing node with
  | nil => rfl
  | cons step rest ih =>
    cases hc : node.child? step with
    | none => simp only [set, hc]
    | some child =>
      have hc' : (node.set v (step :: rest)).child? step = some (child.set v rest) := by
        rw [set_cons hc, child?_setChild hc, if_pos rfl]
      rw [set_cons hc', set_cons hc, set_cons hc, ih, setChild_setChild]

/-- Neither of two positions is above the other. -/
def Apart (p q : List Step) : Prop := ¬ p <+: q ∧ ¬ q <+: p

theorem Apart.symm {p q : List Step} (h : Apart p q) : Apart q p := ⟨h.2, h.1⟩

theorem Apart.tail {s : Step} {p q : List Step} (h : Apart (s :: p) (s :: q)) : Apart p q :=
  ⟨fun hpq => h.1 ((List.prefix_cons_inj s).2 hpq),
    fun hqp => h.2 ((List.prefix_cons_inj s).2 hqp)⟩

/-- Nothing is put below a step that leads nowhere. -/
theorem set_of_child?_eq_none {node : Node} {s : Step} (h : node.child? s = none) (v : Node)
    (p : List Step) : node.set v (s :: p) = node := by
  rw [set, h]

/-- A child stands as it was when a node is put below another one. -/
theorem child?_set_of_ne (node v : Node) {s s' : Step} (hne : s ≠ s') (p : List Step) :
    (node.set v (s :: p)).child? s' = node.child? s' := by
  cases hc : node.child? s with
  | none => rw [set_of_child?_eq_none hc]
  | some child => rw [set_cons hc, child?_setChild hc, if_neg (Ne.symm hne)]

/-- **Nodes are put at positions apart from each other in either order**: below different
children they do not meet, and below one child the positions are still apart. -/
theorem set_comm (node v w : Node) {p q : List Step} (h : Apart p q) :
    (node.set v p).set w q = (node.set w q).set v p := by
  induction p generalizing node q with
  | nil => exact absurd List.nil_prefix h.1
  | cons s p ih =>
    cases q with
    | nil => exact absurd List.nil_prefix h.2
    | cons s' q =>
      by_cases hss : s = s'
      · subst hss
        cases hc : node.child? s with
        | none => simp only [set_of_child?_eq_none hc]
        | some child =>
          have hv : (node.set v (s :: p)).child? s = some (child.set v p) := by
            rw [set_cons hc, child?_setChild hc, if_pos rfl]
          have hw : (node.set w (s :: q)).child? s = some (child.set w q) := by
            rw [set_cons hc, child?_setChild hc, if_pos rfl]
          rw [set_cons hv, set_cons hw, set_cons hc, set_cons hc, setChild_setChild,
            setChild_setChild, ih _ h.tail]
      · have hv := child?_set_of_ne node v hss p
        have hw := child?_set_of_ne node w (Ne.symm hss) q
        cases hc : node.child? s with
        | none => rw [set_of_child?_eq_none hc, set_of_child?_eq_none (hw.trans hc)]
        | some child =>
          cases hc' : node.child? s' with
          | none => rw [set_of_child?_eq_none hc', set_of_child?_eq_none (hv.trans hc')]
          | some child' =>
            rw [set_cons (hv.trans hc'), set_cons (hw.trans hc), set_cons hc, set_cons hc']
            exact setChild_comm hss _ _ (Option.isSome_of_eq_some hc)
              (Option.isSome_of_eq_some hc')

/-! ### Several replacements -/

/-- The tree with a node put at each of several positions in turn. -/
def fill (node : Node) (ps : List (List Step × Node)) : Node :=
  ps.foldl (fun node (p, value) => node.set value p) node

/-- Replacements that agree where they meet: any two are the same one, or apart. -/
def Compatible (ps : List (List Step × Node)) : Prop :=
  ∀ a ∈ ps, ∀ b ∈ ps, a = b ∨ Apart a.1 b.1

variable {ps qs : List (List Step × Node)}

theorem fill_cons (node : Node) (a : List Step × Node) (ps : List (List Step × Node)) :
    node.fill (a :: ps) = (node.set a.2 a.1).fill ps := rfl

theorem Compatible.tail {a : List Step × Node} (h : Compatible (a :: ps)) : Compatible ps :=
  fun b hb c hc => h b (List.mem_cons_of_mem _ hb) c (List.mem_cons_of_mem _ hc)

/-- A replacement made before all of them changes nothing if it is one of them. -/
theorem fill_set (h : Compatible ps) {a : List Step × Node} (ha : a ∈ ps) (node : Node) :
    (node.set a.2 a.1).fill ps = node.fill ps := by
  induction ps generalizing node with
  | nil => cases ha
  | cons b rest ih =>
    rw [fill_cons, fill_cons]
    rcases h a ha b List.mem_cons_self with rfl | hapart
    · rw [set_set]
    · have hrest : a ∈ rest := by
        rcases List.mem_cons.1 ha with rfl | hm
        · exact absurd List.prefix_rfl hapart.1
        · exact hm
      rw [set_comm _ _ _ hapart]
      exact ih h.tail hrest _

/-- **Replacing some nodes before all of them** changes nothing. -/
theorem fill_absorbs (h : Compatible ps) (hsub : qs ⊆ ps) (node : Node) :
    (node.fill qs).fill ps = node.fill ps := by
  induction qs generalizing node with
  | nil => rfl
  | cons a rest ih =>
    rw [fill_cons, ih (fun b hb => hsub (List.mem_cons_of_mem _ hb))]
    exact fill_set h (hsub List.mem_cons_self) node

/-- Where one of the replacements may be made, either it was made or the old node stands. -/
theorem get?_fill (h : Compatible ps) (hsub : qs ⊆ ps) {a : List Step × Node} (ha : a ∈ ps)
    {old : Node} (ho : node.get? a.1 = some old) :
    (node.fill qs).get? a.1 = some old ∨ a ∈ qs ∧ (node.fill qs).get? a.1 = some a.2 := by
  induction qs generalizing node old with
  | nil => exact Or.inl ho
  | cons b rest ih =>
    have hrest : rest ⊆ ps := fun c hc => hsub (List.mem_cons_of_mem _ hc)
    rw [fill_cons]
    rcases h a ha b (hsub List.mem_cons_self) with rfl | hapart
    · have hset : (node.set a.2 a.1).get? a.1 = some a.2 := get?_set_self _ _ _ _ ho
      rcases ih hrest hset with hnew | ⟨_, hnew⟩
      · exact Or.inr ⟨List.mem_cons_self, hnew⟩
      · exact Or.inr ⟨List.mem_cons_self, hnew⟩
    · have hold : (node.set b.2 b.1).get? a.1 = some old :=
        (get?_set_apart hapart.2 hapart.1 _).trans ho
      rcases ih hrest hold with hstay | ⟨hm, hnew⟩
      · exact Or.inl hstay
      · exact Or.inr ⟨List.mem_cons_of_mem _ hm, hnew⟩

/-- Every replacement is read where it is made. -/
theorem get?_fill_of_mem (h : Compatible ps) {a : List Step × Node} (ha : a ∈ ps) {old : Node}
    (ho : node.get? a.1 = some old) : (node.fill ps).get? a.1 = some a.2 := by
  -- made once more beforehand it changes nothing
  have hset : (node.set a.2 a.1).get? a.1 = some a.2 := get?_set_self _ _ _ _ ho
  rw [← fill_set h ha node]
  rcases get?_fill h (List.Subset.refl ps) ha hset with hstay | ⟨_, hnew⟩
  · exact hstay
  · exact hnew

/-- Apart from the replacements nothing has changed. -/
theorem get?_fill_apart {q : List Step} (h : ∀ a ∈ ps, Apart a.1 q) :
    (node.fill ps).get? q = node.get? q := by
  induction ps generalizing node with
  | nil => rfl
  | cons a rest ih =>
    obtain ⟨hbelow, habove⟩ := h a List.mem_cons_self
    rw [fill_cons, ih fun b hb => h b (List.mem_cons_of_mem _ hb),
      get?_set_apart hbelow habove]

/-- Where nothing is replaced at or above a node it keeps what replacing something below it does
not change. -/
theorem exists_get?_fill (kept : Node → Prop)
    (hkept : ∀ node value step r, kept node → kept (node.set value (step :: r)))
    {q : List Step} (h : ∀ a ∈ ps, ¬ a.1 <+: q) {below : Node} (hq : node.get? q = some below)
    (hb : kept below) : ∃ after, (node.fill ps).get? q = some after ∧ kept after := by
  induction ps generalizing node below with
  | nil => exact ⟨below, hq, hb⟩
  | cons a rest ih =>
    have hrest : ∀ b ∈ rest, ¬ b.1 <+: q := fun b hb => h b (List.mem_cons_of_mem _ hb)
    have hout := h a List.mem_cons_self
    rw [fill_cons]
    by_cases hqa : q <+: a.1
    · obtain ⟨r, hr⟩ := hqa
      cases r with
      | nil =>
        rw [← hr, List.append_nil] at hout
        exact absurd List.prefix_rfl hout
      | cons step r =>
        have hset := get?_set_above hq a.2 (step :: r)
        rw [hr] at hset
        exact ih hrest hset (hkept below a.2 step r hb)
    · exact ih hrest ((get?_set_apart hout hqa a.2).trans hq) hb

/-! ### Nothing becomes pending -/

theorem isPending_setChild {step : Step} (hn : node.isPending = false)
    (hv : value.isPending = false) : (node.setChild step value).isPending = false := by
  cases step with
  | key k =>
    cases node with
    | mapping entries =>
      rw [setChild, isPending, anyEntryPending_eq_any, List.any_eq_false]
      rw [isPending, anyEntryPending_eq_any, List.any_eq_false] at hn
      have hset : ∀ e ∈ setEntry k value entries, e ∈ entries ∨ e.2 = value :=
        fun e he => mem_setEntry he
      intro e he
      rcases hset e he with hm | rfl
      · exact hn e hm
      · rw [hv]
        exact Bool.noConfusion
    | _ => exact hn
  | item i =>
    cases node with
    | sequence items =>
      rw [setChild, isPending, anyPending_eq_any, List.any_eq_false]
      rw [isPending, anyPending_eq_any, List.any_eq_false] at hn
      intro item hi
      rcases List.mem_or_eq_of_mem_set hi with hm | rfl
      · exact hn item hm
      · rw [hv]
        exact Bool.noConfusion
    | _ => exact hn

/-- A node with nothing pending put into a tree with nothing pending leaves nothing pending. -/
theorem isPending_set {p : List Step} (hn : node.isPending = false)
    (hv : value.isPending = false) : (node.set value p).isPending = false := by
  induction p generalizing node with
  | nil => exact hv
  | cons step rest ih =>
    cases hc : node.child? step with
    | none =>
      rw [set, hc]
      exact hn
    | some child =>
      have hchild : child.isPending = false :=
        settled_of_get? hn ((get?_singleton node step).trans hc)
      rw [set_cons hc]
      exact isPending_setChild hn (ih hchild)

theorem isPending_fill (hn : node.isPending = false) (h : ∀ a ∈ ps, a.2.isPending = false) :
    (node.fill ps).isPending = false := by
  induction ps generalizing node with
  | nil => exact hn
  | cons a rest ih =>
    rw [fill_cons]
    refine ih (isPending_set hn (h a List.mem_cons_self)) fun b hb => ?_
    exact h b (List.mem_cons_of_mem _ hb)

end EnergyPlan.Config.Node
