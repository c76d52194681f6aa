/-
# Trees with some placeholders replaced

While references are resolved, a tree differs from the one it came from only at the
placeholders replaced so far, which hold nodes with nothing pending in them. A path that
finds a node there either addresses the same position in the original tree, or enters a
replaced placeholder on its way and finds the node below it.

Key definitions: `Replaced`, `Frame`, `Enters`.
Key theorems: `Frame.refl`, `Frame.address`, `Frame.walk`, `Frame.set`, `Frame.find_set`.
-/
import EnergyPlan.Proofs.Resolution.Addresses

namespace EnergyPlan.Config

/-- The node at a position has nothing pending in it. -/
def Replaced (tree : Node) (p : List Step) : Prop :=
  ∃ v, tree.get? p = some v ∧ v.isPending = false

/-- A tree differs from another one only where scalars that wait were replaced. -/
structure Frame (root tree : Node) : Prop where
  kept : ∀ q n, root.get? q = some n → ¬ n.Waits → ∃ t, tree.get? q = some t ∧ t.SameKind n
  held : ∀ q n, root.get? q = some n → n.Waits → tree.get? q = some n ∨ Replaced tree q
  back : ∀ q n step t, root.get? q = some n → ¬ n.Waits → tree.get? (q ++ [step]) = some t →
    ∃ child, n.child? step = some child
  waits : ∀ q w, tree.get? q = some w → w.Waits → root.get? q = some w

/-- A path runs into a replaced placeholder and finds a node below it. -/
def Enters (root tree : Node) (path : List String) (m : Node) : Prop :=
  ∃ pre post p w v, path = pre ++ post ∧ root.address? pre = some p ∧ root.get? p = some w ∧
    w.Waits ∧ tree.get? p = some v ∧ v.isPending = false ∧ v.find post = some m

namespace Frame

variable {root tree : Node}

theorem refl (root : Node) : Frame root root where
  kept q n hq _ := ⟨n, hq, rfl, rfl⟩
  held q n hq _ := Or.inl hq
  back q n step t hq _ ht := by
    rw [Node.get?_append, hq, Option.bind_some, Node.get?_singleton] at ht
    exact ⟨t, ht⟩
  waits q w hq _ := hq

theorem get (h : Frame root tree) {q : List Step} {n : Node} (hq : root.get? q = some n) :
    ∃ t, tree.get? q = some t := by
  by_cases hn : n.Waits
  · rcases h.held q n hq hn with ht | ⟨v, hv, _⟩
    · exact ⟨n, ht⟩
    · exact ⟨v, hv⟩
  · obtain ⟨t, ht, _⟩ := h.kept q n hq hn
    exact ⟨t, ht⟩

/-- What a path addresses in the original tree it addresses in the other one. -/
theorem address (h : Frame root tree) {path : List String} {p : List Step}
    (hp : root.address? path = some p) : tree.address? path = some p := by
  obtain ⟨m, _, hm⟩ := Node.find_of_address hp
  refine Node.address_transfer hp ?_ ?_
  · rintro q step r n rfl hn
    refine h.kept q n hn fun hw => ?_
    rw [Node.get?_append, hn] at hm
    have hnone := Node.get?_eq_none_of_isScalar hw.1 step r
    rw [Option.bind_some, hnone] at hm
    cases hm
  · obtain ⟨t, ht⟩ := h.get hm
    rw [ht]
    rfl

/-! ### Where a path leads -/

/-- A segment that finds a node below one that was not replaced names a step in both trees. -/
theorem step (h : Frame root tree) {p : List Step} {n t child : Node} {segment : String}
    (hn : root.get? p = some n) (hw : ¬ n.Waits) (ht : tree.get? p = some t)
    (hint : n.isSequence = true → (Decimal.integer segment).isSome = true)
    (hc : t.segment? segment = some child) :
    ∃ step n', n.stepOf segment = some step ∧ n.child? step = some n' ∧
      t.child? step = some child := by
  obtain ⟨t', ht', hkind⟩ := h.kept p n hn hw
  rw [ht] at ht'
  cases ht'
  obtain ⟨step, hstep, hchild⟩ :=
    Node.exists_stepOf (fun hseq => hint (hkind.2.symm.trans hseq)) hc
  have hbelow : tree.get? (p ++ [step]) = some child := by
    rw [Node.get?_append, ht]
    exact (Node.get?_singleton t step).trans hchild
  obtain ⟨n', hn'⟩ := h.back p n step child hn hw hbelow
  rw [Node.stepOf_congr hkind] at hstep
  exact ⟨step, n', hstep, hn', hchild⟩

/-- The path is followed in both trees at once, from a position that a start of it addresses. -/
theorem walk_from (h : Frame root tree) {path : List String} (hpos : Positional root path)
    {m : Node} {rest pre : List String} {p : List Step} {n t : Node} (hpath : path = pre ++ rest)
    (hp : root.address? pre = some p) (hn : root.get? p = some n) (ht : tree.get? p = some t)
    (hm : t.find rest = some m) :
    (∃ q, root.address? path = some q ∧ tree.get? q = some m) ∨ Enters root tree path m := by
  induction rest generalizing pre p n t with
  | nil =>
    cases hm
    rw [List.append_nil] at hpath
    exact Or.inl ⟨p, by rw [hpath]; exact hp, ht⟩
  | cons segment rest ih =>
    by_cases hw : n.Waits
    · rcases h.held p n hn hw with hsame | ⟨v, hv, hset⟩
      · rw [ht] at hsame
        cases hsame
        rw [Node.find_eq_none_of_isScalar hw.1] at hm
        cases hm
      · rw [ht] at hv
        cases hv
        exact Or.inr ⟨pre, segment :: rest, p, n, t, hpath, hp, hn, hw, ht, hset, hm⟩
    · rw [Node.find] at hm
      obtain ⟨child, hc, hf⟩ := Option.bind_eq_some_iff.1 hm
      obtain ⟨n₀, hfn, hgn⟩ := Node.find_of_address hp
      rw [hn] at hgn
      cases hgn
      obtain ⟨step, n', hstep, hn', hchild⟩ :=
        h.step hn hw ht (hpos pre segment rest n hpath hfn) hc
      have haddr : n.address? [segment] = some [step] :=
        Node.address_cons_iff.2 ⟨step, n', [], hstep, hn', rfl, rfl⟩
      have hpath' : path = (pre ++ [segment]) ++ rest := by
        rw [hpath, List.append_assoc]
        rfl
      have hroot : root.get? (p ++ [step]) = some n' := by
        rw [Node.get?_append, hn]
        exact (Node.get?_singleton n step).trans hn'
      have htree : tree.get? (p ++ [step]) = some child := by
        rw [Node.get?_append, ht]
        exact (Node.get?_singleton t step).trans hchild
      exact ih hpath' (Node.address_append hp hn haddr) hroot htree hf

/-- A path that finds a node addresses its position in the original tree, or it enters a replaced
placeholder and finds the node below it. -/
theorem walk (h : Frame root tree) {path : List String} (hpos : Positional root path) {m : Node}
    (hm : tree.find path = some m) :
    (∃ q, root.address? path = some q ∧ tree.get? q = some m) ∨ Enters root tree path m :=
  h.walk_from hpos (List.nil_append path).symm rfl rfl rfl hm

end Frame

/-! ### Replacing one more placeholder -/

section

variable {root tree w v : Node} {p q : List Step}

/-- Nothing pending stands at or above a scalar that waits, nor does anything stand below it. -/
theorem get_set_replaced {u : Node} (hp : tree.get? p = some w) (hw : w.Waits)
    (hq : tree.get? q = some u) (hu : u.isPending = false) (v : Node) :
    (tree.set v p).get? q = some u := by
  have hqp : ¬ q <+: p := by
    rintro ⟨r, rfl⟩
    rw [Node.get?_append, hq] at hp
    exact hw.not_settled (Node.settled_of_get? hu hp)
  have hpq : ¬ p <+: q := by
    intro hpre
    exact hqp (Node.eq_of_isScalar hp hw.1 hq hpre ▸ List.prefix_rfl)
  rw [Node.get?_set_apart hpq hqp]
  exact hq

theorem Replaced.set (h : Replaced tree q) (hp : tree.get? p = some w) (hw : w.Waits)
    (v : Node) : Replaced (tree.set v p) q := by
  obtain ⟨u, hq, hu⟩ := h
  exact ⟨u, get_set_replaced hp hw hq hu v, hu⟩

theorem replaced_set (hp : tree.get? p = some w) (hv : v.isPending = false) :
    Replaced (tree.set v p) p :=
  ⟨v, Node.get?_set_self v p tree w hp, hv⟩

/-- Where the original tree has no placeholder there is a node of the same kind afterwards. -/
theorem sameKind_get_set {n t : Node} (hp : root.get? p = some w) (hw : w.Waits)
    (hn : root.get? q = some n) (hnw : ¬ n.Waits) (ht : tree.get? q = some t) :
    ∃ t', (tree.set v p).get? q = some t' ∧ t'.SameKind t := by
  by_cases hqp : q <+: p
  · obtain ⟨r, rfl⟩ := hqp
    refine ⟨t.set v r, Node.get?_set_above ht v r, ?_⟩
    cases r with
    | nil =>
      rw [List.append_nil, hn] at hp
      cases hp
      exact absurd hw hnw
    | cons step r => exact Node.sameKind_set t v step r
  · have hpq : ¬ p <+: q := by
      intro hpre
      exact hqp (Node.eq_of_isScalar hp hw.1 hn hpre ▸ List.prefix_rfl)
    rw [Node.get?_set_apart hpq hqp]
    exact ⟨t, ht, rfl, rfl⟩

namespace Frame

/-- **Replacing a placeholder by a node with nothing pending** keeps the frame. -/
theorem set (h : Frame root tree) (hr : root.get? p = some w) (hw : w.Waits)
    (hp : tree.get? p = some w) (hv : v.isPending = false) : Frame root (tree.set v p) where
  kept q n hn hnw := by
    obtain ⟨t, ht, hkind⟩ := h.kept q n hn hnw
    obtain ⟨t', ht', hkind'⟩ := sameKind_get_set (v := v) hr hw hn hnw ht
    exact ⟨t', ht', hkind'.trans hkind⟩
  held q n hn hnw := by
    by_cases hqp : q = p
    · subst hqp
      exact Or.inr (replaced_set hp hv)
    · rcases h.held q n hn hnw with hsame | hrep
      · rw [Node.get?_set_scalar hr hw.1 hn hnw.1 hqp]
        exact Or.inl hsame
      · exact Or.inr (hrep.set hp hw v)
  back q n step t hn hnw ht := by
    by_cases hqp : q ++ [step] <+: p
    · obtain ⟨r, rfl⟩ := hqp
      rw [List.append_assoc, Node.get?_append, hn] at hr
      change n.get? (step :: r) = some w at hr
      rw [Node.get?] at hr
      obtain ⟨child, hc, _⟩ := Option.bind_eq_some_iff.1 hr
      exact ⟨child, hc⟩
    · have hpq : ¬ p <+: q ++ [step] := by
        intro hpre
        rcases List.prefix_concat_iff.1 hpre with rfl | hpre
        · exact hqp List.prefix_rfl
        · have heq := Node.eq_of_isScalar hr hw.1 hn hpre
          subst heq
          rw [hn] at hr
          cases hr
          exact hnw hw
      rw [Node.get?_set_apart hpq hqp] at ht
      exact h.back q n step t hn hnw ht
  waits q u hq hu := by
    by_cases hpq : p <+: q
    · obtain ⟨r, rfl⟩ := hpq
      rw [Node.get?_set_below hp] at hq
      exact absurd (Node.settled_of_get? hv hq) hu.not_settled
    · by_cases hqp : q <+: p
      · obtain ⟨r, rfl⟩ := hqp
        have hset := Node.get?_set_self v _ tree w hp
        rw [Node.get?_append, hq, Option.bind_some] at hset
        cases r with
        | nil => exact absurd ⟨[], by rw [List.append_nil, List.append_nil]⟩ hpq
        | cons step r =>
          rw [Node.get?_eq_none_of_isScalar hu.1] at hset
          cases hset
      · rw [Node.get?_set_apart hpq hqp] at hq
        exact h.waits q u hq hu

/-- What a path finds with nothing pending in it, it finds afterwards too. -/
theorem find_set (h : Frame root tree) (hr : root.get? p = some w) (hw : w.Waits)
    (hp : tree.get? p = some w) (hv : v.isPending = false) {path : List String}
    (hpos : Positional root path) {m : Node} (hm : tree.find path = some m)
    (hset : m.isPending = false) : (tree.set v p).find path = some m := by
  have hframe := h.set hr hw hp hv
  rcases h.walk hpos hm with ⟨q, hq, hget⟩ | ⟨pre, post, q, _, u, rfl, hq, _, _, hget, hu, hfind⟩
  · obtain ⟨m', hf, hg⟩ := Node.find_of_address (hframe.address hq)
    rw [get_set_replaced hp hw hget hset] at hg
    cases hg
    exact hf
  · obtain ⟨u', hf, hg⟩ := Node.find_of_address (hframe.address hq)
    rw [get_set_replaced hp hw hget hu] at hg
    cases hg
    rw [Node.find_append, hf]
    exact hfind

end Frame

end

end EnergyPlan.Config
