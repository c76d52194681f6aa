/-
# What holds while references are resolved

A replaced placeholder holds the node that its path finds in the tree as it is now, and it
does so from then on. When it was replaced, all that it depends on had been replaced, so it
is on no cycle, and its path leads somewhere. The other way round, a placeholder whose path
leads somewhere finds a node with nothing pending as soon as all that it depends on is
replaced.

Key definitions: `Done`, `Progress`.
Key theorems: `Progress.refl`, `Progress.set`, `Progress.find_of_ready`.
-/
import EnergyPlan.Proofs.Resolution.Dependencies
import EnergyPlan.Proofs.Resolution.Frame

namespace EnergyPlan.Config

open Text

/-- A placeholder was replaced by a node, rightly and for good. -/
structure Done (root tree : Node) (p : List Step) (path : List String) (v : Node) : Prop where
  here : tree.get? p = some v
  settled : v.isPending = false
  found : tree.find path = some v
  closed : ∀ p', DependsOn root p p' → Replaced tree p'
  acyclic : ¬ Relation.TransGen (DependsOn root) p p
  leads : ∀ post m, ByPosition root (path ++ post) → v.find post = some m →
    Leads root (path ++ post)

/-- Every placeholder of a tree still stands in another one, or was replaced rightly. -/
structure Progress (root tree : Node) : Prop extends Frame root tree where
  distinct : tree.Distinct
  done : ∀ p path, Refers root p path → tree.get? p = root.get? p ∨ ∃ v, Done root tree p path v

variable {root tree : Node} {p : List Step} {path : List String}

/-- The tree itself, before anything is replaced. -/
theorem Progress.refl (h : OnlyReferences root) : Progress root root where
  toFrame := Frame.refl root
  distinct := h.distinct
  done _ _ _ := Or.inl rfl

theorem Done.replaced {v : Node} (h : Done root tree p path v) : Replaced tree p :=
  ⟨v, h.here, h.settled⟩

/-- What waits is neither on the way to the node of a replaced placeholder nor below it. -/
theorem Done.not_waits {v w : Node} (h : Done root tree p path v) {post pre' post' : List String}
    (heq : path ++ post = pre' ++ post') (hw : tree.find pre' = some w) : ¬ w.Waits := by
  intro hwaits
  rcases List.append_eq_append_iff.1 heq with ⟨a, rfl, _⟩ | ⟨a, rfl, _⟩
  · rw [Node.find_append, h.found] at hw
    exact hwaits.not_settled (Node.settled_of_find h.settled hw)
  · have hfound := h.found
    rw [Node.find_append, hw, Option.bind_some] at hfound
    cases a with
    | nil =>
      cases hfound
      exact hwaits.not_settled h.settled
    | cons segment rest =>
      rw [Node.find_eq_none_of_isScalar hwaits.1] at hfound
      cases hfound

/-- A placeholder that still stands was not replaced. -/
theorem not_replaced (hp : Refers root p path) (hsame : tree.get? p = root.get? p) :
    ¬ Replaced tree p := by
  rintro ⟨v, hv, hset⟩
  obtain ⟨w, hw, hwaits⟩ := hp.waits
  rw [hsame, hw] at hv
  cases hv
  exact hwaits.not_settled hset

theorem ByPosition.self (h : ByPosition root path) : Positional root path :=
  h path Relation.ReflTransGen.refl

theorem ByPosition.continues {path' : List String} (h : ByPosition root path)
    (hc : Continues root path path') : ByPosition root path' :=
  fun _ hpath => h _ (Relation.ReflTransGen.head hc hpath)

theorem Leads.continues {path' : List String} (h : Leads root path')
    (hc : Continues root path path') : Leads root path := by
  obtain ⟨last, hlast, hfind⟩ := h
  exact ⟨last, Relation.ReflTransGen.head hc hlast, hfind⟩

namespace Progress

theorem done_of_replaced (h : Progress root tree) (hp : Refers root p path)
    (hr : Replaced tree p) : ∃ v, Done root tree p path v := by
  rcases h.done p path hp with hsame | hdone
  · exact absurd hr (not_replaced hp hsame)
  · exact hdone

theorem replaced_or (h : Progress root tree) (hp : Refers root p path) :
    tree.get? p = root.get? p ∨ Replaced tree p := by
  rcases h.done p path hp with hsame | ⟨v, hv⟩
  · exact Or.inl hsame
  · exact Or.inr hv.replaced

/-! ### What is true of a placeholder as it is replaced -/

/-- All that a placeholder depends on is replaced if its path finds a node with nothing pending. -/
theorem closed_of_find (h : Progress root tree) (hp : Refers root p path) {v : Node}
    (hv : tree.find path = some v) (hset : v.isPending = false) {p' : List Step}
    (hdep : DependsOn root p p') : Replaced tree p' := by
  obtain ⟨path₀, path', hp₀, hp', pre, post, q, rfl, hq, hor⟩ := hdep
  cases hp.unique hp₀
  rcases h.replaced_or hp' with hsame | hrep
  · -- a placeholder that still stands there would be pending in the node found, or end the path
    exfalso
    obtain ⟨w, hw, hwaits⟩ := hp'.waits
    rw [hw] at hsame
    obtain ⟨m, hfind, hget⟩ := Node.find_of_address (h.address hq)
    rw [Node.find_append, hfind, Option.bind_some] at hv
    have hpend : v.isPending = true := by
      rcases hor with rfl | ⟨rfl, r, rfl⟩
      · rw [hsame] at hget
        cases hget
        cases post with
        | nil =>
          cases hv
          exact hwaits.2
        | cons segment rest =>
          rw [Node.find_eq_none_of_isScalar hwaits.1] at hv
          cases hv
      · cases hv
        rw [Node.get?_append, hget] at hsame
        exact Node.isPending_of_get? hsame hwaits.2
    rw [hset] at hpend
    cases hpend
  · exact hrep

/-- A placeholder that still stands is on no cycle if all that it depends on is replaced. -/
theorem acyclic_of_closed (h : Progress root tree) (hp : Refers root p path)
    (hsame : tree.get? p = root.get? p)
    (hclosed : ∀ p', DependsOn root p p' → Replaced tree p') :
    ¬ Relation.TransGen (DependsOn root) p p := by
  intro hcycle
  have hall : ∀ {q}, Relation.TransGen (DependsOn root) p q → Replaced tree q := by
    intro q hq
    induction hq with
    | single hdep => exact hclosed _ hdep
    | tail _ hdep ih =>
      obtain ⟨path', _, hpath', _⟩ := id hdep
      obtain ⟨v, hv⟩ := h.done_of_replaced hpath' ih
      exact hv.closed _ hdep
  exact not_replaced hp hsame (hall hcycle)

/-- A path that finds a node leads somewhere. -/
theorem leads_of_find (h : Progress root tree) (ho : OnlyReferences root)
    (hby : ByPosition root path) {m : Node} (hm : tree.find path = some m) :
    Leads root path := by
  rcases h.walk hby.self hm with
    ⟨q, hq, _⟩ | ⟨pre, post, q, w, v, rfl, hq, hw, hwaits, hv, hset, hf⟩
  · obtain ⟨m', hf, _⟩ := Node.find_of_address hq
    exact ⟨path, Relation.ReflTransGen.refl, by rw [hf]; rfl⟩
  · obtain ⟨inner, hinner⟩ := ho.refers hw hwaits
    obtain ⟨v', hdone⟩ := h.done_of_replaced hinner ⟨v, hv, hset⟩
    have hsame := hdone.here
    rw [hv] at hsame
    cases hsame
    have hcont : Continues root (pre ++ post) (inner ++ post) :=
      ⟨pre, post, q, inner, rfl, hq, hinner, rfl⟩
    exact (hdone.leads post m (hby.continues hcont) hf).continues hcont

/-- **Replacing a placeholder by what its path finds** keeps all of this. -/
theorem set (h : Progress root tree) (ho : OnlyReferences root) (hp : Refers root p path)
    (hsame : tree.get? p = root.get? p) {v : Node} (hv : tree.find path = some v)
    (hset : v.isPending = false) : Progress root (tree.set v p) := by
  obtain ⟨w, hw, hwaits⟩ := hp.waits
  have hpw : tree.get? p = some w := hsame.trans hw
  have hclosed : ∀ p', DependsOn root p p' → Replaced tree p' :=
    fun p' hdep => h.closed_of_find hp hv hset hdep
  have hfind : ∀ {path' m}, Positional root path' → tree.find path' = some m →
      m.isPending = false → (tree.set v p).find path' = some m :=
    fun hpos hm hs => h.toFrame.find_set hw hwaits hpw hset hpos hm hs
  refine ⟨h.toFrame.set hw hwaits hpw hset, ?_, ?_⟩
  · obtain ⟨q, hq⟩ := Node.exists_position_of_find hv
    exact h.distinct.set (h.distinct.get hq) p
  · intro p' path' hp'
    by_cases heq : p' = p
    · subst heq
      cases hp.unique hp'
      refine Or.inr ⟨v, Node.get?_set_self v _ tree w hpw, hset,
        hfind (ho.positional _ _ hp).self hv hset, fun q hdep => (hclosed q hdep).set hpw hwaits v,
        h.acyclic_of_closed hp hsame hclosed, fun post m hby hm => ?_⟩
      apply h.leads_of_find ho hby (m := m)
      rw [Node.find_append, hv]
      exact hm
    · rcases h.done p' path' hp' with hsame' | ⟨u, hu⟩
      · obtain ⟨w', hw', hwaits'⟩ := hp'.waits
        rw [Node.get?_set_scalar hw hwaits.1 hw' hwaits'.1 heq]
        exact Or.inl hsame'
      · exact Or.inr ⟨u, get_set_replaced hpw hwaits hu.here hu.settled v, hu.settled,
          hfind (ho.positional _ _ hp').self hu.found hu.settled,
          fun q hdep => (hu.closed q hdep).set hpw hwaits v, hu.acyclic, hu.leads⟩

/-! ### When a placeholder can be replaced -/

/-- A path that leads somewhere finds a node, or it runs into a placeholder that still stands. -/
theorem find_or_blocked (h : Progress root tree) {path' : List String}
    (hc : Relation.ReflTransGen (Continues root) path path') (hby : ByPosition root path)
    (hl : (root.find path').isSome = true) : (∃ m, tree.find path = some m) ∨
      ∃ pre post w, path = pre ++ post ∧ tree.find pre = some w ∧ w.Waits := by
  induction hc using Relation.ReflTransGen.head_induction_on with
  | refl =>
    obtain ⟨m, hm⟩ := Option.isSome_iff_exists.1 hl
    obtain ⟨q, hq, _⟩ := address_of_find hby.self hm
    obtain ⟨t, ht, _⟩ := Node.find_of_address (h.address hq)
    exact Or.inl ⟨t, ht⟩
  | head hcont _ ih =>
    obtain ⟨pre, post, q, inner, rfl, hq, hinner, rfl⟩ := id hcont
    obtain ⟨t, hft, hgt⟩ := Node.find_of_address (h.address hq)
    rcases h.done q inner hinner with hsame | ⟨v, hv⟩
    · obtain ⟨w, hw, hwaits⟩ := hinner.waits
      rw [hsame, hw] at hgt
      cases hgt
      exact Or.inr ⟨pre, post, t, rfl, hft, hwaits⟩
    · rw [hv.here] at hgt
      cases hgt
      rcases ih (hby.continues hcont) with ⟨m, hm⟩ | ⟨pre', post', w, heq, hw, hwaits⟩
      · rw [Node.find_append, hv.found] at hm
        refine Or.inl ⟨m, ?_⟩
        rw [Node.find_append, hft]
        exact hm
      · exact absurd hwaits (hv.not_waits heq hw)

/-- What a start of the path finds is pending only if a placeholder on the way stands still. -/
theorem not_pending_of_ready (h : Progress root tree) (ho : OnlyReferences root)
    (hp : Refers root p path) (hready : ∀ p', DependsOn root p p' → Replaced tree p')
    {pre post : List String} (heq : path = pre ++ post) {m : Node}
    (hm : tree.find pre = some m) (hor : m.Waits ∨ post = []) : m.isPending = false := by
  rw [← Bool.not_eq_true]
  intro hpend
  have hpos : Positional root pre := by
    intro a segment b n hpre hn hseq
    refine (ho.positional p path hp).self a segment (b ++ post) n ?_ hn hseq
    rw [heq, hpre, List.append_assoc]
    rfl
  rcases h.walk hpos hm with ⟨q, hq, hget⟩ | ⟨_, rest, _, _, v, _, _, _, _, _, hset, hf⟩
  · have hdep : ∃ r w, m.get? r = some w ∧ w.Waits ∧ (r = [] ∨ post = []) := by
      rcases hor with hwaits | hpost
      · exact ⟨[], m, rfl, hwaits, Or.inl rfl⟩
      · obtain ⟨r, w, hr, hwaits⟩ := Node.exists_waiting (h.distinct.get hget) hpend
        exact ⟨r, w, hr, hwaits, Or.inr hpost⟩
    obtain ⟨r, w, hr, hwaits, hrp⟩ := hdep
    have hgetr : tree.get? (q ++ r) = some w := by
      rw [Node.get?_append, hget]
      exact hr
    obtain ⟨path', hpath'⟩ := ho.refers (h.waits _ w hgetr hwaits) hwaits
    have hd : DependsOn root p (q ++ r) := by
      refine ⟨path, path', hp, hpath', pre, post, q, heq, hq, ?_⟩
      rcases hrp with rfl | hpost
      · exact Or.inl (List.append_nil q).symm
      · exact Or.inr ⟨hpost, List.prefix_append q r⟩
    obtain ⟨u, hu, hset⟩ := hready _ hd
    rw [hgetr] at hu
    cases hu
    exact hwaits.not_settled hset
  · rw [Node.settled_of_find hset hf] at hpend
    cases hpend

/-- **A placeholder can be replaced** as soon as all that it depends on is, if its path leads
somewhere. -/
theorem find_of_ready (h : Progress root tree) (ho : OnlyReferences root)
    (hp : Refers root p path) (hl : Leads root path)
    (hready : ∀ p', DependsOn root p p' → Replaced tree p') :
    ∃ v, tree.find path = some v ∧ v.isPending = false := by
  obtain ⟨path', hc, hsome⟩ := hl
  rcases h.find_or_blocked hc (ho.positional p path hp) hsome with
    ⟨v, hv⟩ | ⟨pre, post, w, heq, hw, hwaits⟩
  · have hnil : path = path ++ [] := (List.append_nil path).symm
    exact ⟨v, hv, h.not_pending_of_ready ho hp hready hnil hv (Or.inr rfl)⟩
  · have hset := h.not_pending_of_ready ho hp hready heq hw (Or.inl hwaits)
    exact absurd hset hwaits.not_settled

end Progress

end EnergyPlan.Config
