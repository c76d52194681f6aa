/-
# What a pass achieves

A pass over a tree whose placeholders are only references never fails. It replaces every
placeholder whose path leads somewhere and whose dependencies were replaced before, and if
all are of this kind it blocks none. So a pass that changes nothing had nothing to do
within any bounded chain of dependencies.

Key definitions: `Ready`, `Advances`.
Key theorems: `visitSite_ok`, `foldlM_visitSite`, `runPass_ok`.
-/
import EnergyPlan.Proofs.Resolution.Progress

namespace EnergyPlan.Config

open Text

/-- A placeholder at a position leads somewhere, and all that it depends on is replaced. -/
def Ready (root tree : Node) (p : List Step) : Prop :=
  ∀ path, Refers root p path → Leads root path ∧ ∀ p', DependsOn root p p' → Replaced tree p'

/-- One state of a pass comes after another one. -/
structure Advances (root : Node) (state state' : PassState) : Prop where
  progress : Progress root state'.tree
  grows : ∀ q, Replaced state.tree q → Replaced state'.tree q
  unchanged : state'.changed = false → state.changed = false ∧ state'.tree = state.tree

variable {root tree : Node}

theorem Advances.refl {state : PassState} (h : Progress root state.tree) :
    Advances root state state :=
  ⟨h, fun _ hq => hq, fun hc => ⟨hc, rfl⟩⟩

theorem Advances.trans {s s' s'' : PassState} (h : Advances root s s')
    (h' : Advances root s' s'') : Advances root s s'' where
  progress := h'.progress
  grows q hq := h'.grows q (h.grows q hq)
  unchanged hc := by
    obtain ⟨hc', htree'⟩ := h'.unchanged hc
    obtain ⟨hc₀, htree⟩ := h.unchanged hc'
    exact ⟨hc₀, htree'.trans htree⟩

theorem Ready.mono {state state' : PassState} (ha : Advances root state state') {p : List Step}
    (h : Ready root state.tree p) : Ready root state'.tree p :=
  fun path hp => ⟨(h path hp).1, fun p' hdep => ha.grows p' ((h path hp).2 p' hdep)⟩

theorem usableTarget_eq_some {inner : List Char} {v : Node} :
    usableTarget tree inner = some v ↔
      tree.find (splitDots (String.ofList inner)) = some v ∧ v.isPending = false := by
  rw [usableTarget, Option.filter_eq_some_iff, Bool.not_eq_true']

/-! ### One visit -/

/-- The visit of a placeholder replaces it if it is ready, and blocks it only if it is not. -/
theorem visitSite_placeholder (env : Environment) (ho : OnlyReferences root) {state : PassState}
    (h : Progress root state.tree) {site : Site} {inner : List Char}
    (hw : Wholly site.text inner)
    (hp : Refers root site.position (splitDots (String.ofList inner))) :
    ∃ state', visitSite env state site = .ok state' ∧ Advances root state state' ∧
      (Ready root state.tree site.position →
        Replaced state'.tree site.position ∧ state'.blocked = state.blocked) := by
  rw [visitSite, resolveScalar_wholly hw]
  cases hu : usableTarget state.tree inner with
  | none =>
    refine ⟨⟨state.tree, state.changed, state.blocked ++ [site.path]⟩, rfl,
      ⟨h, fun _ hq => hq, fun hc => ⟨hc, rfl⟩⟩, fun hready => ?_⟩
    obtain ⟨hl, hdeps⟩ := hready _ hp
    obtain ⟨v, hv⟩ := h.find_of_ready ho hp hl hdeps
    rw [usableTarget_eq_some.2 hv] at hu
    cases hu
  | some v =>
    obtain ⟨hv, hset⟩ := usableTarget_eq_some.1 hu
    refine ⟨⟨state.tree.set v site.position, true, state.blocked⟩, rfl, ?_⟩
    rcases h.done _ _ hp with hsame | ⟨u, hdone⟩
    · obtain ⟨w, hw, hwaits⟩ := hp.waits
      have hpw := hsame.trans hw
      refine ⟨⟨h.set ho hp hsame hv hset, fun q hq => hq.set hpw hwaits v, fun hc => nomatch hc⟩,
        fun _ => ⟨replaced_set hpw hset, rfl⟩⟩
    · -- a placeholder that was replaced already gets the same node once more
      have hfound := hdone.found
      rw [hv] at hfound
      cases hfound
      rw [Node.set_get_self hdone.here]
      exact ⟨⟨h, fun _ hq => hq, fun hc => nomatch hc⟩, fun _ => ⟨hdone.replaced, rfl⟩⟩

/-- A visit never fails. -/
theorem visitSite_ok (env : Environment) (ho : OnlyReferences root) {start : Node}
    (hstart : Progress root start) {state : PassState} (h : Progress root state.tree)
    (hgrows : ∀ q, Replaced start q → Replaced state.tree q) {site : Site}
    (hsite : site ∈ start.sites) :
    ∃ state', visitSite env state site = .ok state' ∧ Advances root state state' ∧
      (Ready root state.tree site.position →
        (∀ path, Refers root site.position path → Replaced state'.tree site.position) ∧
          state'.blocked = state.blocked) := by
  obtain ⟨tag, hget, htag⟩ := Node.get_of_mem_sites hstart.distinct hsite
  cases hpend : Node.scalarPending tag site.text with
  | true =>
    have hroot := hstart.waits _ _ hget ⟨rfl, hpend⟩
    obtain ⟨inner, hw⟩ := ho.wholly _ _ _ hroot hpend
    have hp : Refers root site.position (splitDots (String.ofList inner)) :=
      ⟨tag, site.text, inner, hroot, htag, hw, rfl⟩
    obtain ⟨state', hok, hadv, hready⟩ := visitSite_placeholder env ho h hw hp
    exact ⟨state', hok, hadv, fun hr => ⟨fun _ _ => (hready hr).1, (hready hr).2⟩⟩
  | false =>
    have htext : (hasPlaceholder site.text || looksLikeExpression site.text) = false := by
      rw [Node.scalarPending, bne_iff_ne.2 htag, Bool.true_and] at hpend
      exact hpend
    rw [visitSite, resolveScalar_settled htext]
    refine ⟨state, rfl, Advances.refl h, fun _ => ⟨fun path hp => hgrows _ ?_, rfl⟩⟩
    exact ⟨_, hget, hpend⟩

/-! ### A whole pass -/

theorem foldlM_visitSite (env : Environment) (ho : OnlyReferences root) {start : Node}
    (hstart : Progress root start) {sites : List Site} (hsites : ∀ site ∈ sites, site ∈ start.sites)
    {state : PassState} (h : Progress root state.tree)
    (hgrows : ∀ q, Replaced start q → Replaced state.tree q) :
    ∃ state', sites.foldlM (visitSite env) state = .ok state' ∧ Advances root state state' ∧
      (∀ site ∈ sites, Ready root state.tree site.position →
        ∀ path, Refers root site.position path → Replaced state'.tree site.position) ∧
      ((∀ site ∈ sites, Ready root state.tree site.position) →
        state'.blocked = state.blocked) := by
  induction sites generalizing state with
  | nil =>
    refine ⟨state, rfl, Advances.refl h, ?_, fun _ => rfl⟩
    intro site hs
    cases hs
  | cons site rest ih =>
    obtain ⟨mid, hmid, hadv, hvisit⟩ :=
      visitSite_ok env ho hstart h hgrows (hsites site List.mem_cons_self)
    obtain ⟨last, hlast, hadv', hrest, hblocked⟩ :=
      ih (fun s hs => hsites s (List.mem_cons_of_mem _ hs)) hadv.progress
        fun q hq => hadv.grows q (hgrows q hq)
    refine ⟨last, ?_, hadv.trans hadv', ?_, ?_⟩
    · rw [List.foldlM_cons, hmid]
      exact hlast
    · intro s hs hready path hp
      rcases List.mem_cons.1 hs with rfl | hs
      · exact hadv'.grows _ ((hvisit hready).1 path hp)
      · exact hrest s hs (hready.mono hadv) path hp
    · intro hall
      have hfirst := (hvisit (hall site List.mem_cons_self)).2
      have hlater := hblocked fun s hs => (hall s (List.mem_cons_of_mem _ hs)).mono hadv
      exact hlater.trans hfirst

/-- **A pass never fails**, replaces every placeholder that is ready at its start, and blocks
none if all are. -/
theorem runPass_ok (env : Environment) (ho : OnlyReferences root) (h : Progress root tree) :
    ∃ state, runPass env tree = .ok state ∧ Advances root ⟨tree, false, []⟩ state ∧
      (∀ p path, Refers root p path → Ready root tree p → Replaced state.tree p) ∧
      ((∀ p, Ready root tree p) → state.blocked = []) := by
  have hfirst : Progress root (PassState.mk tree false []).tree := h
  obtain ⟨state, hok, hadv, hvisit, hblocked⟩ :=
    foldlM_visitSite env ho h (fun _ hs => hs) hfirst fun _ hq => hq
  refine ⟨state, hok, hadv, ?_, fun hall => hblocked fun s _ => hall s.position⟩
  intro p path hp hready
  rcases h.replaced_or hp with hsame | hrep
  · obtain ⟨tag, text, inner, hget, htag, hw, _⟩ := id hp
    have htree := hsame.trans hget
    cases p with
    | nil =>
      -- the root is not visited, but as a placeholder it stands on the way to its own path
      have hself : DependsOn root [] [] :=
        ⟨path, path, hp, hp, [], path, [], rfl, rfl, Or.inl rfl⟩
      exact hadv.grows _ ((hready path hp).2 _ hself)
    | cons step r =>
      have hroot : tree.isScalar = false := by
        rw [← Bool.not_eq_true]
        intro hs
        rw [Node.get?_eq_none_of_isScalar hs] at htree
        cases htree
      obtain ⟨site, hs, hpos, _⟩ := Node.exists_site hroot htree htag
      rw [← hpos] at hready hp ⊢
      exact hvisit site hs hready path hp
  · exact hadv.grows _ hrep

end EnergyPlan.Config
