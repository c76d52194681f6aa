/-
# What is named when resolution stops

A pass is a run of visits, one for each site of the tree it starts from, and what it leaves
in the tree is what the visits left, site by site. So the tree that a resolution stops with
is pending exactly where a visit of the last pass blocked its scalar or overlooked it, and
the paths that are named are those of the blocked ones, in document order.

Nothing pending is left out, and something is named, if the last pass overlooked nothing.
The root itself is never visited: a scalar in its place is pending without being named.

Key definitions: `Visited`, `Run`, `treeAfter`, `LastPass`.
Key theorems: `Run.sites`, `Run.pendingPaths`, `resolve_reports`.
-/
import EnergyPlan.Proofs.Resolution.Splicing
import EnergyPlan.Proofs.Resolution.Visits

namespace EnergyPlan.Config

/-- The paths that are named when a resolution stops before it is done. -/
def ResolutionError.unresolved? : ResolutionError → Option (List String)
  | .stuck paths => some paths
  | .exhausted _ paths => some paths
  | _ => none

/-- A site and what its visit did. -/
structure Visited where
  site : Site
  visit : Visit

namespace Visited

/-- The sites that a visit leaves in the place of the visited one. -/
def sites (v : Visited) : List Site :=
  match v.visit.replacement with
  | none => [v.site]
  | some node => node.sitesBelow v.site.position v.site.path

/-- Whether something that a visit leaves is pending. -/
def pending (v : Visited) : Bool := v.sites.any Site.live

/-- The visit passes over the opening of a placeholder. -/
def Overlooked (v : Visited) : Prop := v.visit.Overlooks v.site.text

end Visited

/-- The state of a pass after a visit. -/
def PassState.after (state : PassState) (v : Visited) : PassState where
  tree :=
    match v.visit.replacement with
    | none => state.tree
    | some node => state.tree.set node v.site.position
  changed := state.changed || v.visit.replacement.isSome
  blocked := state.blocked ++ if v.visit.blocked then [v.site.path] else []

/-- Visits one after another lead from a state of a pass to another one. -/
inductive Run (env : Environment) : PassState → List Visited → PassState → Prop
  | done (state : PassState) : Run env state [] state
  | visit {state last : PassState} {v : Visited} {rest : List Visited}
      (ok : resolveScalar env state.tree v.site.path v.site.text = .ok v.visit)
      (later : Run env (state.after v) rest last) : Run env state (v :: rest) last

/-- The tree after a number of passes, if none of them fails. -/
def treeAfter (env : Environment) : Nat → Node → Except ResolutionError Node
  | 0, tree => .ok tree
  | n + 1, tree => do
    let state ← runPass env tree
    treeAfter env n state.tree

variable {env : Environment} {state last : PassState} {visits : List Visited} {v : Visited}
  {tree : Node}

/-! ### A pass as a run of visits -/

theorem visitSite_eq (env : Environment) (state : PassState) (site : Site) :
    visitSite env state site =
      (resolveScalar env state.tree site.path site.text).map fun visit =>
        state.after ⟨site, visit⟩ := by
  rw [visitSite]
  cases resolveScalar env state.tree site.path site.text with
  | error e => rfl
  | ok visit =>
    obtain ⟨replacement, blocked⟩ := visit
    cases replacement <;> cases blocked <;>
      simp [bind, Except.bind, pure, Except.pure, Except.map, PassState.after]

/-- A fold of visits that does not fail is a run over the sites it visits. -/
theorem exists_run {sites : List Site} (h : sites.foldlM (visitSite env) state = .ok last) :
    ∃ visits, Run env state visits last ∧ visits.map (·.site) = sites := by
  induction sites generalizing state with
  | nil =>
    cases h
    exact ⟨[], .done _, rfl⟩
  | cons site rest ih =>
    rw [List.foldlM_cons, visitSite_eq] at h
    cases hv : resolveScalar env state.tree site.path site.text with
    | error e =>
      rw [hv] at h
      cases h
    | ok visit =>
      rw [hv] at h
      obtain ⟨later, hrun, hsites⟩ := ih h
      refine ⟨⟨site, visit⟩ :: later, .visit hv hrun, ?_⟩
      rw [List.map_cons, hsites]

namespace Run

/-- The paths that a run adds to the blocked ones. -/
theorem blocked (h : Run env state visits last) :
    last.blocked = state.blocked ++ (visits.filter (·.visit.blocked)).map (·.site.path) := by
  induction h with
  | done state => exact (List.append_nil _).symm
  | @visit state last v rest _ _ ih =>
    rw [ih, PassState.after]
    cases hb : v.visit.blocked <;> simp [hb]

/-- Each visit of a run ends in one of the ways that a visit can end. -/
theorem ends (h : Run env state visits last) : ∀ v ∈ visits, v.visit.Ends v.site.text := by
  induction h with
  | done state => exact fun v hv => nomatch hv
  | visit ok _ ih => exact List.forall_mem_cons.2 ⟨resolveScalar_cases ok, ih⟩

end Run

/-! ### What the visits leave -/

namespace Visited

theorem tidy_replacement {node : Node} (h : v.visit.Ends v.site.text)
    (hput : v.visit.replacement = some node) : node.Tidy := by
  have hplain {left : String} (hleaves : v.visit.Leaves v.site.text left) : node.Tidy := by
    rcases hleaves with ⟨hnone, _⟩ | hsome
    · rw [hput] at hnone
      cases hnone
    · rw [hput] at hsome
      cases hsome
      exact .scalar _ _
  cases h with
  | waits _ leaves _ => exact hplain leaves
  | settled _ put done =>
    rw [hput] at put
    cases put
    exact .settled done
  | stays _ leaves _ => exact hplain leaves

theorem sites_of_leaves {left : String} (h : v.visit.Leaves v.site.text left) :
    v.sites = [⟨v.site.position, v.site.path, left⟩] := by
  unfold sites
  rcases h with ⟨hnone, rfl⟩ | hsome
  · rw [hnone]
  · rw [hsome]
    rfl

/-- A visit leaves at most one pending scalar, at the path it visited. -/
theorem pending_paths (h : v.visit.Ends v.site.text) :
    (v.sites.filter Site.live).map (·.path) = if v.pending then [v.site.path] else [] := by
  have hplain {left : String} (hleaves : v.visit.Leaves v.site.text left) :
      (v.sites.filter Site.live).map (·.path) = if v.pending then [v.site.path] else [] := by
    rw [pending, sites_of_leaves hleaves, List.any_cons, List.any_nil, Bool.or_false]
    cases hlive : Site.live ⟨v.site.position, v.site.path, left⟩ <;> simp [hlive]
  cases h with
  | waits _ leaves _ => exact hplain leaves
  | settled _ put done =>
    have hnone : ∀ site ∈ v.sites, ¬ site.live = true := by
      rw [sites, put]
      exact fun site hs => Node.not_live_of_mem_sitesBelow _ _ _ site done hs
    have hany : v.pending = false := List.any_eq_false.2 hnone
    rw [List.filter_eq_nil_iff.2 hnone, hany]
    rfl
  | stays _ leaves _ => exact hplain leaves

/-- **Something pending is left by a visit** exactly if it blocks the scalar or overlooks it. -/
theorem pending_iff (h : v.visit.Ends v.site.text) :
    v.pending = true ↔ v.visit.blocked = true ∨ v.Overlooked := by
  have hplain {left : String} (hleaves : v.visit.Leaves v.site.text left) :
      v.pending = true ↔ Live left := by
    rw [pending, sites_of_leaves hleaves, List.any_cons, List.any_nil, Bool.or_false]
    exact Site.live_iff
  cases h with
  | waits blocked leaves live =>
    exact ⟨fun _ => Or.inl blocked, fun _ => (hplain leaves).2 live⟩
  | settled free put done =>
    have hnot : ¬ v.pending = true := by
      rw [pending, sites, put, List.any_eq_true]
      rintro ⟨site, hs, hlive⟩
      exact Node.not_live_of_mem_sitesBelow _ _ _ site done hs hlive
    refine ⟨fun hp => absurd hp hnot, ?_⟩
    rintro (hb | ho)
    · rw [free] at hb
      cases hb
    · exact absurd ho (Visit.not_overlooks_of_settled put done)
  | stays free leaves unmarked =>
    rw [hplain leaves, free, Overlooked, Visit.overlooks_of_stays free leaves unmarked]
    simp

end Visited

/-! ### What a run leaves -/

namespace Run

/-- **The sites after a run** over the last sites of a tree are those that each visit left. -/
theorem sites (before : List Site) (h : Run env state visits last) (ht : state.tree.Tidy)
    (hs : state.tree.sitesBelow [] "" = before ++ visits.map (·.site)) :
    last.tree.Tidy ∧ last.tree.sitesBelow [] "" = before ++ visits.flatMap Visited.sites ∧
      (state.tree.isScalar = false → last.tree.isScalar = false) := by
  induction h generalizing before with
  | done state => exact ⟨ht, hs, id⟩
  | @visit state last v rest ok later ih =>
    rw [List.map_cons] at hs
    rw [List.flatMap_cons, ← List.append_assoc]
    cases hr : v.visit.replacement with
    | none =>
      have htree : (state.after v).tree = state.tree := by rw [PassState.after, hr]
      have hone : v.sites = [v.site] := by rw [Visited.sites, hr]
      rw [htree] at ih
      rw [hone]
      exact ih _ ht (hs.trans (List.append_cons before v.site _))
    | some node =>
      have hlive : Live v.site.text := by
        rw [Live, ← Bool.not_eq_false]
        intro hquiet
        rw [resolveScalar_settled hquiet] at ok
        rw [← Except.ok.inj ok] at hr
        cases hr
      obtain ⟨r, hsplice⟩ := ht.splices hs hlive
      have htree : (state.after v).tree = state.tree.set node r := by
        rw [PassState.after, hr, hsplice.place]
        rfl
      have hput : v.sites = node.sitesBelow v.site.position v.site.path := by
        rw [Visited.sites, hr]
      have hnode : node.Tidy := Visited.tidy_replacement (resolveScalar_cases ok) hr
      rw [htree] at ih
      obtain ⟨htidy, hsites, hinner⟩ := ih _ (hsplice.tidy node hnode) (hsplice.sites node)
      refine ⟨htidy, ?_, fun hroot => hinner (hsplice.inner node hroot)⟩
      rw [hsites, hput]

/-- **The tree after a run over all its sites** is pending where a visit blocked or overlooked
its scalar. -/
theorem pendingPaths (h : Run env state visits last) (ht : state.tree.Tidy)
    (hs : state.tree.sitesBelow [] "" = visits.map (·.site)) :
    last.tree.pendingPaths = (visits.filter Visited.pending).map (·.site.path) := by
  have hsites := (h.sites [] ht hs).2.1
  rw [Node.pendingPaths, hsites, List.nil_append]
  have hends := h.ends
  clear hs hsites h
  induction visits with
  | nil => rfl
  | cons v rest ih =>
    rw [List.forall_mem_cons] at hends
    rw [List.flatMap_cons, List.filter_append, List.map_append, ih hends.2,
      Visited.pending_paths hends.1]
    cases hp : v.pending <;> simp [hp]

end Run

/-! ### Which failures name paths -/

theorem bind_eq_error {ε α β : Type} {x : Except ε α} {f : α → Except ε β} {e : ε}
    (h : x >>= f = .error e) : x = .error e ∨ ∃ a, x = .ok a ∧ f a = .error e := by
  cases x with
  | error e' =>
    cases h
    exact Or.inl rfl
  | ok a => exact Or.inr ⟨a, rfl, h⟩

theorem mapM_eq_error {ε α β : Type} {f : α → Except ε β} {as : List α} {e : ε}
    (h : as.mapM f = .error e) : ∃ a ∈ as, f a = .error e := by
  induction as with
  | nil => cases h
  | cons a rest ih =>
    rw [List.mapM_cons] at h
    rcases bind_eq_error h with h | ⟨b, _, h⟩
    · exact ⟨a, List.mem_cons_self, h⟩
    · rcases bind_eq_error h with h | ⟨bs, _, h⟩
      · obtain ⟨a', hm, ha'⟩ := ih h
        exact ⟨a', List.mem_cons_of_mem _ hm, ha'⟩
      · cases h

theorem foldlM_eq_error {ε α β : Type} {f : β → α → Except ε β} {as : List α} {b : β} {e : ε}
    (h : as.foldlM f b = .error e) : ∃ a ∈ as, ∃ b', f b' a = .error e := by
  induction as generalizing b with
  | nil => cases h
  | cons a rest ih =>
    rw [List.foldlM_cons] at h
    rcases bind_eq_error h with h | ⟨b', _, h⟩
    · exact ⟨a, List.mem_cons_self, b, h⟩
    · obtain ⟨a', hm, ha'⟩ := ih h
      exact ⟨a', List.mem_cons_of_mem _ hm, ha'⟩

section Failures

variable {path text current : String} {error : ResolutionError}

theorem unresolved_of_variableValue {inner : List Char}
    (h : variableValue env path inner = .error error) : error.unresolved? = none := by
  unfold variableValue at h
  dsimp only at h
  split at h <;> cases h
  rfl

theorem unresolved_of_fillVariables {cs : List Char}
    (h : fillVariables env path cs = .error error) : error.unresolved? = none := by
  unfold fillVariables at h
  rcases bind_eq_error h with h | ⟨filled, _, h⟩
  · obtain ⟨piece, _, hp⟩ := mapM_eq_error h
    cases piece with
    | literal c => cases hp
    | hole inner => exact unresolved_of_variableValue hp
  · cases h

theorem unresolved_of_settle {blocked : Bool}
    (h : settle tree path text current blocked = .error error) : error.unresolved? = none := by
  unfold settle at h
  dsimp only at h
  split at h
  · split at h <;> cases h
    rfl
  · cases h

/-- The visit of a scalar can fail, but only a whole pass can find that nothing goes on. -/
theorem unresolved_of_resolveScalar (h : resolveScalar env tree path text = .error error) :
    error.unresolved? = none := by
  unfold resolveScalar at h
  split at h
  · cases h
  · rcases bind_eq_error h with h | ⟨filled, _, h⟩
    · exact unresolved_of_fillVariables h
    · split at h
      · split at h
        · cases h
        · exact unresolved_of_settle h
      · exact unresolved_of_settle h

theorem unresolved_of_runPass (h : runPass env tree = .error error) :
    error.unresolved? = none := by
  obtain ⟨site, _, state, hvisit⟩ := foldlM_eq_error h
  rw [visitSite_eq] at hvisit
  cases hv : resolveScalar env state.tree site.path site.text with
  | ok visit =>
    rw [hv] at hvisit
    cases hvisit
  | error e =>
    rw [hv] at hvisit
    cases hvisit
    exact unresolved_of_resolveScalar hv

end Failures

/-! ### The last pass -/

/-- The last of `n + 1` passes over a tree: it visits the sites of the tree that the others have
led to. -/
structure LastPass (env : Environment) (root : Node) (n : Nat) (before : Node)
    (visits : List Visited) (working : PassState) : Prop where
  reached : treeAfter env n root = .ok before
  visited : visits.map (·.site) = before.sites
  run : Run env ⟨before, false, []⟩ visits working

theorem exists_visits {state : PassState} (h : runPass env tree = .ok state) :
    ∃ visits, Run env ⟨tree, false, []⟩ visits state ∧ visits.map (·.site) = tree.sites :=
  exists_run h

theorem Node.sites_of_scalar (h : tree.isScalar = true) : tree.sites = [] := by
  rw [Node.sites, if_pos h]

theorem Node.sites_of_not_scalar (h : tree.isScalar = false) :
    tree.sites = tree.sitesBelow [] "" := by
  rw [Node.sites, h]
  rfl

/-- Passes leave a tree tidy, and no scalar takes the place of its root. -/
theorem treeAfter_tidy {n : Nat} {before : Node} (ht : tree.Tidy) (hroot : tree.isScalar = false)
    (h : treeAfter env n tree = .ok before) : before.Tidy ∧ before.isScalar = false := by
  induction n generalizing tree with
  | zero =>
    cases h
    exact ⟨ht, hroot⟩
  | succ n ih =>
    rw [treeAfter] at h
    cases hpass : runPass env tree with
    | error e =>
      rw [hpass] at h
      cases h
    | ok state =>
      rw [hpass] at h
      obtain ⟨visits, hrun, hvisits⟩ := exists_visits hpass
      rw [Node.sites_of_not_scalar hroot] at hvisits
      obtain ⟨htidy, _, hinner⟩ := hrun.sites [] ht hvisits.symm
      exact ih htidy (hinner hroot) h

theorem runPass_of_scalar (h : tree.isScalar = true) :
    runPass env tree = .ok ⟨tree, false, []⟩ := by
  rw [runPass, Node.sites_of_scalar h]
  rfl

/-- A scalar in the place of the root stays as it is. -/
theorem treeAfter_of_scalar {n : Nat} {before : Node} (hroot : tree.isScalar = true)
    (h : treeAfter env n tree = .ok before) : before = tree := by
  induction n with
  | zero =>
    cases h
    rfl
  | succ n ih =>
    rw [treeAfter, runPass_of_scalar hroot] at h
    exact ih h

/-- What a pass decides: resolution is done, or it stops since nothing has changed, or it goes on.
In the last two cases something is blocked or pending. -/
theorem runPasses_succ {state : PassState} (hpass : runPass env tree = .ok state) (allowed : Int)
    (left done : Nat) (blocked : List String) :
    runPasses env allowed (left + 1) done tree blocked = ⟨.ok state.tree, done + 1⟩ ∨
      (state.blocked = [] → state.tree.isPending = true) ∧
        (runPasses env allowed (left + 1) done tree blocked =
            ⟨.error (.stuck state.blocked), done + 1⟩ ∧ state.changed = false ∨
          runPasses env allowed (left + 1) done tree blocked =
            runPasses env allowed left (done + 1) state.tree state.blocked) := by
  rw [runPasses, hpass]
  dsimp only
  split
  · exact Or.inl rfl
  · next hnot =>
    refine Or.inr ⟨fun hnil => ?_, ?_⟩
    · simpa [hnil] using hnot
    · split
      · next hsame => exact Or.inl ⟨rfl, by simpa using hsame⟩
      · exact Or.inr rfl

/-- Where passes stop without a result: the last of them leaves something blocked or pending,
and it changes nothing or no pass is left. -/
theorem runPasses_stops {allowed : Int} {left done : Nat} {blocked paths : List String}
    {error : ResolutionError} (hleft : 0 < left) (hpaths : error.unresolved? = some paths)
    (h : (runPasses env allowed left done tree blocked).outcome = .error error) :
    ∃ n before working, treeAfter env n tree = .ok before ∧ runPass env before = .ok working ∧
      (runPasses env allowed left done tree blocked).passes = done + (n + 1) ∧
      paths = working.blocked ∧
      (error = .stuck paths ∧ working.changed = false ∨
        error = .exhausted allowed paths ∧ n + 1 = left) ∧
      (working.blocked = [] → working.tree.isPending = true) := by
  induction left generalizing done tree blocked with
  | zero => exact absurd hleft (Nat.lt_irrefl 0)
  | succ left ih =>
    cases hpass : runPass env tree with
    | error e =>
      rw [runPasses, hpass] at h
      cases h
      rw [unresolved_of_runPass hpass] at hpaths
      cases hpaths
    | ok state =>
      rcases runPasses_succ hpass allowed left done blocked with
        heq | ⟨hopen, ⟨heq, hsame⟩ | heq⟩ <;> rw [heq] at h ⊢
      · cases h
      · cases h
        cases hpaths
        exact ⟨0, tree, state, rfl, hpass, rfl, rfl, Or.inl ⟨rfl, hsame⟩, hopen⟩
      · by_cases hlast : left = 0
        · subst hlast
          cases h
          cases hpaths
          exact ⟨0, tree, state, rfl, hpass, rfl, rfl, Or.inr ⟨rfl, rfl⟩, hopen⟩
        · obtain ⟨n, before, working, hreach, hdone, hcount, hblocked, hwhy, hopen'⟩ :=
            ih (Nat.pos_of_ne_zero hlast) h
          refine ⟨n + 1, before, working, ?_, hdone, by omega, hblocked, ?_, hopen'⟩
          · rw [treeAfter, hpass]
            exact hreach
          · rcases hwhy with hstuck | ⟨herror, hn⟩
            · exact Or.inl hstuck
            · exact Or.inr ⟨herror, by omega⟩

/-! ### What is named -/

namespace Run

/-- The blocked paths are among those of what is pending, and all of them if the run overlooked
nothing. -/
theorem blocked_eq_pending_iff (h : Run env state visits last) :
    ((visits.filter (·.visit.blocked)).map (·.site.path)).Sublist
        ((visits.filter Visited.pending).map (·.site.path)) ∧
      ((visits.filter (·.visit.blocked)).map (·.site.path) =
          (visits.filter Visited.pending).map (·.site.path) ↔
        ∀ v ∈ visits, ¬ v.Overlooked) := by
  have hends := h.ends
  have hsub : (visits.filter (·.visit.blocked)).Sublist (visits.filter Visited.pending) := by
    have hpick : visits.filter (·.visit.blocked) =
        (visits.filter Visited.pending).filter (·.visit.blocked) := by
      rw [List.filter_filter]
      refine List.filter_congr fun v hv => ?_
      have hp := (Visited.pending_iff (hends v hv)).2
      cases hb : v.visit.blocked with
      | false => rfl
      | true => rw [hp (Or.inl hb)]; rfl
    rw [hpick]
    exact List.filter_sublist
  refine ⟨hsub.map _, fun heq v hv hover => ?_, fun hnone => ?_⟩
  · -- lists of one length, one within the other, are the same list
    have hlen := congrArg List.length heq
    rw [List.length_map, List.length_map] at hlen
    have hpending : v ∈ visits.filter Visited.pending :=
      List.mem_filter.2 ⟨hv, (Visited.pending_iff (hends v hv)).2 (Or.inr hover)⟩
    rw [← hsub.eq_of_length hlen, List.mem_filter, hover.1] at hpending
    cases hpending.2
  · congr 1
    refine List.filter_congr fun v hv => ?_
    have hp := Visited.pending_iff (hends v hv)
    rw [Bool.eq_iff_iff, hp]
    exact ⟨Or.inl, fun hor => hor.resolve_right (hnone v hv)⟩

end Run

/-- **What is named when resolution stops** without a result, after at least one pass. The
last pass changed nothing, or no other one was allowed; the paths are those of the scalars that
it blocked, in document order, and each of them is pending in the tree at that moment. They are
all that is pending there exactly if the root is no scalar and the last pass overlooked
nothing, and then there is at least one. -/
theorem resolve_reports {root : Node} (hd : root.Distinct) {allowed : Int}
    (hallowed : 1 ≤ allowed) {error : ResolutionError} {paths : List String}
    (hpaths : error.unresolved? = some paths)
    (h : (resolve env allowed root).outcome = .error error) :
    ∃ n before visits working, LastPass env root n before visits working ∧
      (resolve env allowed root).passes = n + 1 ∧
      (error = .stuck paths ∧ working.changed = false ∨
        error = .exhausted allowed paths ∧ n + 1 = allowed) ∧
      paths = (visits.filter (·.visit.blocked)).map (·.site.path) ∧
      paths.Sublist working.tree.pendingPaths ∧
      (paths = working.tree.pendingPaths ↔
        root.isScalar = false ∧ ∀ v ∈ visits, ¬ v.Overlooked) ∧
      (root.isScalar = false → (∀ v ∈ visits, ¬ v.Overlooked) → paths ≠ []) := by
  have hleft : 0 < allowed.toNat := by omega
  obtain ⟨n, before, working, hreach, hpass, hcount, hblocked, hwhy, hopen⟩ :=
    runPasses_stops hleft hpaths h
  obtain ⟨visits, hrun, hvisits⟩ := exists_visits hpass
  have hnamed : paths = (visits.filter (·.visit.blocked)).map (·.site.path) :=
    hblocked.trans (hrun.blocked.trans (List.nil_append _))
  refine ⟨n, before, visits, working, ⟨hreach, hvisits, hrun⟩, ?_, ?_, hnamed, ?_⟩
  · rw [resolve, hcount, Nat.zero_add]
  · rcases hwhy with hstuck | ⟨herror, hn⟩
    · exact Or.inl hstuck
    · exact Or.inr ⟨herror, by omega⟩
  cases hroot : root.isScalar with
  | true =>
    -- no site is visited, and the root is what is pending
    rw [treeAfter_of_scalar hroot hreach] at hpass hvisits
    rw [runPass_of_scalar hroot] at hpass
    cases hpass
    rw [Node.sites_of_scalar hroot, List.map_eq_nil_iff] at hvisits
    subst hvisits
    rw [hnamed]
    have hne := Node.pendingPaths_ne_nil (hopen rfl)
    exact ⟨List.nil_sublist _, ⟨fun heq => absurd heq.symm hne, fun hnot =>
      absurd hnot.1 Bool.noConfusion⟩, fun hnot => absurd hnot Bool.noConfusion⟩
  | false =>
    obtain ⟨htidy, hinner⟩ := treeAfter_tidy hd.tidy hroot hreach
    rw [Node.sites_of_not_scalar hinner] at hvisits
    have hpending := hrun.pendingPaths htidy hvisits.symm
    obtain ⟨hsub, hiff⟩ := hrun.blocked_eq_pending_iff
    rw [← hpending, ← hnamed] at hsub hiff
    refine ⟨hsub, hiff.trans ⟨fun hnone => ⟨rfl, hnone⟩, And.right⟩, fun _ hnone hnil => ?_⟩
    have hne := Node.pendingPaths_ne_nil (hopen (hblocked.symm.trans hnil))
    exact hne ((hiff.2 hnone).symm.trans hnil)

/-- Two references that cannot be followed, and a placeholder that is never closed. -/
def sampleOpen : Node :=
  .mapping [("a", .plain "$\x7bb\x7d"), ("b", .plain "$\x7bc\x7d"), ("d", .plain "$\x7b")]

theorem sampleOpen_distinct : sampleOpen.Distinct := by
  refine .mapping (by decide) fun e he => ?_
  simp only [List.mem_cons, List.not_mem_nil, or_false] at he
  rcases he with rfl | rfl | rfl <;> exact .scalar _ _

/-- The two references are named. -/
theorem resolve_reports_sample :
    (resolve (fun _ => none) 3 sampleOpen).outcome = .error (.stuck ["a", "b"]) ∧
      ∃ n before visits working, LastPass (fun _ => none) sampleOpen n before visits working ∧
        ["a", "b"] = (visits.filter (·.visit.blocked)).map (·.site.path) ∧
        ["a", "b"].Sublist working.tree.pendingPaths ∧
        (["a", "b"] = working.tree.pendingPaths ↔ ∀ v ∈ visits, ¬ v.Overlooked) := by
  have hstuck : (resolve (fun _ => none) 3 sampleOpen).outcome =
      .error (.stuck ["a", "b"]) := by rfl
  obtain ⟨n, before, visits, working, hlast, _, _, hnamed, hsub, hiff, _⟩ :=
    resolve_reports sampleOpen_distinct (by decide) rfl hstuck
  exact ⟨hstuck, n, before, visits, working, hlast, hnamed, hsub,
    hiff.trans ⟨And.right, fun hnone => ⟨rfl, hnone⟩⟩⟩

/-- A mapping with nothing but a placeholder that is never closed. -/
def sampleUnclosed : Node := .mapping [("a", .plain "$\x7b")]

/-- The one scalar is pending before and after the only pass, and it is not named. -/
theorem not_reported_unclosed :
    resolve (fun _ => none) 32 sampleUnclosed = ⟨.error (.stuck []), 1⟩ ∧
      runPass (fun _ => none) sampleUnclosed = .ok ⟨sampleUnclosed, false, []⟩ ∧
      sampleUnclosed.pendingPaths = ["a"] :=
  ⟨by rfl, by rfl, by rfl⟩

end EnergyPlan.Config
