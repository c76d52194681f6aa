/-
# The order of a field's entries does not matter

Two values are rearranged if they differ only in the order in which their mappings list their
entries, at any depth. Their levels have the same keys, so they align in the same way, and they have
the same entries, in another order. At each key the same entry decides: of two entries that cover a
key one prevails, so it never comes to which of them is the later one. The expansions have the same
scalars at the same keys, and list them in one order if every key that is given is a member.

Errors do not depend on the order either: sequences are refused all in the same way, and the
dimensions without members are gone through in the order of the field.

Key definitions: `Node.Rearranged`, `Corresponds`.
Key theorems: `Rearranged.entriesOf`, `winner?_eq_of_perm`, `expand_eq_of_perm`,
`broadcast_rearranged`.
-/
import EnergyPlan.Proofs.Idempotence
import EnergyPlan.Proofs.Outcomes

namespace EnergyPlan.Config

/-- Two nodes are equal up to the order of the entries of their mappings, at any depth. -/
inductive Node.Rearranged : Node → Node → Prop
  | refl (node : Node) : Rearranged node node
  | trans {a b c : Node} (first : Rearranged a b) (second : Rearranged b c) : Rearranged a c
  | entries {es fs : List (String × Node)} (h : es.Perm fs) : Rearranged (.mapping es) (.mapping fs)
  | entry {before after : List (String × Node)} {key : String} {a b : Node} (h : Rearranged a b) :
      Rearranged (.mapping (before ++ (key, a) :: after)) (.mapping (before ++ (key, b) :: after))
  | item {before after : List Node} {a b : Node} (h : Rearranged a b) :
      Rearranged (.sequence (before ++ a :: after)) (.sequence (before ++ b :: after))

namespace Node.Rearranged

variable {a b : Node}

theorem isNull_eq (h : Rearranged a b) : a.isNull = b.isNull := by
  induction h with
  | refl node => rfl
  | trans _ _ ih ih' => rw [ih, ih']
  | entries h => rfl
  | entry h => rfl
  | item h => rfl

/-- No key occurs twice after rearranging if none did before. -/
theorem distinct (h : Rearranged a b) (ha : a.Distinct) : b.Distinct := by
  induction h with
  | refl node => exact ha
  | trans _ _ ih ih' => exact ih' (ih ha)
  | entries h =>
    cases ha with
    | mapping keys below =>
      exact .mapping ((h.map _).nodup_iff.1 keys) fun e he => below e (h.mem_iff.2 he)
  | @entry before after key a b _ ih =>
    cases ha with
    | mapping keys below =>
      refine .mapping ?_ fun e he => ?_
      · rw [List.map_append, List.map_cons] at keys ⊢
        exact keys
      · rcases List.mem_append.1 he with he | he
        · exact below e (List.mem_append_left _ he)
        · rcases List.mem_cons.1 he with rfl | he
          · exact ih (below (key, a) (List.mem_append_right _ List.mem_cons_self))
          · exact below e (List.mem_append_right _ (List.mem_cons_of_mem _ he))
  | @item before after a b _ ih =>
    cases ha with
    | sequence below =>
      refine .sequence fun node hnode => ?_
      rcases List.mem_append.1 hnode with hnode | hnode
      · exact below node (List.mem_append_left _ hnode)
      · rcases List.mem_cons.1 hnode with rfl | hnode
        · exact ih (below a (List.mem_append_right _ List.mem_cons_self))
        · exact below node (List.mem_append_right _ (List.mem_cons_of_mem _ hnode))

end Node.Rearranged

end EnergyPlan.Config

namespace EnergyPlan.Fields

open Config Text

/-! ### Levels -/

/-- Levels with the same keys in some order. -/
abbrev SameLevels (a b : List (List String)) : Prop := List.Forall₂ List.Perm a b

theorem SameLevels.refl (a : List (List String)) : SameLevels a a :=
  List.forall₂_same.2 fun keys _ => .refl keys

theorem SameLevels.trans {a b c : List (List String)} (h : SameLevels a b) (h' : SameLevels b c) :
    SameLevels a c := by
  induction h generalizing c with
  | nil => exact h'
  | cons hkeys _ ih =>
    cases h' with
    | cons hkeys' h' => exact .cons (hkeys.trans hkeys') (ih h')

theorem joinLevels_nil (a : List (List String)) : joinLevels a [] = a := by
  cases a <;> rfl

theorem SameLevels.join {a a' b b' : List (List String)} (ha : SameLevels a a')
    (hb : SameLevels b b') : SameLevels (joinLevels a b) (joinLevels a' b') := by
  induction ha generalizing b b' with
  | nil => exact hb
  | cons hkeys ha ih =>
    cases hb with
    | nil => exact .cons hkeys ha
    | cons hkeys' hb => exact .cons (hkeys.append hkeys') (ih hb)

/-- Levels of three values can be joined in another order. -/
theorem joinLevels_left_comm (a b c : List (List String)) :
    SameLevels (joinLevels a (joinLevels b c)) (joinLevels b (joinLevels a c)) := by
  induction a generalizing b c with
  | nil => exact .refl _
  | cons keys a ih =>
    cases b with
    | nil => exact .refl _
    | cons keys' b =>
      cases c with
      | nil =>
        rw [joinLevels_nil, joinLevels_nil]
        have hrest := ih b []
        rw [joinLevels_nil, joinLevels_nil] at hrest
        exact .cons List.perm_append_comm hrest
      | cons keys'' c => exact .cons (List.perm_append_comm_assoc _ _ _) (ih b c)

theorem sameLevels_entries {es fs : List (String × Node)} (h : es.Perm fs) :
    SameLevels (entryLevels es) (entryLevels fs) := by
  induction h with
  | nil => exact .refl _
  | cons e _ ih =>
    rw [entryLevels, entryLevels]
    exact .join (.refl _) ih
  | swap e f es =>
    rw [entryLevels, entryLevels, entryLevels, entryLevels]
    exact joinLevels_left_comm _ _ _
  | trans _ _ ih ih' => exact ih.trans ih'

theorem sameLevels_entry {a b : Node} (h : SameLevels (levelKeys a) (levelKeys b))
    (before after : List (String × Node)) (key : String) :
    SameLevels (entryLevels (before ++ (key, a) :: after))
      (entryLevels (before ++ (key, b) :: after)) := by
  induction before with
  | nil => exact .join h (.refl _)
  | cons e before ih => exact .join (.refl _) ih

theorem sameLevels_of_rearranged {a b : Node} (h : a.Rearranged b) :
    SameLevels (levelKeys a) (levelKeys b) := by
  induction h with
  | refl node => exact .refl _
  | trans _ _ ih ih' => exact ih.trans ih'
  | entries h => exact .cons ((h.map _).filter _) (sameLevels_entries h)
  | @entry before after key a b _ ih =>
    refine .cons ?_ (sameLevels_entry ih before after key)
    rw [List.map_append, List.map_append, List.map_cons, List.map_cons]
  | item => exact .refl _

variable {sets : MemberSets} {dimensions : List Dimension} {path : String}

theorem choose_eq_of_perm {keys keys' : List String} (h : keys.Perm keys') (taken : List Nat) :
    choose sets dimensions taken keys = choose sets dimensions taken keys' := by
  rw [choose, choose, preferences, preferences, h.isEmpty_eq]
  simp only [h.all_eq]

theorem chooseAll_eq_of_sameLevels {a b : List (List String)} (h : SameLevels a b)
    (taken : List Nat) : chooseAll sets dimensions taken a = chooseAll sets dimensions taken b := by
  induction h generalizing taken with
  | nil => rfl
  | cons hkeys _ ih =>
    rw [chooseAll, chooseAll, choose_eq_of_perm hkeys]
    simp only [ih]

/-- **Rearranged values align in the same way.** -/
theorem alignLevels_eq_of_rearranged {a b : Node} (h : a.Rearranged b) :
    alignLevels sets dimensions path a = alignLevels sets dimensions path b := by
  have hlevels := sameLevels_of_rearranged h
  rw [alignLevels, alignLevels, chooseAll_eq_of_sameLevels hlevels, hlevels.length_eq]

/-! ### Outcomes -/

/-- Two outcomes with one error, or with results in a relation. -/
inductive Corresponds {ε α β : Type} (R : α → β → Prop) : Except ε α → Except ε β → Prop
  | error (e : ε) : Corresponds R (.error e) (.error e)
  | ok {a : α} {b : β} (h : R a b) : Corresponds R (.ok a) (.ok b)

theorem Corresponds.bind {ε α β γ δ : Type} {R : α → β → Prop} {S : γ → δ → Prop}
    {x : Except ε α} {y : Except ε β} {f : α → Except ε γ} {g : β → Except ε δ}
    (h : Corresponds R x y) (hfg : ∀ a b, R a b → Corresponds S (f a) (g b)) :
    Corresponds S (x >>= f) (y >>= g) := by
  cases h with
  | error e => exact .error e
  | ok h => exact hfg _ _ h

theorem Corresponds.imp {ε α β : Type} {R S : α → β → Prop} {x : Except ε α} {y : Except ε β}
    (h : Corresponds R x y) (hRS : ∀ a b, R a b → S a b) : Corresponds S x y := by
  cases h with
  | error e => exact .error e
  | ok h => exact .ok (hRS _ _ h)

theorem Corresponds.mapM {ε α β γ : Type} {R : β → γ → Prop} {f : α → Except ε β}
    {g : α → Except ε γ} {as : List α} (h : ∀ a ∈ as, Corresponds R (f a) (g a)) :
    Corresponds (List.Forall₂ R) (as.mapM f) (as.mapM g) := by
  induction as with
  | nil => exact .ok .nil
  | cons a as ih =>
    obtain ⟨ha, hrest⟩ := List.forall_mem_cons.1 h
    rw [List.mapM_cons, List.mapM_cons]
    exact ha.bind fun b c hb => (ih hrest).bind fun bs cs hbs => .ok (.cons hb hbs)

theorem Corresponds.error_iff {ε α β : Type} {R : α → β → Prop} {x : Except ε α} {y : Except ε β}
    (h : Corresponds R x y) (e : ε) : x = .error e ↔ y = .error e := by
  cases h with
  | error e' => exact ⟨fun h => by cases h; rfl, fun h => by cases h; rfl⟩
  | ok h => exact ⟨nofun, nofun⟩

/-! ### Entries -/

/-- The entries of one value and those of further ones. -/
def appended (x y : Except BroadcastError (List Entry)) : Except BroadcastError (List Entry) := do
  let first ← x
  let others ← y
  return first ++ others

theorem entriesOfAll_cons (key : String) (node : Node) (rest : List (String × Node))
    (position : Nat) (positions : List Nat) (pattern : Pattern) :
    entriesOfAll path ((key, node) :: rest) position positions pattern =
      appended (entriesOf path node positions (pattern.set position (patternKey key)))
        (entriesOfAll path rest position positions pattern) := by
  rw [entriesOfAll]
  rfl

/-- Entries are there, or a sequence has been found. -/
abbrev Entered (path : String) (x : Except BroadcastError (List Entry)) : Prop :=
  ∀ e, x = .error e → e = .sequenceFound path

mutual

theorem entered_entriesOf : ∀ (node : Node) (positions : List Nat) (pattern : Pattern),
    Entered path (entriesOf path node positions pattern)
  | .null, _, _, e, h => by
    rw [entriesOf] at h
    cases h
  | .scalar _ _, _, _, e, h => by
    rw [entriesOf] at h
    cases h
  | .sequence _, _, _, e, h => by
    rw [entriesOf] at h
    cases h
    rfl
  | .mapping _, [], _, e, h => by
    rw [entriesOf] at h
    cases h
  | .mapping entries, position :: rest, pattern, e, h => by
    rw [entriesOf] at h
    exact entered_entriesOfAll entries position rest pattern e h

theorem entered_entriesOfAll : ∀ (entries : List (String × Node)) (position : Nat)
    (positions : List Nat) (pattern : Pattern),
    Entered path (entriesOfAll path entries position positions pattern)
  | [], _, _, _, e, h => by
    rw [entriesOfAll] at h
    cases h
  | (key, node) :: rest, position, positions, pattern, e, h => by
    rw [entriesOfAll_cons] at h
    have hfirst := entered_entriesOf node positions (pattern.set position (patternKey key))
    have hothers := entered_entriesOfAll rest position positions pattern
    cases hx : entriesOf path node positions (pattern.set position (patternKey key)) with
    | error e' =>
      rw [hx] at h
      cases h
      exact hfirst e hx
    | ok first =>
      cases hy : entriesOfAll path rest position positions pattern with
      | error e' =>
        rw [hx, hy] at h
        cases h
        exact hothers e hy
      | ok others =>
        rw [hx, hy] at h
        cases h

end

/-- The entries of three values, the first two of them in either order. -/
theorem appended_left_comm {x y z : Except BroadcastError (List Entry)} (hx : Entered path x)
    (hy : Entered path y) (hz : Entered path z) :
    Corresponds List.Perm (appended x (appended y z)) (appended y (appended x z)) := by
  cases x with
  | error e =>
    cases y with
    | error e' =>
      rw [hx e rfl, hy e' rfl]
      exact .error _
    | ok ys => exact .error e
  | ok xs =>
    cases y with
    | error e => exact .error e
    | ok ys =>
      cases z with
      | error e => exact .error e
      | ok zs => exact .ok (List.perm_append_comm_assoc xs ys zs)

theorem Corresponds.self {ε α : Type} (x : Except ε (List α)) : Corresponds List.Perm x x := by
  cases x with
  | error e => exact .error e
  | ok as => exact .ok (.refl as)

theorem Corresponds.trans_perm {ε α : Type} {x y z : Except ε (List α)}
    (h : Corresponds List.Perm x y) (h' : Corresponds List.Perm y z) :
    Corresponds List.Perm x z := by
  cases h with
  | error e => exact h'
  | ok hperm =>
    cases h' with
    | ok hperm' => exact .ok (hperm.trans hperm')

theorem Corresponds.append {x x' y y' : Except BroadcastError (List Entry)}
    (hx : Corresponds List.Perm x x') (hy : Corresponds List.Perm y y') :
    Corresponds List.Perm (appended x y) (appended x' y') :=
  hx.bind fun _ _ hxs => hy.bind fun _ _ hys => .ok (hxs.append hys)

theorem entriesOfAll_perm {es fs : List (String × Node)} (h : es.Perm fs) (position : Nat)
    (positions : List Nat) (pattern : Pattern) :
    Corresponds List.Perm (entriesOfAll path es position positions pattern)
      (entriesOfAll path fs position positions pattern) := by
  induction h with
  | nil => exact .self _
  | cons e _ ih =>
    rw [entriesOfAll_cons, entriesOfAll_cons]
    exact .append (.self _) ih
  | swap e f es =>
    rw [entriesOfAll_cons, entriesOfAll_cons, entriesOfAll_cons, entriesOfAll_cons]
    exact appended_left_comm (entered_entriesOf _ _ _) (entered_entriesOf _ _ _)
      (entered_entriesOfAll _ _ _ _)
  | trans _ _ ih ih' => exact ih.trans_perm ih'

/-- **Rearranged values have the same entries,** in some order, or hold a sequence both. -/
theorem entriesOf_rearranged {a b : Node} (h : a.Rearranged b) (path : String)
    (positions : List Nat) (pattern : Pattern) :
    Corresponds List.Perm (entriesOf path a positions pattern)
      (entriesOf path b positions pattern) := by
  induction h generalizing positions pattern with
  | refl node => exact .self _
  | trans _ _ ih ih' => exact (ih positions pattern).trans_perm (ih' positions pattern)
  | entries h =>
    cases positions with
    | nil =>
      rw [entriesOf, entriesOf]
      exact .self _
    | cons position rest =>
      rw [entriesOf, entriesOf]
      exact entriesOfAll_perm h position rest pattern
  | @entry before after key a b _ ih =>
    cases positions with
    | nil =>
      rw [entriesOf, entriesOf]
      exact .self _
    | cons position rest =>
      rw [entriesOf, entriesOf]
      induction before with
      | nil =>
        rw [List.nil_append, List.nil_append, entriesOfAll_cons, entriesOfAll_cons]
        exact .append (ih rest _) (.self _)
      | cons e before ihbefore =>
        rw [List.cons_append, List.cons_append, entriesOfAll_cons, entriesOfAll_cons]
        exact .append (.self _) ihbefore
  | item =>
    rw [entriesOf, entriesOf]
    exact .error _

/-! ### Candidates -/

/-- Entries in another order have the same labels to list, in one order if the keys that are given
are members. -/
theorem candidates_perm {es fs : List Entry} (h : es.Perm fs) (p : Nat) (d : Dimension) :
    Corresponds (fun ls ls' => (∀ label, label ∈ ls ↔ label ∈ ls') ∧
        ((∀ e ∈ es, ∀ key, e.keyAt p = some key → key ∈ sets.members d) → ls = ls'))
      (candidates sets path es p d) (candidates sets path fs p d) := by
  have hgiven := h.filterMap (Entry.keyAt · p)
  have hsame (members : List String) (label : String) :
      label ∈ (es.filterMap (Entry.keyAt · p)).foldl appendNew members ↔
        label ∈ (fs.filterMap (Entry.keyAt · p)).foldl appendNew members := by
    rw [mem_foldl_appendNew, mem_foldl_appendNew, hgiven.mem_iff]
  have hlisted (members : List String)
      (hsub : ∀ key ∈ es.filterMap (Entry.keyAt · p), key ∈ members) :
      (es.filterMap (Entry.keyAt · p)).foldl appendNew members =
        (fs.filterMap (Entry.keyAt · p)).foldl appendNew members := by
    rw [foldl_appendNew_of_subset hsub,
      foldl_appendNew_of_subset fun key hkey => hsub key (hgiven.mem_iff.2 hkey)]
  have hmembers (hin : ∀ e ∈ es, ∀ key, e.keyAt p = some key → key ∈ sets.members d) :
      ∀ key ∈ es.filterMap (Entry.keyAt · p), key ∈ sets.members d := by
    intro key hkey
    obtain ⟨e, he, hk⟩ := List.mem_filterMap.1 hkey
    exact hin e he key hk
  simp only [candidates, ← h.any_eq, ← hgiven.contains_eq]
  split
  · split
    · exact .error _
    · exact .ok ⟨hsame _, fun hin => hlisted _ (hmembers hin)⟩
  · refine .ok ⟨hsame _, fun hin => hlisted _ fun key hkey => ?_⟩
    exact List.mem_filter.2 ⟨hmembers hin key hkey, List.contains_iff_mem.2 hkey⟩

/-! ### The entry that decides -/

/-- **It does not matter in which order comparable entries are gone through:** the winner prevails
over every other one. -/
theorem winner?_eq_of_perm {size : Nat} {es fs : List Entry} (h : es.Perm fs)
    (hcomp : Comparable size es) : winner? es = winner? fs := by
  have hcomp' : Comparable size fs :=
    ⟨fun e he => hcomp.1 e (h.mem_iff.2 he),
      (h.pairwise_iff fun ⟨p, hp⟩ => ⟨p, fun hiff => hp hiff.symm⟩).1 hcomp.2⟩
  by_cases hne : es = []
  · subst hne
    rw [List.nil_perm.1 h]
  · obtain ⟨w, hw⟩ := exists_winner hne
    obtain ⟨w', hw'⟩ := exists_winner fun hnil => hne (List.perm_nil.1 (hnil ▸ h))
    obtain ⟨hmem, hprev⟩ := winner?_eq_some hcomp hw
    obtain ⟨hmem', hprev'⟩ := winner?_eq_some hcomp' hw'
    have heq : w = w' := by
      by_contra hdiff
      have hfirst := hprev w' (h.mem_iff.2 hmem') (Ne.symm hdiff)
      exact Entry.Prevails.irrefl (hfirst.trans (hprev' w (h.mem_iff.1 hmem) hdiff))
    rw [hw, hw', heq]

/-- The same labels are expanded in the same way. -/
theorem expand_eq_of_perm {size position : Nat} {labels : List (List String)} {es fs : List Entry}
    (h : es.Perm fs) (hcomp : ∀ t : Key, t.length = labels.length →
      Comparable size (es.filter (coversFrom position t))) :
    expand position labels es = expand position labels fs := by
  induction labels generalizing position es fs with
  | nil =>
    have hall : es.filter (coversFrom position []) = es := List.filter_eq_self.2 fun _ _ => rfl
    have hcomp := hcomp [] rfl
    rw [hall] at hcomp
    rw [expand, expand, winner?_eq_of_perm h hcomp]
  | cons ls rest ih =>
    rw [expand, expand]
    refine congrArg Node.mapping (List.filterMap_congr fun label _ => ?_)
    have hcovering := h.filter fun e => e.covers position label
    dsimp only
    rw [← hcovering.isEmpty_eq]
    split
    · rfl
    · refine congrArg (fun node => some (label, node)) (ih hcovering fun t ht => ?_)
      rw [← filter_coversFrom_cons]
      exact hcomp (label :: t) (congrArg Nat.succ ht)

theorem forall₂_mem_congr {labels labels' : List (List String)} {t : Key}
    (h : List.Forall₂ (fun ls ls' => ∀ label, label ∈ ls ↔ label ∈ ls') labels labels') :
    List.Forall₂ (· ∈ ·) t labels ↔ List.Forall₂ (· ∈ ·) t labels' := by
  induction h generalizing t with
  | nil => exact Iff.rfl
  | cons hlabel _ ih =>
    cases t with
    | nil => exact ⟨nofun, nofun⟩
    | cons label t => rw [List.forall₂_cons, List.forall₂_cons, hlabel label, ih]

/-- Entries in another order are expanded to the same scalars. -/
theorem mem_leaves_expand_of_perm {size : Nat} {labels labels' : List (List String)}
    {es fs : List Entry} (h : es.Perm fs) (hne : es ≠ [])
    (hlabels : List.Forall₂ (fun ls ls' => ∀ label, label ∈ ls ↔ label ∈ ls') labels labels')
    (hcomp : ∀ t : Key, t.length = labels.length → Comparable size (covering es t)) (t : Key)
    (leaf : Node) :
    (t, leaf) ∈ (expand 0 labels es).leaves labels.length ↔
      (t, leaf) ∈ (expand 0 labels' fs).leaves labels.length := by
  have hne' : fs ≠ [] := fun hnil => hne (List.perm_nil.1 (hnil ▸ h))
  have hlength : labels'.length = labels.length := hlabels.length_eq.symm
  have hleaf' : (t, leaf) ∈ (expand 0 labels' fs).leaves labels'.length ↔ _ :=
    mem_leaves_expand hne'
  rw [hlength, filter_coversFrom] at hleaf'
  rw [mem_leaves_expand hne, filter_coversFrom, hleaf', forall₂_mem_congr hlabels]
  refine and_congr_right fun ht => ?_
  have hwinner : winner? (covering es t) = winner? (covering fs t) :=
    winner?_eq_of_perm (h.filter _) (hcomp t (ht.length_eq.trans hlength))
  rw [hwinner]

/-! ### The whole value -/

/-- Two expansions have the same scalars at the same keys, and are equal if `listed` holds. -/
structure SameLeaves (size : Nat) (listed : Prop) (a b : Node) : Prop where
  leaves : ∀ t leaf, (t, leaf) ∈ a.leaves size ↔ (t, leaf) ∈ b.leaves size
  eq : listed → a = b

theorem SameLeaves.refl (size : Nat) (listed : Prop) (a : Node) : SameLeaves size listed a a :=
  ⟨fun _ _ => Iff.rfl, fun _ => rfl⟩

theorem forall_keyAt_mem {value : Node} {positions : List Nat}
    (ha : alignLevels sets dimensions path value = .ok positions)
    (hkeys : KeysIn sets.members sets dimensions value) {d : Dimension} {p : Nat}
    (hd : dimensions[p]? = some d) :
    ∀ e ∈ entriesAt dimensions.length positions value, ∀ key, e.keyAt p = some key →
      key ∈ sets.members d := by
  intro e he key hkey
  obtain ⟨level, keys, hpos, hlevel, hin⟩ := exists_level_of_keyAt he hkey
  exact hkeys path positions ha level p keys d hpos hlevel hd key hin

/-- No two entries that cover a key of full length give keys at the same positions. -/
theorem comparable_entriesAt {value : Node} (hv : value.Distinct) {positions : List Nat}
    (ha : alignLevels sets dimensions path value = .ok positions) {t : Key}
    (ht : t.length = dimensions.length) :
    Comparable dimensions.length (covering (entriesAt dimensions.length positions value) t) := by
  rw [← ht]
  refine comparable_covering (fun e he => ?_) ?_
  · rw [length_of_mem_entriesAt he]
  · rw [ht]
    exact pairwise_apart ha hv

/-- The stages behind the entries: entries in another order are expanded to the same scalars. -/
theorem expansion_corresponds {es fs : List Entry} (h : es.Perm fs) {listed : Prop}
    (hlisted : listed → ∀ (p : Nat) (d : Dimension), dimensions[p]? = some d →
      ∀ e ∈ es, ∀ key, e.keyAt p = some key → key ∈ sets.members d)
    (hcomp : ∀ t : Key, t.length = dimensions.length →
      Comparable dimensions.length (covering es t)) :
    Corresponds (SameLeaves dimensions.length listed)
      (if es.isEmpty then .ok (.mapping []) else
        (dimensions.zipIdx.mapM fun (d, p) => candidates sets path es p d) >>= fun labels =>
          .ok (expand 0 labels es))
      (if fs.isEmpty then .ok (.mapping []) else
        (dimensions.zipIdx.mapM fun (d, p) => candidates sets path fs p d) >>= fun labels =>
          .ok (expand 0 labels fs)) := by
  rw [← h.isEmpty_eq]
  split
  · exact .ok (.refl _ _ _)
  · next hempty =>
    have hne : es ≠ [] := fun hnil => hempty (List.isEmpty_iff.2 hnil)
    have hlabels : Corresponds
        (List.Forall₂ fun ls ls' => (∀ label, label ∈ ls ↔ label ∈ ls') ∧ (listed → ls = ls'))
        (dimensions.zipIdx.mapM fun (d, p) => candidates sets path es p d)
        (dimensions.zipIdx.mapM fun (d, p) => candidates sets path fs p d) := by
      refine .mapM fun (d, p) hmem => ?_
      have hd := List.mem_zipIdx_iff_getElem?.1 hmem
      exact (candidates_perm h p d).imp fun ls ls' hls =>
        ⟨hls.1, fun hl => hls.2 (hlisted hl p d hd)⟩
    generalize hes : (dimensions.zipIdx.mapM fun (d, p) => candidates sets path es p d) = x at *
    generalize (dimensions.zipIdx.mapM fun (d, p) => candidates sets path fs p d) = y at *
    cases hlabels with
    | error e => exact .error e
    | @ok labels labels' hlabels =>
      have hlength : labels.length = dimensions.length := (mapM_candidates hes).1
      refine .ok ⟨fun t leaf => ?_, fun hl => ?_⟩
      · rw [← hlength]
        exact mem_leaves_expand_of_perm h hne (hlabels.imp fun _ _ hls => hls.1)
          (fun t ht => hcomp t (ht.trans hlength)) t leaf
      · have hsame : labels = labels' := by
          rw [← List.forall₂_eq_eq_eq]
          exact hlabels.imp fun _ _ hls => hls.2 hl
        rw [← hsame]
        have hfull (t : Key) (ht : t.length = labels.length) :
            Comparable dimensions.length (es.filter (coversFrom 0 t)) := by
          rw [filter_coversFrom]
          exact hcomp t (ht.trans hlength)
        exact expand_eq_of_perm h hfull

theorem broadcast_corresponds (hd : dimensions ≠ []) {value other : Node} (hv : value.Distinct)
    (h : value.Rearranged other) (path : String) :
    Corresponds (SameLeaves dimensions.length (KeysIn sets.members sets dimensions value))
      (broadcast sets dimensions path value) (broadcast sets dimensions path other) := by
  unfold broadcast
  rw [← h.isNull_eq, ← alignLevels_eq_of_rearranged h]
  by_cases hnull : value.isNull = true
  · have hother := h.isNull_eq.symm.trans hnull
    cases value with
    | null =>
      cases other with
      | null => exact .ok (.refl _ _ _)
      | _ => cases hother
    | _ => cases hnull
  · have hcond : ¬ (value.isNull || dimensions.isEmpty) = true := by simp [hnull, hd]
    rw [if_neg hcond, if_neg hcond]
    cases ha : alignLevels sets dimensions path value with
    | error e => exact .error e
    | ok positions =>
      have hentries := entriesOf_rearranged h path positions (dimensions.map fun _ => none)
      rw [ok_bind, ok_bind]
      generalize hes : entriesOf path value positions (dimensions.map fun _ => none) = x at *
      generalize entriesOf path other positions (dimensions.map fun _ => none) = y at *
      cases hentries with
      | error e => exact .error e
      | ok hperm =>
        have hvalue := entriesOf_blank ha hes
        subst hvalue
        exact expansion_corresponds hperm (fun hkeys p d => forall_keyAt_mem ha hkeys)
          (fun t => comparable_entriesAt hv ha)

/-- **The order of the entries of a field does not matter.** A value with distinct keys and a
rearranged one fail with the same error or are both expanded, to the same scalars at the same keys;
if every key given is a member of the dimension that its level indexes, the expansions are equal. Of
the entries that cover a key of full length no two give keys at the same positions, so the last
resort, the later entry, never decides. -/
theorem broadcast_rearranged (hd : dimensions ≠ []) {value other : Node} (hv : value.Distinct)
    (h : value.Rearranged other) (path : String) :
    (∀ error, broadcast sets dimensions path value = .error error ↔
        broadcast sets dimensions path other = .error error) ∧
      (∀ result result', broadcast sets dimensions path value = .ok result →
        broadcast sets dimensions path other = .ok result' →
          (∀ t leaf, (t, leaf) ∈ result.leaves dimensions.length ↔
            (t, leaf) ∈ result'.leaves dimensions.length) ∧
          (KeysIn sets.members sets dimensions value → result = result')) ∧
      ∀ positions, alignLevels sets dimensions path value = .ok positions → ∀ t : Key,
        t.length = dimensions.length →
          (covering (entriesAt dimensions.length positions value) t).Pairwise fun e f =>
            ∃ p, ¬ (e.Gives p ↔ f.Gives p) := by
  have hboth : Corresponds _ (broadcast sets dimensions path value) _ :=
    broadcast_corresponds hd hv h path
  refine ⟨hboth.error_iff, fun result result' hr hr' => ?_, fun positions ha t ht => ?_⟩
  · rw [hr, hr'] at hboth
    cases hboth with
    | ok hsame => exact ⟨hsame.leaves, hsame.eq⟩
  · exact (comparable_entriesAt hv ha ht).2

/-- The sample field with its entries in the other order. -/
def turnedField : Node :=
  .mapping [("R2", .mapping [("2021", .plain "9")]), ("*", .mapping [("*", .plain "1")])]

/-- The concrete entry of the sample field decides at its key also where it comes first. -/
theorem broadcast_rearranged_sample :
    sampleField.Rearranged turnedField ∧
      ∃ result, broadcast sampleSets [.region, .year] "field" sampleField = .ok result ∧
        broadcast sampleSets [.region, .year] "field" turnedField = .ok result := by
  have hturned : sampleField.Rearranged turnedField := .entries (.swap _ _ _)
  have hkeys : KeysIn sampleSets.members sampleSets [.region, .year] sampleField := by
    decide +kernel
  have hok : (broadcast sampleSets [.region, .year] "field" sampleField).isOk = true := by
    decide +kernel
  have hd : [Dimension.region, .year] ≠ [] := by decide
  obtain ⟨herror, hresult, -⟩ :
      (∀ error, broadcast sampleSets [.region, .year] "field" sampleField = .error error ↔ _) ∧ _ :=
    broadcast_rearranged hd sampleField_distinct hturned "field"
  refine ⟨hturned, ?_⟩
  cases hr : broadcast sampleSets [.region, .year] "field" sampleField with
  | error e =>
    rw [hr] at hok
    cases hok
  | ok result =>
    cases hr' : broadcast sampleSets [.region, .year] "field" turnedField with
    | error e =>
      rw [(herror e).2 hr'] at hr
      cases hr
    | ok result' => exact ⟨result, rfl, by rw [(hresult result result' hr hr').2 hkeys]⟩

end EnergyPlan.Fields
