/-
# What a field's value expands to

An expanded value has one scalar for each key over the candidate labels that some entry
covers, and it is the value of the entry that decides there. The candidates are every
label that an entry gives, and the members of a dimension that some entry leaves open.

Key definitions: `Reaches`.
Key theorems: `mem_leaves_expand`, `mem_candidates`, `broadcast_eq_ok`, `broadcast_decides`.
-/
import EnergyPlan.Proofs.Precedence

namespace EnergyPlan.Fields

open Config Text

/-! ### The expanded mapping -/

/-- Whether an entry stands for the labels of a key from a position on. -/
def coversFrom : Nat → Key → Entry → Bool
  | _, [], _ => true
  | position, label :: t, e => e.covers position label && coversFrom (position + 1) t e

theorem coversFrom_iff {position : Nat} {t : Key} {e : Entry} :
    coversFrom position t e = true ↔
      ∀ p label, t[p]? = some label → e.covers (position + p) label = true := by
  induction t generalizing position with
  | nil => simp [coversFrom]
  | cons label t ih =>
    rw [coversFrom, Bool.and_eq_true, ih]
    constructor
    · rintro ⟨hl, ht⟩ p l hp
      cases p with
      | zero =>
        rw [List.getElem?_cons_zero, Option.some.injEq] at hp
        rw [← hp]
        exact hl
      | succ p =>
        rw [List.getElem?_cons_succ] at hp
        have h := ht p l hp
        rwa [Nat.add_assoc, Nat.add_comm 1] at h
    · intro h
      refine ⟨h 0 label rfl, fun p l hp => ?_⟩
      rw [Nat.add_assoc, Nat.add_comm 1]
      exact h (p + 1) l hp

theorem filter_coversFrom (es : List Entry) (t : Key) :
    es.filter (coversFrom 0 t) = covering es t := by
  rw [covering]
  apply List.filter_congr
  intro e _
  rw [Bool.eq_iff_iff, coversFrom_iff, decide_eq_true_eq]
  simp only [Nat.zero_add]
  exact Iff.rfl

theorem filter_coversFrom_cons (position : Nat) (label : String) (t : Key) (es : List Entry) :
    es.filter (coversFrom position (label :: t)) =
      (es.filter fun e => e.covers position label).filter (coversFrom (position + 1) t) := by
  rw [List.filter_filter]
  apply List.filter_congr
  intro e _
  exact Bool.and_comm _ _

/-- The scalars of an expanded value are at the keys over the labels that an entry covers. -/
theorem mem_leaves_expand {labels : List (List String)} {position : Nat} {es : List Entry}
    (hne : es ≠ []) {t : Key} {leaf : Node} :
    (t, leaf) ∈ (expand position labels es).leaves labels.length ↔
      List.Forall₂ (· ∈ ·) t labels ∧
        ∃ w, winner? (es.filter (coversFrom position t)) = some w ∧ leaf = w.value := by
  induction labels generalizing position es t with
  | nil =>
    obtain ⟨w, hw⟩ := exists_winner hne
    rw [expand, hw, List.length_nil, Node.leaves_zero, List.mem_singleton, Prod.mk.injEq,
      List.forall₂_nil_right_iff]
    refine and_congr_right fun ht => ?_
    subst ht
    have hall : es.filter (coversFrom position []) = es := List.filter_eq_self.2 fun _ _ => rfl
    rw [hall, hw]
    constructor
    · intro h
      exact ⟨w, rfl, h⟩
    · rintro ⟨_, h, rfl⟩
      cases h
      rfl
  | cons ls rest ih =>
    rw [expand_cons, List.length_cons, Node.mem_leaves_mapping]
    simp only [List.mem_map, List.mem_filter, Bool.not_eq_true', List.isEmpty_eq_false_iff]
    constructor
    · rintro ⟨label, value, below, ⟨l, ⟨hl, hcne⟩, heq⟩, rfl, hbelow⟩
      cases heq
      obtain ⟨hall, w, hw, rfl⟩ := (ih hcne).1 hbelow
      refine ⟨List.Forall₂.cons hl hall, w, ?_, rfl⟩
      rw [filter_coversFrom_cons]
      exact hw
    · rintro ⟨hall, w, hw, rfl⟩
      cases hall with
      | @cons label _ t _ hlabel hall =>
        rw [filter_coversFrom_cons] at hw
        have hcne : es.filter (fun e => e.covers position label) ≠ [] := by
          intro h
          rw [h] at hw
          cases hw
        exact ⟨label, _, t, ⟨label, ⟨hlabel, hcne⟩, rfl⟩, rfl, (ih hcne).2 ⟨hall, w, hw, rfl⟩⟩

/-! ### The candidates -/

/-- The candidates at a position are the labels that an entry gives there, and the members if an
entry leaves the position open. -/
theorem mem_candidates {sets : MemberSets} {path : String} {es : List Entry} {position : Nat}
    {dimension : Dimension} {labels : List String}
    (h : candidates sets path es position dimension = .ok labels) (label : String) :
    label ∈ labels ↔ (∃ e ∈ es, e.keyAt position = some label) ∨
      (∃ e ∈ es, e.keyAt position = none) ∧ label ∈ sets.members dimension := by
  have hgiven : label ∈ es.filterMap (Entry.keyAt · position) ↔
      ∃ e ∈ es, e.keyAt position = some label := List.mem_filterMap
  have hopen : (es.any fun e => (e.keyAt position).isNone) = true ↔
      ∃ e ∈ es, e.keyAt position = none := by
    simp only [List.any_eq_true, Option.isNone_iff_eq_none]
  simp only [candidates] at h
  by_cases ho : (es.any fun e => (e.keyAt position).isNone) = true
  · rw [if_pos ho] at h
    split at h
    · cases h
    · cases h
      rw [mem_foldl_appendNew, hgiven, and_iff_right (hopen.1 ho)]
  · rw [if_neg ho] at h
    cases h
    rw [mem_foldl_appendNew, List.mem_filter, List.contains_iff_mem, hgiven]
    constructor
    · rintro (hg | ⟨_, hg⟩)
      · exact Or.inl hg
      · exact Or.inl hg
    · rintro (hg | ⟨hn, _⟩)
      · exact Or.inl hg
      · exact absurd (hopen.2 hn) ho

/-- The candidates at the positions of several dimensions, counted from one. -/
theorem mapM_candidates {sets : MemberSets} {path : String} {es : List Entry}
    {dimensions : List Dimension} {start : Nat} {labels : List (List String)}
    (h : ((dimensions.zipIdx start).mapM fun (d, p) => candidates sets path es p d) = .ok labels) :
    labels.length = dimensions.length ∧ ∀ p d ls, dimensions[p]? = some d → labels[p]? = some ls →
      candidates sets path es (start + p) d = .ok ls := by
  induction dimensions generalizing start labels with
  | nil =>
    rw [List.zipIdx_nil, List.mapM_nil] at h
    cases h
    exact ⟨rfl, fun p d ls hd => nomatch hd⟩
  | cons d rest ih =>
    rw [List.zipIdx_cons, List.mapM_cons] at h
    dsimp only at h
    cases hc : candidates sets path es start d with
    | error e =>
      rw [hc] at h
      cases h
    | ok first =>
      cases hm : (rest.zipIdx (start + 1)).mapM fun (d, p) => candidates sets path es p d with
      | error e =>
        rw [hc, hm] at h
        cases h
      | ok others =>
        rw [hc, hm] at h
        cases h
        obtain ⟨hlen, hall⟩ := ih hm
        refine ⟨by rw [List.length_cons, List.length_cons, hlen], fun p d' ls hd hls => ?_⟩
        cases p with
        | zero =>
          rw [List.getElem?_cons_zero, Option.some.injEq] at hd hls
          rw [← hd, ← hls]
          exact hc
        | succ p =>
          rw [List.getElem?_cons_succ] at hd hls
          have hp := hall p d' ls hd hls
          rwa [Nat.add_assoc, Nat.add_comm 1] at hp

/-! ### The whole value -/

theorem length_of_mem_entriesAt {size : Nat} {positions : List Nat} {value : Node} {e : Entry}
    (h : e ∈ entriesAt size positions value) : e.pattern.length = size := by
  obtain ⟨⟨keys, leaf⟩, _, rfl⟩ := List.mem_map.1 h
  show (patternOf size positions keys).length = size
  rw [patternOf, List.length_map, List.length_range]

theorem isScalar_of_mem_entriesAt {size : Nat} {positions : List Nat} {value : Node} {e : Entry}
    (h : e ∈ entriesAt size positions value) : e.value.isScalar = true := by
  obtain ⟨leaf, hleaf, rfl⟩ := List.mem_map.1 h
  exact Node.isScalar_of_mem_scalars value leaf hleaf

variable {sets : MemberSets} {dimensions : List Dimension} {path : String} {value result : Node}

/-- A value with a scalar is expanded over the candidates at every position. -/
theorem broadcast_eq_ok (hd : dimensions ≠ []) (hs : value.scalars ≠ [])
    (h : broadcast sets dimensions path value = .ok result) :
    ∃ positions labels, alignLevels sets dimensions path value = .ok positions ∧
      labels.length = dimensions.length ∧
      (∀ p d ls, dimensions[p]? = some d → labels[p]? = some ls →
        candidates sets path (entriesAt dimensions.length positions value) p d = .ok ls) ∧
      result = expand 0 labels (entriesAt dimensions.length positions value) := by
  have hnull : ¬ (value.isNull || dimensions.isEmpty) = true := by
    rw [Bool.or_eq_true, List.isEmpty_iff]
    rintro (hn | he)
    · cases value with
      | null => exact hs rfl
      | _ => cases hn
    · exact hd he
  unfold broadcast at h
  rw [if_neg hnull] at h
  cases ha : alignLevels sets dimensions path value with
  | error e =>
    rw [ha] at h
    cases h
  | ok positions =>
    rw [ha] at h
    cases he : entriesOf path value positions (dimensions.map fun _ => none) with
    | error e =>
      simp only [he, bind, Except.bind] at h
      cases h
    | ok es =>
      have hes := entriesOf_blank ha he
      have hne : ¬ es.isEmpty = true := by
        rw [List.isEmpty_iff, hes, entriesAt, List.map_eq_nil_iff]
        exact hs
      simp only [he, bind, Except.bind, if_neg hne] at h
      cases hm : dimensions.zipIdx.mapM fun (d, p) => candidates sets path es p d with
      | error e =>
        rw [hm] at h
        cases h
      | ok labels =>
        rw [hm] at h
        cases h
        obtain ⟨hlen, hall⟩ := mapM_candidates hm
        refine ⟨positions, labels, rfl, hlen, fun p d ls hp hls => ?_, by rw [hes]⟩
        have hc := hall p d ls hp hls
        rwa [Nat.zero_add, hes] at hc

/-- Every label of a key is a member of its dimension or a key that some entry gives there. -/
def Reaches (sets : MemberSets) (dimensions : List Dimension) (es : List Entry) (t : Key) : Prop :=
  t.length = dimensions.length ∧ ∀ p d label, dimensions[p]? = some d → t[p]? = some label →
    label ∈ sets.members d ∨ ∃ e ∈ es, e.keyAt p = some label

section

variable {es : List Entry} {labels : List (List String)} {t : Key}

theorem reaches_of_candidates (hlen : labels.length = dimensions.length)
    (hc : ∀ p d ls, dimensions[p]? = some d → labels[p]? = some ls →
      candidates sets path es p d = .ok ls)
    (h : List.Forall₂ (· ∈ ·) t labels) : Reaches sets dimensions es t := by
  obtain ⟨ht, hall⟩ := List.forall₂_iff_get.1 h
  refine ⟨ht.trans hlen, fun p d label hd hl => ?_⟩
  obtain ⟨hp, rfl⟩ := List.getElem?_eq_some_iff.1 hl
  have hpl : p < labels.length := ht ▸ hp
  have hmem := hall p hp hpl
  rcases (mem_candidates (hc p d _ hd (List.getElem?_eq_getElem hpl)) _).1 hmem with hg | ⟨_, hm⟩
  · exact Or.inr hg
  · exact Or.inl hm

/-- An entry that covers a key makes all its labels candidates. -/
theorem candidates_of_reaches (hlen : labels.length = dimensions.length)
    (hc : ∀ p d ls, dimensions[p]? = some d → labels[p]? = some ls →
      candidates sets path es p d = .ok ls)
    (hr : Reaches sets dimensions es t) {e : Entry} (he : e ∈ es) (hm : e.Matches t) :
    List.Forall₂ (· ∈ ·) t labels := by
  rw [List.forall₂_iff_get]
  refine ⟨hr.1.trans hlen.symm, fun p hp hpl => ?_⟩
  have hpd : p < dimensions.length := hlen ▸ hpl
  have hd := List.getElem?_eq_getElem hpd
  have ht := List.getElem?_eq_getElem hp
  refine (mem_candidates (hc p _ _ hd (List.getElem?_eq_getElem hpl)) _).2 ?_
  cases hk : e.keyAt p with
  | none =>
    rcases hr.2 p _ _ hd ht with hmem | hgiven
    · exact Or.inr ⟨⟨e, he, hk⟩, hmem⟩
    · exact Or.inl hgiven
  | some key =>
    have hcov := hm p _ ht
    rw [Entry.covers, hk, Option.all_some, beq_iff_eq] at hcov
    exact Or.inl ⟨e, he, by rw [hk, hcov]; rfl⟩

end

/-- **The most concrete entry decides.** A value with distinct keys and a scalar expands to one
scalar for each key over the labels in reach that some entry covers, that of the entry which gives
the most keys, and of those the innermost one; exactly one entry is best in this sense. No other
key has a leaf. -/
theorem broadcast_decides (hd : dimensions ≠ []) (hv : value.Distinct) (hs : value.scalars ≠ [])
    (h : broadcast sets dimensions path value = .ok result) :
    ∃ positions, alignLevels sets dimensions path value = .ok positions ∧
      let es := entriesAt dimensions.length positions value
      (∀ t, Reaches sets dimensions es t →
        ((∃ leaf, (t, leaf) ∈ result.leaves dimensions.length) ↔ ∃ e ∈ es, e.Matches t) ∧
        ((∃ e ∈ es, e.Matches t) → ∃ i, (∀ j, Best es t j ↔ j = i) ∧
          ∀ leaf, (t, leaf) ∈ result.leaves dimensions.length ↔ leaf = es[i].value)) ∧
      ∀ t leaf, (t, leaf) ∈ result.leaves dimensions.length →
        Reaches sets dimensions es t ∧ leaf.isScalar = true := by
  obtain ⟨positions, labels, ha, hlen, hc, rfl⟩ := broadcast_eq_ok hd hs h
  refine ⟨positions, ha, ?_⟩
  intro es
  have hne : es ≠ [] := by
    intro hnil
    exact hs (List.map_eq_nil_iff.1 hnil)
  have hleaf : ∀ t leaf, (t, leaf) ∈ (expand 0 labels es).leaves dimensions.length ↔
      List.Forall₂ (· ∈ ·) t labels ∧ ∃ w, winner? (covering es t) = some w ∧ leaf = w.value := by
    intro t leaf
    rw [← hlen, mem_leaves_expand hne, filter_coversFrom]
  have hcov : ∀ t, covering es t ≠ [] ↔ ∃ e ∈ es, e.Matches t := by
    intro t
    constructor
    · intro hne
      obtain ⟨e, he⟩ := List.exists_mem_of_ne_nil _ hne
      exact ⟨e, mem_covering.1 he⟩
    · rintro ⟨e, he⟩
      exact List.ne_nil_of_mem (mem_covering.2 he)
  have hcomp : ∀ t, Reaches sets dimensions es t → Comparable t.length (covering es t) :=
    fun t hr => comparable_covering
      (fun e he => (length_of_mem_entriesAt he).trans hr.1.symm) (pairwise_apart ha hv)
  constructor
  · intro t hr
    have hbest : (∃ e ∈ es, e.Matches t) → ∃ i, (∀ j, Best es t j ↔ j = i) ∧
        ∀ leaf, (t, leaf) ∈ (expand 0 labels es).leaves dimensions.length ↔
          leaf = es[i].value := by
      rintro ⟨e, he, hm⟩
      have hel : ∀ e ∈ es, e.pattern.length = t.length :=
        fun e he => (length_of_mem_entriesAt he).trans hr.1.symm
      obtain ⟨i, hw, hi⟩ := exists_best hel (pairwise_apart ha hv) ((hcov t).2 ⟨e, he, hm⟩)
      refine ⟨i, hi, fun leaf => ?_⟩
      rw [hleaf, hw, and_iff_right (candidates_of_reaches hlen hc hr he hm)]
      constructor
      · rintro ⟨w, hw, rfl⟩
        cases hw
        rfl
      · intro hl
        exact ⟨es[i], rfl, hl⟩
    refine ⟨⟨?_, ?_⟩, hbest⟩
    · rintro ⟨leaf, hmem⟩
      obtain ⟨_, w, hw, _⟩ := (hleaf t leaf).1 hmem
      rw [← hcov]
      intro hnil
      rw [hnil] at hw
      cases hw
    · intro he
      obtain ⟨i, _, hi⟩ := hbest he
      exact ⟨_, (hi _).2 rfl⟩
  · intro t leaf hmem
    obtain ⟨hall, w, hw, rfl⟩ := (hleaf t leaf).1 hmem
    have hr := reaches_of_candidates hlen hc hall
    have hmem := (winner?_eq_some (hcomp t hr) hw).1
    exact ⟨hr, isScalar_of_mem_entriesAt (mem_covering.1 hmem).1⟩

/-! ### A concrete key beside a wildcard -/

/-- Two regions and two years. -/
def sampleSets : MemberSets :=
  (MemberSets.empty.declareAll .region ["R1", "R2"]).declareAll .year ["2020", "2021"]

/-- One value for all keys, and another for one of them. -/
def sampleField : Node :=
  .mapping [("*", .mapping [("*", .plain "1")]), ("R2", .mapping [("2021", .plain "9")])]

theorem sampleField_distinct : sampleField.Distinct := by
  have leaf : ∀ key text, (Node.mapping [(key, .plain text)]).Distinct := fun key text =>
    .mapping (List.nodup_singleton key) (List.forall_mem_singleton.2 (.scalar _ _))
  refine .mapping (by decide) ?_
  exact List.forall_mem_cons.2 ⟨leaf _ _, List.forall_mem_singleton.2 (leaf _ _)⟩

/-- At the key of the concrete entry its value replaces that of the wildcards. -/
theorem broadcast_decides_sample :
    ∃ result, broadcast sampleSets [.region, .year] "field" sampleField = .ok result ∧
      ∀ leaf, (["R2", "2021"], leaf) ∈ result.leaves 2 ↔ leaf = .plain "9" := by
  have hok : (broadcast sampleSets [.region, .year] "field" sampleField).isOk = true := by
    decide +kernel
  cases hr : broadcast sampleSets [.region, .year] "field" sampleField with
  | error e =>
    rw [hr] at hok
    cases hok
  | ok result =>
    refine ⟨result, rfl, ?_⟩
    obtain ⟨positions, ha, hcov, -⟩ :=
      broadcast_decides (by decide) sampleField_distinct (by decide +kernel) hr
    have hp : alignLevels sampleSets [.region, .year] "field" sampleField = .ok [0, 1] := by
      decide +kernel
    rw [hp] at ha
    cases ha
    have hreach : Reaches sampleSets [.region, .year] (entriesAt 2 [0, 1] sampleField)
        ["R2", "2021"] := by
      refine ⟨rfl, fun p d label hd hl => Or.inr ⟨_, List.mem_cons_of_mem _ List.mem_cons_self, ?_⟩⟩
      match p with
      | 0 => exact hl
      | 1 => exact hl
    have hmatch : ((entriesAt 2 [0, 1] sampleField)[1]).Matches ["R2", "2021"] := by
      decide +kernel
    obtain ⟨i, hbest, hleaf⟩ := (hcov _ hreach).2 ⟨_, List.getElem_mem _, hmatch⟩
    match i, hbest, hleaf with
    | ⟨0, _⟩, hbest, _ =>
      have hprev := ((hbest _).2 rfl).2 ⟨1, by decide⟩
        (Fin.ne_of_val_ne Nat.one_ne_zero) hmatch
      rcases hprev with hlt | ⟨heq, _⟩
      · exact absurd (show 2 < 0 from hlt) (by decide)
      · exact absurd (show 2 = 0 from heq) (by decide)
    | ⟨1, _⟩, _, hleaf => exact hleaf

end EnergyPlan.Fields
