/-
# The calls of an expansion

The expansion of some entries over the labels at a position calls itself for each label with
the entries that cover it. A call is ready if an entry is left and each entry covers a label
at every position to come. The first call is ready once there are candidates, and a ready call
makes only ready calls; so an entry is left to choose from at every end, and every mapping has
a key.

Key definitions: `Ready`.
Key theorems: `exists_candidate`, `ready_of_candidates`, `Ready.covering`, `Ready.levelled`,
`Ready.full`.
-/
import EnergyPlan.Proofs.Expanded

namespace EnergyPlan.Fields

open Config Text

variable {sets : MemberSets} {dimensions : List Dimension} {path : String} {value : Node}
  {es : List Entry} {position : Nat} {ls : List String} {labels : List (List String)}

/-- Each entry stands for some of the labels in reach. -/
theorem exists_candidate {e : Entry} {d : Dimension}
    (h : candidates sets path es position d = .ok ls) (he : e ∈ es) :
    ∃ l ∈ ls, e.covers position l = true := by
  cases hk : e.keyAt position with
  | some key =>
    refine ⟨key, (mem_candidates h key).2 (Or.inl ⟨e, he, hk⟩), ?_⟩
    exact (Entry.covers_iff_of_keyAt hk).2 rfl
  | none =>
    have hopen : (es.any fun e => (e.keyAt position).isNone) = true :=
      List.any_eq_true.2 ⟨e, he, by rw [hk]; rfl⟩
    have hsome : sets.members d ≠ [] := by
      intro hnil
      rw [candidates, if_pos hopen, hnil] at h
      cases h
    obtain ⟨l, hl⟩ := List.exists_mem_of_ne_nil _ hsome
    refine ⟨l, (mem_candidates h l).2 (Or.inr ⟨⟨e, he, hk⟩, hl⟩), ?_⟩
    exact Entry.covers_of_keyAt_eq_none hk

/-- What a call of the expansion relies on. -/
structure Ready (position : Nat) (labels : List (List String)) (es : List Entry) : Prop where
  /-- An entry is left. -/
  some_entry : es ≠ []
  /-- The pattern of each entry has a slot for every position to come, and none after them. -/
  slots : ∀ e ∈ es, e.pattern.length = position + labels.length
  /-- The entries are scalars. -/
  scalars : ∀ e ∈ es, e.value.isScalar = true
  /-- Each entry stands for a label at every position to come. -/
  covered : ∀ (i : Nat) ls, labels[i]? = some ls → ∀ e ∈ es,
    ∃ l ∈ ls, e.covers (position + i) l = true

/-- The first call of the expansion is ready. -/
theorem ready_of_candidates {positions : List Nat}
    (hne : entriesAt dimensions.length positions value ≠ [])
    (hlen : labels.length = dimensions.length)
    (hc : ∀ p d ls, dimensions[p]? = some d → labels[p]? = some ls →
      candidates sets path (entriesAt dimensions.length positions value) p d = .ok ls) :
    Ready 0 labels (entriesAt dimensions.length positions value) where
  some_entry := hne
  slots e he := by
    rw [hlen, Nat.zero_add]
    exact length_of_mem_entriesAt he
  scalars e he := isScalar_of_mem_entriesAt he
  covered i ls hls e he := by
    have hi : i < dimensions.length := by
      rw [← hlen]
      exact (List.getElem?_eq_some_iff.1 hls).1
    rw [Nat.zero_add]
    exact exists_candidate (hc i _ ls (List.getElem?_eq_getElem hi) hls) he

namespace Ready

/-- **A call hands on what it relies on**: the entries that cover a listed label are ready for the
next position. -/
theorem covering (h : Ready position (ls :: labels) es) {label : String}
    (hl : label ∈ ls.filter fun l => !(es.filter fun e => e.covers position l).isEmpty) :
    Ready (position + 1) labels (es.filter fun e => e.covers position label) where
  some_entry := by
    have hcov := (List.mem_filter.1 hl).2
    rwa [Bool.not_eq_true', List.isEmpty_eq_false_iff] at hcov
  slots e he := by
    have hlen := h.slots e (List.mem_of_mem_filter he)
    rw [List.length_cons] at hlen
    omega
  scalars e he := h.scalars e (List.mem_of_mem_filter he)
  covered i ls' hls' e he := by
    obtain ⟨l, hl, hcov⟩ := h.covered (i + 1) ls' hls' e (List.mem_of_mem_filter he)
    refine ⟨l, hl, ?_⟩
    rwa [Nat.add_assoc, Nat.add_comm 1]

/-- Some label is listed. -/
theorem listed_ne_nil (h : Ready position (ls :: labels) es) :
    (ls.filter fun l => !(es.filter fun e => e.covers position l).isEmpty) ≠ [] := by
  obtain ⟨e, he⟩ := List.exists_mem_of_ne_nil _ h.some_entry
  obtain ⟨l, hl, hcov⟩ := h.covered 0 ls rfl e he
  have hlisted : (!(es.filter fun e => e.covers position l).isEmpty) = true := by
    rw [Bool.not_eq_true', List.isEmpty_eq_false_iff]
    exact List.ne_nil_of_mem (List.mem_filter.2 ⟨he, hcov⟩)
  exact List.ne_nil_of_mem (List.mem_filter.2 ⟨hl, hlisted⟩)

/-- At an end stands a scalar. -/
theorem exists_scalar (h : Ready position [] es) :
    ∃ tag text, expand position [] es = .scalar tag text := by
  obtain ⟨w, hw⟩ := exists_winner h.some_entry
  have hscalar := h.scalars w (winner?_mem hw)
  rw [expand, hw, Option.map_some, Option.getD_some]
  cases hv : w.value with
  | scalar tag text => exact ⟨tag, text, rfl⟩
  | _ =>
    rw [hv] at hscalar
    cases hscalar

/-- **Every mapping that a ready call builds has a key**, down to a scalar at every end. -/
theorem levelled (h : Ready position labels es) :
    Levelled labels.length (expand position labels es) := by
  induction labels generalizing position es with
  | nil =>
    obtain ⟨tag, text, hscalar⟩ := h.exists_scalar
    rw [hscalar]
    exact .leaf tag text
  | cons ls rest ih =>
    rw [expand_cons]
    refine .level (by simpa using h.listed_ne_nil) fun e he => ?_
    obtain ⟨l, hl, rfl⟩ := List.mem_map.1 he
    exact ih (h.covering hl)

/-- If all labels are members, a ready call builds a scalar for each of some tuples of them. -/
theorem full {ds : List Dimension} (h : Ready position labels es)
    (hlen : labels.length = ds.length)
    (hlisted : ∀ (i : Nat) d ls, ds[i]? = some d → labels[i]? = some ls →
      ∃ listed : String → Bool, ls = (sets.members d).filter listed) :
    Full sets ds (expand position labels es) := by
  induction ds generalizing position es labels with
  | nil =>
    rw [List.length_nil, List.length_eq_zero_iff] at hlen
    subst hlen
    obtain ⟨tag, text, hscalar⟩ := h.exists_scalar
    rw [hscalar]
    exact .leaf tag text
  | cons d ds ih =>
    cases labels with
    | nil => cases hlen
    | cons ls others =>
      obtain ⟨listed, rfl⟩ := hlisted 0 d ls rfl rfl
      rw [expand_cons, List.filter_filter]
      refine .level _ _ ?_ fun l hm hc => ?_
      · obtain ⟨l, hl⟩ := List.exists_mem_of_ne_nil _ h.listed_ne_nil
        rw [List.filter_filter] at hl
        exact ⟨l, List.mem_filter.1 hl⟩
      · have hl : l ∈ (sets.members d).filter fun l =>
            !(es.filter fun e => e.covers position l).isEmpty && listed l :=
          List.mem_filter.2 ⟨hm, hc⟩
        rw [← List.filter_filter] at hl
        exact ih (h.covering hl) (by simpa using hlen) fun i => hlisted (i + 1)

end Ready

end EnergyPlan.Fields
