/-
# Which entry decides at a key

Several entries of a value may cover one key. The one that prevails gives more keys, or as
many and gives one at the innermost position where exactly one of the two does. Two
different entries that cover one key agree wherever both give a key, so at some position
exactly one of them does, and one of the two prevails: exactly one entry is the best.

Key definitions: `Entry.Matches`, `Entry.Gives`, `Entry.Prevails`, `Best`.
Key theorems: `Entry.Prevails.trans`, `Entry.yields_cases`, `winner?_eq_some`,
`exists_best`.
-/
import EnergyPlan.Proofs.Entries

namespace EnergyPlan.Fields

open Config Text

namespace Entry

variable {e f g : Entry}

/-- An entry stands for every label of a key. -/
def Matches (e : Entry) (t : Key) : Prop :=
  ∀ p label, t[p]? = some label → e.covers p label = true

/-- An entry gives a key at a position. -/
def Gives (e : Entry) (p : Nat) : Prop := (e.keyAt p).isSome = true

/-- At the innermost position where exactly one of two entries gives a key, it is the first. -/
def Inner (e f : Entry) : Prop :=
  ∃ p, e.Gives p ∧ ¬ f.Gives p ∧ ∀ q, p < q → (e.Gives q ↔ f.Gives q)

/-- An entry gives more keys than another, or as many and the innermost one. -/
def Prevails (e f : Entry) : Prop := f.given < e.given ∨ f.given = e.given ∧ e.Inner f

/-! ### Prevailing is an order -/

theorem Inner.trans (hef : e.Inner f) (hfg : f.Inner g) : e.Inner g := by
  obtain ⟨p, hep, hfp, habove⟩ := hef
  obtain ⟨q, hfq, hgq, hbeyond⟩ := hfg
  rcases Nat.lt_trichotomy p q with hlt | rfl | hlt
  · refine ⟨q, (habove q hlt).2 hfq, hgq, ?_⟩
    intro r hr
    exact (habove r (Nat.lt_trans hlt hr)).trans (hbeyond r hr)
  · exact absurd hfq hfp
  · refine ⟨p, hep, fun hgp => hfp ((hbeyond p hlt).2 hgp), ?_⟩
    intro r hr
    exact (habove r hr).trans (hbeyond r (Nat.lt_trans hlt hr))

theorem Prevails.trans (hef : e.Prevails f) (hfg : f.Prevails g) : e.Prevails g := by
  rcases hef with hlt | ⟨heq, hin⟩
  · rcases hfg with hlt' | ⟨heq', _⟩
    · exact Or.inl (Nat.lt_trans hlt' hlt)
    · exact Or.inl (by omega)
  · rcases hfg with hlt' | ⟨heq', hin'⟩
    · exact Or.inl (by omega)
    · exact Or.inr ⟨by omega, hin.trans hin'⟩

theorem Prevails.irrefl : ¬ e.Prevails e := by
  rintro (hlt | ⟨_, p, hp, hnp, _⟩)
  · exact Nat.lt_irrefl _ hlt
  · exact hnp hp

/-! ### Of two entries one prevails -/

theorem keyAt_lt {p : Nat} {key : String} (h : e.keyAt p = some key) : p < e.pattern.length := by
  rw [keyAt, Option.join_eq_some_iff] at h
  exact (List.getElem?_eq_some_iff.1 h).1

theorem getElem?_zip_pattern {p : Nat} {pair : Option String × Option String}
    (h : (e.pattern.zip f.pattern)[p]? = some pair) :
    (e.Gives p ↔ pair.1.isSome = true) ∧ (f.Gives p ↔ pair.2.isSome = true) := by
  obtain ⟨he, hf⟩ := List.getElem?_zip_eq_some.1 h
  rw [Gives, Gives, keyAt, keyAt, he, hf]
  exact ⟨Iff.rfl, Iff.rfl⟩

/-- Beyond both patterns no entry gives a key. -/
theorem gives_iff_of_zip_none (hlen : e.pattern.length = f.pattern.length) {p : Nat}
    (h : (e.pattern.zip f.pattern)[p]? = none) : e.Gives p ↔ f.Gives p := by
  have hp : e.pattern.length ≤ p := by
    have := List.getElem?_eq_none_iff.1 h
    rw [List.length_zip] at this
    omega
  rw [Gives, Gives, keyAt, keyAt, List.getElem?_eq_none hp, List.getElem?_eq_none (hlen ▸ hp)]

/-- What is found from the back of a list is the last element that fits. -/
theorem exists_of_find?_reverse {α : Type} {l : List α} {fits : α → Bool} {a : α}
    (h : l.reverse.find? fits = some a) :
    ∃ i : Nat, l[i]? = some a ∧ fits a = true ∧
      ∀ (j : Nat) (b : α), i < j → l[j]? = some b → ¬ fits b = true := by
  obtain ⟨ha, later, earlier, heq, hlater⟩ := List.find?_eq_some_iff_append.1 h
  have hl : l = earlier.reverse ++ a :: later.reverse := by
    rw [← List.reverse_reverse l, heq]
    simp
  refine ⟨earlier.length, ?_, ha, ?_⟩
  · rw [hl, List.getElem?_append_right (by simp)]
    simp
  · intro j b hj hb
    obtain ⟨k, rfl⟩ : ∃ k, j = earlier.length + (k + 1) := ⟨j - earlier.length - 1, by omega⟩
    rw [hl, List.getElem?_append_right (by simp), List.length_reverse, Nat.add_sub_cancel_left,
      List.getElem?_cons_succ] at hb
    have hmem : b ∈ later := List.mem_reverse.1 (List.mem_of_getElem? hb)
    simpa using hlater b hmem

/-- Entries that do not give keys at the same positions are told apart by the innermost. -/
theorem innermostFavours_cases (hlen : e.pattern.length = f.pattern.length)
    (hdiff : ∃ p, ¬ (e.Gives p ↔ f.Gives p)) :
    (innermostFavours e.pattern f.pattern = true ∧ f.Inner e) ∨
      (innermostFavours e.pattern f.pattern = false ∧ e.Inner f) := by
  have hout : ∀ q, (e.pattern.zip f.pattern)[q]? = none → (e.Gives q ↔ f.Gives q) :=
    fun q => gives_iff_of_zip_none hlen
  unfold innermostFavours
  generalize hfind : List.find? _ (e.pattern.zip f.pattern).reverse = found
  cases found with
  | none =>
    obtain ⟨p, hp⟩ := hdiff
    refine absurd ?_ hp
    cases hz : (e.pattern.zip f.pattern)[p]? with
    | none => exact hout p hz
    | some pair =>
      have hsame := List.find?_eq_none.1 hfind pair (List.mem_reverse.2 (List.mem_of_getElem? hz))
      obtain ⟨he, hf⟩ := getElem?_zip_pattern hz
      rw [he, hf]
      simpa using hsame
  | some pair =>
    obtain ⟨p, hat, hpair, hlater⟩ := exists_of_find?_reverse hfind
    have habove : ∀ q, p < q → (e.Gives q ↔ f.Gives q) := by
      intro q hq
      cases hz : (e.pattern.zip f.pattern)[q]? with
      | none => exact hout q hz
      | some other =>
        have hsame := hlater q other hq hz
        obtain ⟨he, hf⟩ := getElem?_zip_pattern hz
        rw [he, hf]
        simpa using hsame
    obtain ⟨he, hf⟩ := getElem?_zip_pattern hat
    obtain ⟨a, b⟩ := pair
    have hne : a.isSome ≠ b.isSome := bne_iff_ne.1 hpair
    cases hb : b.isSome with
    | true =>
      refine Or.inl ⟨hb, p, hf.2 hb, fun hg => hne ((he.1 hg).trans hb.symm), ?_⟩
      exact fun q hq => (habove q hq).symm
    | false =>
      rw [hb] at hne
      refine Or.inr ⟨hb, p, he.2 (eq_true_of_ne_false hne), ?_, habove⟩
      rw [hf]
      exact Bool.eq_false_iff.1 hb

/-- An entry yields to another exactly if the other prevails. -/
theorem yields_cases (hlen : e.pattern.length = f.pattern.length)
    (hdiff : ∃ p, ¬ (e.Gives p ↔ f.Gives p)) :
    (e.yields f = true ∧ f.Prevails e) ∨ (e.yields f = false ∧ e.Prevails f) := by
  unfold yields
  by_cases heq : e.given = f.given
  · rw [if_pos heq]
    rcases innermostFavours_cases hlen hdiff with ⟨hf, hin⟩ | ⟨hf, hin⟩
    · exact Or.inl ⟨hf, Or.inr ⟨heq, hin⟩⟩
    · exact Or.inr ⟨hf, Or.inr ⟨heq.symm, hin⟩⟩
  · rw [if_neg heq]
    by_cases hlt : e.given < f.given
    · exact Or.inl ⟨decide_eq_true hlt, Or.inl hlt⟩
    · exact Or.inr ⟨decide_eq_false hlt, Or.inl (by omega)⟩

/-- Entries with different patterns that cover one key do not give keys at the same positions:
where both give one it is the label of the key. -/
theorem Apart.exists_gives (h : e.Apart f) {t : Key} (he : e.Matches t) (hf : f.Matches t)
    (hle : e.pattern.length ≤ t.length) : ∃ p, ¬ (e.Gives p ↔ f.Gives p) := by
  obtain ⟨p, hp⟩ := h
  refine ⟨p, fun hiff => hp ?_⟩
  rw [Gives, Gives] at hiff
  cases hke : e.keyAt p with
  | none =>
    rw [hke] at hiff
    cases hkf : f.keyAt p with
    | none => rfl
    | some l =>
      rw [hkf] at hiff
      exact absurd (hiff.2 rfl) Bool.false_ne_true
  | some k =>
    rw [hke] at hiff
    obtain ⟨l, hkf⟩ := Option.isSome_iff_exists.1 (hiff.1 rfl)
    have hlt : p < t.length := Nat.lt_of_lt_of_le (keyAt_lt hke) hle
    have hce := he p _ (List.getElem?_eq_getElem hlt)
    have hcf := hf p _ (List.getElem?_eq_getElem hlt)
    rw [covers, hke, Option.all_some, beq_iff_eq] at hce
    rw [covers, hkf, Option.all_some, beq_iff_eq] at hcf
    rw [hkf, hce, hcf]

end Entry

/-! ### The entry that wins -/

/-- No two entries of a list give keys at the same positions, and all are over as many. -/
def Comparable (size : Nat) (es : List Entry) : Prop :=
  (∀ e ∈ es, e.pattern.length = size) ∧
    es.Pairwise fun e f => ∃ p, ¬ (e.Gives p ↔ f.Gives p)

theorem Comparable.sublist {size : Nat} {es fs : List Entry} (h : Comparable size es)
    (hs : List.Sublist fs es) : Comparable size fs :=
  ⟨fun e he => h.1 e (hs.subset he), h.2.sublist hs⟩

/-- The entry left in the end is one of those seen, and it prevails over the others. -/
theorem foldl_yields {size : Nat} {rest : List Entry} {e : Entry}
    (h : Comparable size (e :: rest)) :
    let w := rest.foldl (fun best f => if best.yields f then f else best) e
    w ∈ e :: rest ∧ ∀ f ∈ e :: rest, f ≠ w → w.Prevails f := by
  induction rest generalizing e with
  | nil =>
    refine ⟨List.mem_cons_self, fun f hf hne => ?_⟩
    exact absurd (List.mem_singleton.1 hf) hne
  | cons x rest ih =>
    have hpair := (List.pairwise_cons.1 h.2).1 x List.mem_cons_self
    have hlen : e.pattern.length = x.pattern.length := by
      rw [h.1 e List.mem_cons_self, h.1 x (List.mem_cons_of_mem _ List.mem_cons_self)]
    simp only [List.foldl_cons]
    rcases Entry.yields_cases hlen hpair with ⟨hy, hprev⟩ | ⟨hy, hprev⟩
    · rw [if_pos hy]
      obtain ⟨hmem, hbest⟩ := ih (h.sublist (List.sublist_cons_self e _))
      refine ⟨List.mem_cons_of_mem _ hmem, fun f hf hne => ?_⟩
      rcases List.mem_cons.1 hf with rfl | hf
      · by_cases hx : x = rest.foldl (fun best f => if best.yields f then f else best) x
        · rw [← hx]
          exact hprev
        · exact (hbest x List.mem_cons_self hx).trans hprev
      · exact hbest f hf hne
    · rw [if_neg (by rw [hy]; exact Bool.false_ne_true)]
      obtain ⟨hmem, hbest⟩ := ih (h.sublist ((List.sublist_cons_self x rest).cons_cons e))
      refine ⟨?_, fun f hf hne => ?_⟩
      · rcases List.mem_cons.1 hmem with heq | hmem
        · rw [heq]
          exact List.mem_cons_self
        · exact List.mem_cons_of_mem _ (List.mem_cons_of_mem _ hmem)
      · rcases List.mem_cons.1 hf with rfl | hf
        · exact hbest f List.mem_cons_self hne
        · rcases List.mem_cons.1 hf with rfl | hf
          · by_cases he : e = rest.foldl (fun best f => if best.yields f then f else best) e
            · rw [← he]
              exact hprev
            · exact (hbest e List.mem_cons_self he).trans hprev
          · exact hbest f (List.mem_cons_of_mem _ hf) hne

/-- The winner prevails over every other entry. -/
theorem winner?_eq_some {size : Nat} {es : List Entry} {w : Entry} (h : Comparable size es)
    (hw : winner? es = some w) : w ∈ es ∧ ∀ f ∈ es, f ≠ w → w.Prevails f := by
  cases es with
  | nil => cases hw
  | cons e rest =>
    rw [winner?, Option.some.injEq] at hw
    subst hw
    exact foldl_yields h

theorem exists_winner {es : List Entry} (h : es ≠ []) : ∃ w, winner? es = some w := by
  cases es with
  | nil => exact absurd rfl h
  | cons e rest => exact ⟨_, rfl⟩

/-! ### Exactly one entry is the best -/

/-- The entry at a place covers a key and prevails over every other entry that does. -/
def Best (es : List Entry) (t : Key) (i : Fin es.length) : Prop :=
  es[i].Matches t ∧ ∀ j, j ≠ i → es[j].Matches t → es[i].Prevails es[j]

instance (e : Entry) (t : Key) : Decidable (e.Matches t) :=
  decidable_of_iff (∀ p : Fin t.length, e.covers p t[p] = true) <| by
    constructor
    · intro h p label hp
      obtain ⟨hlt, rfl⟩ := List.getElem?_eq_some_iff.1 hp
      exact h ⟨p, hlt⟩
    · intro h p
      exact h p _ (List.getElem?_eq_getElem p.isLt)

/-- The entries that cover a key. -/
def covering (es : List Entry) (t : Key) : List Entry := es.filter fun e => e.Matches t

theorem mem_covering {es : List Entry} {t : Key} {e : Entry} :
    e ∈ covering es t ↔ e ∈ es ∧ e.Matches t := by
  rw [covering, List.mem_filter, decide_eq_true_eq]

/-- The entries that cover one key are comparable if their patterns are different. -/
theorem comparable_covering {es : List Entry} {t : Key}
    (hlen : ∀ e ∈ es, e.pattern.length = t.length) (hp : es.Pairwise Entry.Apart) :
    Comparable t.length (covering es t) := by
  constructor
  · intro e he
    exact hlen e (mem_covering.1 he).1
  · apply (hp.filter _).imp_of_mem
    intro e f he hf hef
    obtain ⟨hme, hte⟩ := mem_covering.1 he
    exact hef.exists_gives hte (mem_covering.1 hf).2 (Nat.le_of_eq (hlen e hme))

theorem Best.unique {es : List Entry} {t : Key} {i j : Fin es.length} (hi : Best es t i)
    (hj : Best es t j) : j = i := by
  by_contra hne
  have hij := hi.2 j hne hj.1
  have hji := hj.2 i (Ne.symm hne) hi.1
  exact Entry.Prevails.irrefl (hij.trans hji)

/-- **Exactly one entry is the best** at a key that some entry covers, and it is the winner. -/
theorem exists_best {es : List Entry} {t : Key}
    (hlen : ∀ e ∈ es, e.pattern.length = t.length) (hp : es.Pairwise Entry.Apart)
    (hc : covering es t ≠ []) :
    ∃ i, winner? (covering es t) = some es[i] ∧ ∀ j, Best es t j ↔ j = i := by
  obtain ⟨w, hw⟩ := exists_winner hc
  have hcomp := comparable_covering hlen hp
  obtain ⟨hmem, hprev⟩ := winner?_eq_some hcomp hw
  obtain ⟨hin, hmatch⟩ := mem_covering.1 hmem
  obtain ⟨k, hk, rfl⟩ := List.getElem_of_mem hin
  have hbest : Best es t ⟨k, hk⟩ := by
    refine ⟨hmatch, fun j hne hj => ?_⟩
    refine hprev es[j] (mem_covering.2 ⟨List.getElem_mem _, hj⟩) fun heq => ?_
    -- one entry does not stand at two places: it would be apart from itself
    have hself : es[j].Apart es[j] := by
      have hpair := List.pairwise_iff_getElem.1 hp
      rcases Nat.lt_or_gt_of_ne (fun h => hne (Fin.ext h) : j.val ≠ k) with hlt | hlt
      · have := hpair j k j.isLt hk hlt
        rwa [← heq] at this
      · have := hpair k j hk j.isLt hlt
        rwa [← heq] at this
    obtain ⟨p, hp⟩ := hself
    exact hp rfl
  refine ⟨⟨k, hk⟩, hw, fun j => ⟨fun hj => hbest.unique hj, ?_⟩⟩
  rintro rfl
  exact hbest

end EnergyPlan.Fields
