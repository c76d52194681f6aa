/-
# Work that makes no notes

`r.Yields P` says that nothing was noted on the way to `r` and that its value has the
property `P`. It goes through a piece of work step by step: a step that yields a value
with a property hands it to the next one (`Yields.bind`), and work over the elements of
a list yields what each element yields (`Yields.each`, `Yields.gather`). A tensor that is
asked under a key of the right length yields what it holds there.

Key definitions: `Noted.Yields`.
Key theorems: `Yields.bind`, `Yields.each`, `Yields.gather`, `mem_value_gather`,
`mem_value_each`, `Yields.foldlM`, `Tensor.yields_lookup`.
-/
import EnergyPlan.Index.Tensor

namespace EnergyPlan

namespace Noted

variable {ε α β : Type}

/-- Nothing was noted, and the value has a property. -/
def Yields (r : Noted ε α) (P : α → Prop) : Prop := r.notes = [] ∧ P r.value

theorem yields_pure {a : α} {P : α → Prop} (h : P a) : (pure a : Noted ε α).Yields P := ⟨rfl, h⟩

/-- The elements gathered over a list are those of its elements. -/
theorem mem_value_gather {f : α → Noted ε (List β)} {as : List α} {b : β} :
    b ∈ (gather f as).value ↔ ∃ a ∈ as, b ∈ (f a).value := by
  rw [value_gather, List.mem_flatMap]

/-- The results for the elements of a list are one for each. -/
theorem mem_value_each {f : α → Noted ε β} {as : List α} {b : β} :
    b ∈ (each f as).value ↔ ∃ a ∈ as, (f a).value = b := by
  rw [value_each, List.mem_map]

namespace Yields

variable {r : Noted ε α} {P Q : α → Prop}

theorem mono (h : r.Yields P) (hPQ : ∀ a, P a → Q a) : r.Yields Q := ⟨h.1, hPQ _ h.2⟩

/-- What a step yields is handed to the next one. -/
theorem bind {f : α → Noted ε β} {Q : β → Prop} (h : r.Yields P)
    (hf : ∀ a, P a → (f a).Yields Q) : (r >>= f).Yields Q := by
  have hs := hf r.value h.2
  exact ⟨by rw [notes_bind, h.1, hs.1]; rfl, hs.2⟩

theorem map {f : α → β} {Q : β → Prop} (h : r.Yields P) (hf : ∀ a, P a → Q (f a)) :
    (f <$> r).Yields Q :=
  h.bind fun a ha => yields_pure (hf a ha)

/-- Both outcomes of a choice yield. -/
theorem ite {c : Prop} [Decidable c] {r s : Noted ε α} (hr : c → r.Yields P)
    (hs : ¬ c → s.Yields P) : (if c then r else s).Yields P := by
  by_cases h : c
  · rw [if_pos h]; exact hr h
  · rw [if_neg h]; exact hs h

/-- Work for each element of a list yields a list of what it yields for the elements. -/
theorem each {f : α → Noted ε β} {as : List α} {P : β → Prop}
    (h : ∀ a ∈ as, (f a).Yields P) : (each f as).Yields fun bs => ∀ b ∈ bs, P b := by
  constructor
  · rw [notes_each, List.flatMap_eq_nil_iff]
    exact fun a ha => (h a ha).1
  · intro b hb
    obtain ⟨a, ha, rfl⟩ := mem_value_each.1 hb
    exact (h a ha).2

/-- Gathering over a list yields the elements that the work yields for its elements. -/
theorem gather {f : α → Noted ε (List β)} {as : List α} {P : β → Prop}
    (h : ∀ a ∈ as, (f a).Yields fun bs => ∀ b ∈ bs, P b) :
    (gather f as).Yields fun bs => ∀ b ∈ bs, P b := by
  constructor
  · rw [notes_gather, List.flatMap_eq_nil_iff]
    exact fun a ha => (h a ha).1
  · intro b hb
    obtain ⟨a, ha, hb⟩ := mem_value_gather.1 hb
    exact (h a ha).2 b hb

/-- A property that every step of a fold keeps holds at its end. -/
theorem foldlM {f : β → α → Noted ε β} {as : List α} {b : β} {P : β → Prop} (hb : P b)
    (h : ∀ b, P b → ∀ a ∈ as, (f b a).Yields P) : (as.foldlM f b).Yields P := by
  induction as generalizing b with
  | nil => exact yields_pure hb
  | cons a rest ih =>
    rw [List.foldlM_cons]
    refine (h b hb a List.mem_cons_self).bind fun b' hb' => ih hb' ?_
    exact fun b'' hb'' a' ha' => h b'' hb'' a' (List.mem_cons_of_mem a ha')

/-- What yields at all has a settled value. -/
theorem settled (h : r.Yields P) : ∃ a, r.settled = .ok a ∧ P a :=
  ⟨r.value, settled_eq_ok_iff.2 ⟨h.1, rfl⟩, h.2⟩

end Yields

end Noted

namespace Tensor

variable {α : Type} {t : Tensor α} {dimensions : List Dimension} {key : Key}

theorem misfit_eq_nil (hd : t.dimensions = dimensions) (hl : key.length = dimensions.length) :
    t.misfit key = [] := by
  rw [misfit, if_pos (by rw [hd, hl])]

theorem yields_lookup (hd : t.dimensions = dimensions) (hl : key.length = dimensions.length)
    {fallback : α} : (t.lookup key fallback).Yields (· = (t.find? key).getD fallback) :=
  ⟨misfit_eq_nil hd hl, rfl⟩

theorem yields_lookup? (hd : t.dimensions = dimensions) (hl : key.length = dimensions.length) :
    (t.lookup? key).Yields (· = t.find? key) :=
  ⟨misfit_eq_nil hd hl, rfl⟩

theorem yields_has (hd : t.dimensions = dimensions) (hl : key.length = dimensions.length) :
    (t.has key).Yields (· = (t.find? key).isSome) :=
  ⟨misfit_eq_nil hd hl, rfl⟩

/-- A value that is there can be required. -/
theorem yields_require (hd : t.dimensions = dimensions) (hl : key.length = dimensions.length)
    {substitute : α} (hs : (t.find? key).isSome) :
    (t.require key substitute).Yields (· = (t.find? key).getD substitute) :=
  ⟨by rw [require, misfit_eq_nil hd hl, if_pos hs]; rfl, rfl⟩

end Tensor

end EnergyPlan
