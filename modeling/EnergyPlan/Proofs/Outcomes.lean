/-
# Outcomes of work that may fail

What the steps of a piece of work came to, from what the whole came to: a result comes from a
result of every step, and an error is the error of one of them.

Key theorems: `mapError_bind`, `ok_bind`, `bind_eq_ok`, `bind_eq_error`, `forM_eq_ok_iff`,
`forM_eq_error`.
-/
namespace EnergyPlan

/-- An outcome that is kept when errors are renamed was an outcome before. -/
theorem eq_ok_of_mapError {ε ε' α : Type} {f : ε → ε'} {r : Except ε α} {a : α}
    (h : r.mapError f = .ok a) : r = .ok a := by
  cases r with
  | error e => cases h
  | ok b => cases h; rfl

/-- Renaming the errors of two steps is renaming those of each. -/
theorem mapError_bind {ε ε' α β : Type} (r : Except ε α) (f : α → Except ε β) (g : ε → ε') :
    (r >>= f).mapError g = r.mapError g >>= fun a => (f a).mapError g := by
  cases r <;> rfl

theorem ok_bind {ε α β : Type} (a : α) (f : α → Except ε β) : (Except.ok a >>= f) = f a := rfl

theorem bind_eq_ok {ε α β : Type} {r : Except ε α} {f : α → Except ε β} {b : β}
    (h : r >>= f = .ok b) : ∃ a, r = .ok a ∧ f a = .ok b := by
  cases r with
  | error e => cases h
  | ok a => exact ⟨a, rfl, h⟩

theorem bind_eq_ok_iff {ε : Type} {r : Except ε Unit} {f : Unit → Except ε Unit} :
    r >>= f = .ok () ↔ r = .ok () ∧ f () = .ok () := by
  cases r with
  | error e => exact ⟨nofun, fun h => nomatch h.1⟩
  | ok u => exact ⟨fun h => ⟨rfl, h⟩, fun h => h.2⟩

theorem forM_eq_ok_iff {ε α : Type} {f : α → Except ε Unit} {as : List α} :
    as.forM f = .ok () ↔ ∀ a ∈ as, f a = .ok () := by
  induction as with
  | nil => simp [List.forM]; rfl
  | cons a rest ih =>
    rw [List.forall_mem_cons, ← ih]
    show (f a >>= fun _ => rest.forM f) = .ok () ↔ _
    exact bind_eq_ok_iff

theorem bind_eq_error {ε : Type} {r : Except ε Unit} {f : Unit → Except ε Unit} {e : ε}
    (h : r >>= f = .error e) : r = .error e ∨ f () = .error e := by
  cases r with
  | error e' => exact .inl h
  | ok u => exact .inr h

theorem forM_eq_error {ε α : Type} {f : α → Except ε Unit} {as : List α} {e : ε}
    (h : as.forM f = .error e) : ∃ a ∈ as, f a = .error e := by
  induction as with
  | nil => cases h
  | cons a rest ih =>
    change (f a >>= fun _ => rest.forM f) = .error e at h
    rcases bind_eq_error h with h | h
    · exact ⟨a, List.mem_cons_self, h⟩
    · obtain ⟨b, hb, he⟩ := ih h
      exact ⟨b, List.mem_cons_of_mem a hb, he⟩

end EnergyPlan
