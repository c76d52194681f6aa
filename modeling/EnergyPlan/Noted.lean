/-
# Values with notes

Some work goes on after something went wrong, with a substitute for what is missing.
A `Noted` value comes with the notes made on the way to it, in the order in which they
were made; the value itself does not depend on whether notes are read. Where the first
note ends the work, `settled` has the same outcome as stopping there.

Key definitions: `Noted`, `Noted.each`, `Noted.gather`, `Noted.checked`, `Noted.settled`.
Key theorems: `value_bind`, `notes_bind`, `value_each`, `value_gather`, `value_foldlM`,
`checked_eq_ok_iff`, `checked_eq_error_iff`, `settled_eq_ok_iff`, `settled_bind`.
-/
namespace EnergyPlan

/-- A value, and the notes made on the way to it. -/
structure Noted (ε α : Type) where
  value : α
  notes : List ε := []

namespace Noted

variable {ε α β : Type}

instance : Monad (Noted ε) where
  pure a := ⟨a, []⟩
  bind r f :=
    let s := f r.value
    ⟨s.value, r.notes ++ s.notes⟩

/-- Makes a note. -/
def note (e : ε) : Noted ε Unit := ⟨(), [e]⟩

/-- Makes several notes. -/
def noteAll (es : List ε) : Noted ε Unit := ⟨(), es⟩

/-- The results for the elements of a list, one after the other. -/
def gather (f : α → Noted ε (List β)) : List α → Noted ε (List β)
  | [] => pure []
  | a :: rest => do
    let here ← f a
    let others ← gather f rest
    return here ++ others

/-- The results for the elements of a list, one for each. -/
def each (f : α → Noted ε β) : List α → Noted ε (List β)
  | [] => pure []
  | a :: rest => do
    let here ← f a
    let others ← each f rest
    return here :: others

/-- The value if there are no notes, and all notes otherwise. -/
def checked (r : Noted ε α) : Except (List ε) α :=
  if r.notes.isEmpty then .ok r.value else .error r.notes

/-- The value if there are no notes, and the first note otherwise. -/
def settled (r : Noted ε α) : Except ε α :=
  match r.notes with
  | [] => .ok r.value
  | e :: _ => .error e

@[simp] theorem value_pure (a : α) : (pure a : Noted ε α).value = a := rfl

@[simp] theorem notes_pure (a : α) : (pure a : Noted ε α).notes = [] := rfl

@[simp] theorem value_bind (r : Noted ε α) (f : α → Noted ε β) :
    (r >>= f).value = (f r.value).value := rfl

@[simp] theorem notes_bind (r : Noted ε α) (f : α → Noted ε β) :
    (r >>= f).notes = r.notes ++ (f r.value).notes := rfl

theorem value_gather (f : α → Noted ε (List β)) (as : List α) :
    (gather f as).value = as.flatMap fun a => (f a).value := by
  induction as with
  | nil => rfl
  | cons a rest ih => simp [gather, ih]

theorem notes_gather (f : α → Noted ε (List β)) (as : List α) :
    (gather f as).notes = as.flatMap fun a => (f a).notes := by
  induction as with
  | nil => rfl
  | cons a rest ih => simp [gather, ih]

theorem value_each (f : α → Noted ε β) (as : List α) :
    (each f as).value = as.map fun a => (f a).value := by
  induction as with
  | nil => rfl
  | cons a rest ih => simp [each, ih]

theorem notes_each (f : α → Noted ε β) (as : List α) :
    (each f as).notes = as.flatMap fun a => (f a).notes := by
  induction as with
  | nil => rfl
  | cons a rest ih => simp [each, ih]

theorem value_foldlM (f : β → α → Noted ε β) (b : β) (as : List α) :
    (as.foldlM f b).value = as.foldl (fun b a => (f b a).value) b := by
  induction as generalizing b with
  | nil => rfl
  | cons a rest ih => simp [List.foldlM_cons, ih]

/-- There is a checked value exactly if nothing was noted. -/
theorem checked_eq_ok_iff {r : Noted ε α} {a : α} :
    r.checked = .ok a ↔ r.notes = [] ∧ r.value = a := by
  unfold checked
  split <;> simp_all

/-- What is reported are the notes, of which there is one. -/
theorem checked_eq_error_iff {r : Noted ε α} {es : List ε} :
    r.checked = .error es ↔ es ≠ [] ∧ r.notes = es := by
  unfold checked
  split
  · next h =>
    rw [List.isEmpty_iff] at h
    simp [h, eq_comm]
  · next h =>
    rw [List.isEmpty_iff] at h
    constructor
    · intro he
      cases he
      exact ⟨h, rfl⟩
    · rintro ⟨-, rfl⟩
      rfl

/-- There is a settled value exactly if nothing was noted. -/
theorem settled_eq_ok_iff {r : Noted ε α} {a : α} :
    r.settled = .ok a ↔ r.notes = [] ∧ r.value = a := by
  unfold settled
  split <;> simp_all

/-- The first note of a row of steps is that of the first step with one. -/
theorem settled_bind (r : Noted ε α) (f : α → Noted ε β) :
    (r >>= f).settled = r.settled >>= fun a => (f a).settled := by
  unfold settled
  rw [notes_bind, value_bind]
  cases h : r.notes with
  | nil => rfl
  | cons e rest => rfl

end Noted

end EnergyPlan
