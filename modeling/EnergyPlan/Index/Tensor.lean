/-
# Sparse tensors

A tensor maps keys to values and is tagged with its dimensions. Reading or writing
under a key with the wrong count of labels is noted as an error, so a slot is never
addressed by mistake. Entries are listed in the order of their keys: label by
label, each by its bytes.

Key definitions: `Tensor`, `Tensor.lookup`, `Tensor.set`, `Tensor.insert`,
`Tensor.entries`.
Key theorems: `mem_entries_iff`, `mem_keys_iff`, `find?_insert`.
-/
import EnergyPlan.Index.Lookup
import Std.Data.ExtTreeMap

namespace EnergyPlan

/-- Values under keys over some dimensions. -/
structure Tensor (α : Type) where
  dimensions : List Dimension
  values : Std.ExtTreeMap Key α := ∅

namespace Tensor

variable {α : Type}

/-- The tensor without values. -/
def empty (dimensions : List Dimension) : Tensor α := ⟨dimensions, ∅⟩

/-- The count of keys that hold a value. -/
def size (t : Tensor α) : Nat := t.values.size

/-- Whether no key holds a value. -/
def isEmpty (t : Tensor α) : Bool := t.values.isEmpty

/-- The entries in the order of their keys. -/
def entries (t : Tensor α) : List (Key × α) := t.values.toList

/-- The value under a key, whatever its length. -/
def find? (t : Tensor α) (key : Key) : Option α := t.values[key]?

/-- Puts a value under a key that is known to fit. -/
def insert (t : Tensor α) (key : Key) (value : α) : Tensor α :=
  { t with values := t.values.insert key value }

/-- Puts a value under a key that has none yet. -/
def insertNew (t : Tensor α) (key : Key) (value : α) : Tensor α :=
  if (t.find? key).isSome then t else t.insert key value

/-- The error of a key that does not fit the dimensions, if it does not. -/
def misfit (t : Tensor α) (key : Key) : List IndexError :=
  if key.length = t.dimensions.length then [] else [.tensorMismatch key t.dimensions]

/-- The value under a key, if there is one. -/
def lookup? (t : Tensor α) (key : Key) : Lookup (Option α) := ⟨t.find? key, t.misfit key⟩

/-- The value under a key, or a fallback. -/
def lookup (t : Tensor α) (key : Key) (fallback : α) : Lookup α :=
  ⟨(t.find? key).getD fallback, t.misfit key⟩

/-- Whether there is a value under a key. -/
def has (t : Tensor α) (key : Key) : Lookup Bool := ⟨(t.find? key).isSome, t.misfit key⟩

/-- The value under a key, which has to be there; a substitute is used where it is not. -/
def require (t : Tensor α) (key : Key) (substitute : α) : Lookup α :=
  ⟨(t.find? key).getD substitute,
    t.misfit key ++ if (t.find? key).isSome then [] else [.noValue key]⟩

/-- Puts a value under a key. -/
def set (t : Tensor α) (key : Key) (value : α) : Lookup (Tensor α) :=
  ⟨t.insert key value, t.misfit key⟩

/-- The distinct labels at a position of the keys, in the order of the keys. -/
def labelsAt (t : Tensor α) (position : Nat) : Except IndexError (List String) :=
  t.entries.foldlM
    (fun labels (key, _) =>
      match key[position]? with
      | some label => .ok (Text.appendNew labels label)
      | none => .error (.noPosition position))
    []

theorem mem_entries_iff {t : Tensor α} {key : Key} {value : α} :
    (key, value) ∈ t.entries ↔ t.find? key = some value :=
  Std.ExtTreeMap.mem_toList_iff_getElem?_eq_some

/-- There is an entry under a key exactly if a value is found there. -/
theorem mem_keys_iff {t : Tensor α} {key : Key} :
    key ∈ t.entries.map (·.1) ↔ (t.find? key).isSome := by
  rw [entries, Std.ExtTreeMap.map_fst_toList_eq_keys, Std.ExtTreeMap.mem_keys]
  exact Std.ExtTreeMap.mem_iff_isSome_getElem?

/-- A value is found under the key it was put at, and nothing else changes. -/
theorem find?_insert (t : Tensor α) (key k : Key) (value : α) :
    (t.insert key value).find? k = if key = k then some value else t.find? k := by
  simp only [find?, insert, Std.ExtTreeMap.getElem?_insert, Std.compare_eq_iff_eq]

end Tensor

end EnergyPlan
