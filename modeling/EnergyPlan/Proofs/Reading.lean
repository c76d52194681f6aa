/-
# An indexed field is read without loss

The value of an indexed field is a ragged tree of mappings. Each of its leaves at full depth that
writes a value of the field's kind is stored at the key that leads to it, each other leaf is
reported at its own path, and nothing else is stored or reported, whatever the kind of the field
and the count of its dimensions. A default stands only at keys over declared members that are
given no value.

Key definitions: `FieldKind.Valid`, `FieldSpec.Writes`, `Reader.Gives`, `Reader.ReadsAll`.
Key theorems: `conversion_eq_ok_iff`, `Node.mem_leaves_iff`, `Node.nodup_leaves`,
`find?_foldl_readLeaf`, `readsAll_of_indexed`.
-/
import EnergyPlan.Proofs.Defaults
import EnergyPlan.Proofs.Resolution.Positions

namespace EnergyPlan

open Config Fields Text

/-! ### What a field accepts -/

section

variable {R : Type} [Scalar R] {kind : FieldKind} {written : String}

/-- A text that passes a check is read further. -/
theorem ite_error_eq_ok_iff {α : Type} {p : Prop} [Decidable p] {problem : String}
    {read : Except String α} {a : α} :
    (if p then .error problem else read) = .ok a ↔ ¬ p ∧ read = .ok a := by
  by_cases h : p <;> simp [h]

/-- A number is read within the limits of the kind of its field. -/
theorem convertReal_eq_ok_iff [Zero R] [One R] [LT R] [DecidableLT R] {x : R} :
    convertReal kind written = .ok x ↔ Scalar.ofText written = some x ∧
      ¬ (kind = .nonNegative ∧ x < 0) ∧ ¬ (kind = .fraction ∧ (x < 0 ∨ 1 < x)) := by
  unfold convertReal
  cases (Scalar.ofText written : Option R) with
  | none => simp
  | some y =>
    dsimp only
    rw [ite_error_eq_ok_iff, ite_error_eq_ok_iff, Except.ok.injEq, Option.some.injEq]
    constructor
    · rintro ⟨hn, hf, rfl⟩
      exact ⟨rfl, hn, hf⟩
    · rintro ⟨rfl, hn, hf⟩
      exact ⟨hn, hf, rfl⟩

/-- A whole number is read if it is a 32-bit integer from one on. -/
theorem convertWhole_eq_ok_iff {n : Int} : convertWhole R kind written = .ok n ↔
    ∃ x : R, Scalar.ofText written = some x ∧ Scalar.whole? x = some n ∧ 1 ≤ n ∧
      n ≤ Decimal.maxInt32 := by
  have hbind : (∃ x : R, Scalar.ofText written = some x ∧ Scalar.whole? x = some n ∧ 1 ≤ n ∧
      n ≤ Decimal.maxInt32) ↔
        ((Scalar.ofText written : Option R).bind Scalar.whole? = some n ∧ 1 ≤ n ∧
          n ≤ Decimal.maxInt32) := by
    simp only [Option.bind_eq_some_iff, ← and_assoc, exists_and_right]
  rw [hbind]
  unfold convertWhole
  cases (Scalar.ofText written : Option R).bind Scalar.whole? with
  | none => simp
  | some m =>
    dsimp only
    rw [ite_error_eq_ok_iff, ite_error_eq_ok_iff, Except.ok.injEq, Option.some.injEq, Int.not_lt,
      Int.not_lt]
    constructor
    · rintro ⟨hlow, hhigh, rfl⟩
      exact ⟨rfl, hlow, hhigh⟩
    · rintro ⟨rfl, hlow, hhigh⟩
      exact ⟨hlow, hhigh, rfl⟩

end

/-- The values of a kind of field. -/
def FieldKind.Carrier (R : Type) : FieldKind → Type
  | .real | .nonNegative | .fraction => R
  | .integer => Int
  | .flag => Bool
  | .text => String

section

variable (R : Type) [Zero R] [One R] [LT R] [Scalar R]

/-- A text is valid for a kind of field, and writes a value. -/
def FieldKind.Valid : (kind : FieldKind) → String → kind.Carrier R → Prop
  | .real, written, (x : R) => Scalar.ofText written = some x
  | .nonNegative, written, (x : R) => Scalar.ofText written = some x ∧ ¬ x < 0
  | .fraction, written, (x : R) => Scalar.ofText written = some x ∧ ¬ x < 0 ∧ ¬ 1 < x
  | .integer, written, (n : Int) =>
    ∃ x : R, Scalar.ofText written = some x ∧ Scalar.whole? x = some n ∧ 1 ≤ n ∧
      n ≤ Decimal.maxInt32
  | .flag, written, (b : Bool) => Decimal.boolean written = some b
  | .text, written, (s : String) => s = written

variable [DecidableLT R]

/-- How the values of a kind of field are read. -/
def FieldKind.conversion : (kind : FieldKind) → Conversion (kind.Carrier R)
  | .real | .nonNegative | .fraction => convertReal (R := R)
  | .integer => convertWhole R
  | .flag => convertFlag
  | .text => convertText

/-- A text is read as a value exactly if it is valid and writes the value. -/
theorem conversion_eq_ok_iff {kind : FieldKind} {written : String} {value : kind.Carrier R} :
    kind.conversion R kind written = .ok value ↔ kind.Valid R written value := by
  cases kind with
  | real | nonNegative | fraction =>
    refine convertReal_eq_ok_iff.trans ?_
    simp [FieldKind.Valid]
  | integer => exact @convertWhole_eq_ok_iff R _ .integer _ _
  | flag =>
    show convertFlag .flag written = .ok _ ↔ Decimal.boolean written = some _
    rw [convertFlag]
    cases Decimal.boolean written with
    | none => exact iff_of_false (fun he => by cases he) fun he => by cases he
    | some b => exact (Except.ok.injEq ..).to_iff.trans (Option.some.injEq ..).to_iff.symm
  | text => exact (Except.ok.injEq ..).to_iff.trans eq_comm

/-- Every default of an indexed field is valid. -/
theorem valid_standard (h : ReadsDefaults R) {kind : EntityKind} {spec : FieldSpec}
    (hs : spec ∈ kind.indexedFields) {written : String} (ht : spec.standard = some written) :
    ∃ value, spec.kind.Valid R written value := by
  obtain ⟨hnumber, hinteger, hflag, -⟩ := reads_standard h hs ht
  suffices hread : ∃ value, spec.kind.conversion R spec.kind written = .ok value by
    obtain ⟨value, hvalue⟩ := hread
    exact ⟨value, (conversion_eq_ok_iff R).1 hvalue⟩
  revert hnumber hinteger hflag
  cases spec.kind with
  | real | nonNegative | fraction => exact fun hnumber _ _ => hnumber rfl
  | integer => exact fun _ hinteger _ => hinteger rfl
  | flag => exact fun _ _ hflag => hflag rfl
  | text => exact fun _ _ _ => ⟨written, rfl⟩

end

/-! ### The leaves of a ragged tree -/

namespace Config.Node

/-- What is no mapping is its own leaf. -/
theorem leaves_of_not_mapping {node : Node} (h : node.isMapping = false) (depth : Nat) :
    node.leaves depth = [([], node)] := by
  cases depth with
  | zero => exact leaves_zero node
  | succ depth =>
    cases node with
    | mapping => cases h
    | _ => rfl

/-- No key leads further down from what is no mapping. -/
theorem get?_key_of_not_mapping {node : Node} (h : node.isMapping = false) (key : String)
    (rest : List Step) : node.get? (.key key :: rest) = none := by
  cases node with
  | mapping => cases h
  | _ => rfl

theorem mem_leaves_of_not_mapping {node : Node} (h : node.isMapping = false) {depth : Nat}
    {key : List String} {leaf : Node} : (key, leaf) ∈ node.leaves depth ↔
      node.get? (key.map .key) = some leaf ∧
        (key.length = depth ∨ key.length < depth ∧ leaf.isMapping = false) := by
  rw [leaves_of_not_mapping h, List.mem_singleton, Prod.mk.injEq]
  cases key with
  | nil =>
    constructor
    · rintro ⟨-, rfl⟩
      exact ⟨rfl, (Nat.eq_zero_or_pos depth).imp Eq.symm fun hpos => ⟨hpos, h⟩⟩
    · rintro ⟨hget, -⟩
      exact ⟨rfl, (Option.some.inj hget).symm⟩
  | cons first rest =>
    rw [List.map_cons, get?_key_of_not_mapping h]
    exact iff_of_false (fun hkey => by cases hkey.1) fun hget => by cases hget.1

/-- The leaves of a tree are what stands at the full depth, and what stands above it and is no
mapping. -/
theorem mem_leaves_iff {node : Node} (h : node.Distinct) {depth : Nat} {key : List String}
    {leaf : Node} : (key, leaf) ∈ node.leaves depth ↔ node.get? (key.map .key) = some leaf ∧
      (key.length = depth ∨ key.length < depth ∧ leaf.isMapping = false) := by
  induction depth generalizing node key with
  | zero =>
    rw [leaves_zero, List.mem_singleton, Prod.mk.injEq]
    constructor
    · rintro ⟨rfl, rfl⟩
      exact ⟨rfl, .inl rfl⟩
    · rintro ⟨hget, hl | ⟨hl, -⟩⟩
      · obtain rfl := List.eq_nil_of_length_eq_zero hl
        exact ⟨rfl, (Option.some.inj hget).symm⟩
      · exact absurd hl (Nat.not_lt_zero _)
  | succ depth ih =>
    cases h with
    | @mapping entries hkeys hbelow =>
      rw [mem_leaves_mapping]
      constructor
      · rintro ⟨first, value, rest, hm, rfl, hleaf⟩
        obtain ⟨hget, hl⟩ := (ih (hbelow _ hm)).1 hleaf
        have hchild : (mapping entries).child? (.key first) = some value := lookup_of_mem hkeys hm
        rw [List.map_cons, get?_cons hchild, List.length_cons, Nat.add_right_cancel_iff,
          Nat.add_lt_add_iff_right]
        exact ⟨hget, hl⟩
      · rintro ⟨hget, hl⟩
        cases key with
        | nil =>
          cases hget
          rcases hl with hl | ⟨-, hl⟩ <;> cases hl
        | cons first rest =>
          obtain ⟨value, hvalue, hget⟩ := Option.bind_eq_some_iff.1 hget
          rw [List.length_cons, Nat.add_right_cancel_iff, Nat.add_lt_add_iff_right] at hl
          have hm := mem_of_lookup hvalue
          exact ⟨first, value, rest, hm, rfl, (ih (hbelow _ hm)).2 ⟨hget, hl⟩⟩
    | _ => exact mem_leaves_of_not_mapping rfl

/-- The ways to the leaves of a tree differ. -/
theorem nodup_leaves {node : Node} (h : node.Distinct) (depth : Nat) :
    ((node.leaves depth).map (·.1)).Nodup := by
  induction depth generalizing node with
  | zero =>
    rw [leaves_zero]
    exact List.nodup_singleton _
  | succ depth ih =>
    cases h with
    | @mapping entries hkeys hbelow =>
      rw [leaves, List.map_flatMap, List.Nodup, List.pairwise_flatMap]
      constructor
      · rintro ⟨key, value⟩ hm
        rw [List.map_map, List.pairwise_map]
        exact (List.pairwise_map.1 (ih (hbelow _ hm))).imp fun hne heq => hne (List.cons.inj heq).2
      · rw [List.Nodup, List.pairwise_map] at hkeys
        refine hkeys.imp fun hne a ha b hb hab => ?_
        rw [List.map_map, List.mem_map] at ha hb
        obtain ⟨_, -, rfl⟩ := ha
        obtain ⟨_, -, rfl⟩ := hb
        exact hne (List.cons.inj hab).1
    | _ => exact List.nodup_singleton _

end Config.Node

/-! ### What the leaves give -/

section

variable (R : Type) [Zero R] [One R] [LT R] [Scalar R]

/-- A leaf of a field writes a value: it is a scalar at full depth, and valid. -/
def FieldSpec.Writes (spec : FieldSpec) (leaf : Key × Node) (value : spec.kind.Carrier R) : Prop :=
  leaf.1.length = spec.dimensions.length ∧
    ∃ written, leaf.2.text? = some written ∧ spec.kind.Valid R written value

namespace Fields.Reader

/-- The leaves of an indexed field in document order. -/
def leavesOf (reader : Reader) (spec : FieldSpec) : List (Key × Node) :=
  match reader.entity.given? spec.name with
  | none => []
  | some value => value.leaves spec.dimensions.length

/-- An indexed field has a leaf: at full depth, or above it and no mapping. -/
def LeafAt (reader : Reader) (spec : FieldSpec) (key : Key) (leaf : Node) : Prop :=
  ∃ value, reader.entity.given? spec.name = some value ∧ value.get? (key.map .key) = some leaf ∧
    (key.length = spec.dimensions.length ∨
      key.length < spec.dimensions.length ∧ leaf.isMapping = false)

/-- An entity gives a value at a key of a field: the last leaf there that writes one writes it. -/
def Gives (reader : Reader) (spec : FieldSpec) (key : Key) (value : spec.kind.Carrier R) : Prop :=
  ∃ before leaf after, reader.leavesOf spec = before ++ (key, leaf) :: after ∧
    spec.Writes R (key, leaf) value ∧
      ∀ later, (key, later) ∈ after → ∀ other, ¬ spec.Writes R (key, later) other

/-- A field has a default, and a key is over the declared members. -/
def Defaults (reader : Reader) (spec : FieldSpec) (key : Key) (value : spec.kind.Carrier R) :
    Prop :=
  (∃ written, spec.standard = some written ∧ spec.kind.Valid R written value) ∧
    key.length = spec.dimensions.length ∧
      ∀ e ∈ spec.dimensions.zip key, e.2 ∈ reader.sets.declared e.1

open Classical in
/-- An indexed field is read without loss. -/
structure ReadsAll [DecidableLT R] (reader : Reader) (spec : FieldSpec) : Prop where
  /-- What is stored without filling is what is given. -/
  given : ∀ key value,
    (reader.tensor (spec.kind.conversion R) spec.name).value.find? key = some value ↔
      reader.Gives R spec key value
  /-- What is stored with filling is what is given, and the default where nothing is. -/
  filled : ∀ key value,
    (reader.filled (spec.kind.conversion R) spec.name).value.find? key = some value ↔
      reader.Gives R spec key value ∨
        (∀ other, ¬ reader.Gives R spec key other) ∧ reader.Defaults R spec key value
  /-- A default has a value. -/
  standard : ∀ written, spec.standard = some written → ∃ value, spec.kind.Valid R written value
  /-- Each leaf that writes no value is reported at its path, and nothing else is if there are
  leaves. -/
  rejected : (reader.entity.given? spec.name).isSome →
    (reader.tensor (spec.kind.conversion R) spec.name).notes.map (·.path) =
      ((reader.leavesOf spec).filter fun leaf => ¬ ∃ value, spec.Writes R leaf value).map
        fun leaf => childPaths (reader.fieldPath spec.name) leaf.1
  /-- A field that is missing or null is reported once if it is required. -/
  missing : reader.entity.given? spec.name = none →
    (reader.tensor (spec.kind.conversion R) spec.name).notes.map (·.path) =
      if spec.required then [reader.fieldPath spec.name] else []
  /-- Filling reports nothing. -/
  silent : (reader.filled (spec.kind.conversion R) spec.name).notes =
    (reader.tensor (spec.kind.conversion R) spec.name).notes
  /-- Where no mapping has a key twice, no two leaves are at one key. -/
  apart : reader.entity.Distinct → ((reader.leavesOf spec).map (·.1)).Nodup ∧
    ∀ key leaf, (key, leaf) ∈ reader.leavesOf spec ↔ reader.LeafAt spec key leaf
  /-- So the only leaf at a key gives its value. -/
  unique : reader.entity.Distinct → ∀ key value, reader.Gives R spec key value ↔
    ∃ leaf, reader.LeafAt spec key leaf ∧ spec.Writes R (key, leaf) value

end Fields.Reader

variable {R} [DecidableLT R] {spec : FieldSpec}

theorem leafValue_eq_ok_iff {leaf : Key × Node} {value : spec.kind.Carrier R} :
    Reader.leafValue (spec.kind.conversion R) spec leaf.1 leaf.2 = .ok value ↔
      spec.Writes R leaf value := by
  unfold Reader.leafValue FieldSpec.Writes
  by_cases hl : leaf.1.length = spec.dimensions.length
  · rw [if_neg (not_not_intro hl), and_iff_right hl]
    cases leaf.2.text? with
    | none => exact iff_of_false (fun he => by cases he) fun ⟨_, he, _⟩ => by cases he
    | some written =>
      simp only [Option.some.injEq, exists_eq_left']
      exact conversion_eq_ok_iff R
  · rw [if_pos hl]
    exact iff_of_false (fun he => by cases he) fun he => hl he.1

end

section

variable {α : Type} {convert : Conversion α} {spec : FieldSpec} {path : String}

/-- The value that a leaf writes at a key. -/
def Fields.Reader.written (convert : Conversion α) (spec : FieldSpec) (key : Key)
    (leaf : Key × Node) : Option α :=
  if leaf.1 = key then (leafValue convert spec leaf.1 leaf.2).toOption else none

theorem written_eq_some_iff {key : Key} {leaf : Key × Node} {value : α} :
    Reader.written convert spec key leaf = some value ↔
      leaf.1 = key ∧ Reader.leafValue convert spec leaf.1 leaf.2 = .ok value := by
  unfold Reader.written
  rw [Option.ite_none_right_eq_some]
  cases Reader.leafValue convert spec leaf.1 leaf.2 <;> simp [Except.toOption]

/-- A leaf writes at its own key, or leaves what was there. -/
theorem find?_readLeaf_eq (t : Tensor α) (leaf : Key × Node) (key : Key) :
    (Reader.readLeaf convert spec path t leaf).value.find? key =
      (Reader.written convert spec key leaf).or (t.find? key) := by
  unfold Reader.readLeaf Reader.written
  cases Reader.leafValue convert spec leaf.1 leaf.2 with
  | error => simp [Except.toOption, Noted.value_bind]
  | ok value =>
    rw [Noted.value_pure, Tensor.find?_insert]
    by_cases hk : leaf.1 = key
    · rw [if_pos hk, if_pos hk]
      rfl
    · rw [if_neg hk, if_neg hk]
      rfl

/-- At a key there is what the last leaf that writes there wrote. -/
theorem find?_foldl_readLeaf (leaves : List (Key × Node)) (t : Tensor α) (key : Key) :
    (leaves.foldl (fun t leaf => (Reader.readLeaf convert spec path t leaf).value) t).find? key =
      (leaves.reverse.findSome? (Reader.written convert spec key)).or (t.find? key) := by
  induction leaves using List.reverseRecOn with
  | nil => rfl
  | append_singleton leaves last ih =>
    rw [List.foldl_append, List.foldl_cons, List.foldl_nil, find?_readLeaf_eq, ih,
      List.reverse_append, List.reverse_singleton, List.singleton_append, List.findSome?_cons]
    cases Reader.written convert spec key last <;> rfl

/-- The path of a leaf is reported if it writes no value. -/
theorem notes_foldlM_readLeaf (leaves : List (Key × Node)) (t : Tensor α) :
    (leaves.foldlM (Reader.readLeaf convert spec path) t).notes.map (·.path) =
      (leaves.filter fun leaf => !(Reader.leafValue convert spec leaf.1 leaf.2).isOk).map
        fun leaf => childPaths path leaf.1 := by
  induction leaves generalizing t with
  | nil => rfl
  | cons first rest ih =>
    rw [List.foldlM_cons, Noted.notes_bind, List.map_append, ih, List.filter_cons]
    unfold Reader.readLeaf
    cases Reader.leafValue convert spec first.1 first.2 with
    | error => rfl
    | ok => rfl

/-- Filling stores the default where nothing was stored. -/
theorem find?_fill_eq_some_iff {reader : Reader} {t : Tensor α} {name : String} {key : Key}
    {value : α} : (reader.fill convert name t).find? key = some value ↔
      t.find? key = some value ∨ t.find? key = none ∧
        (∃ written, (reader.spec name).standard = some written ∧
          convert (reader.spec name).kind written = .ok value) ∧
        key ∈ reader.sets.product (reader.spec name).dimensions := by
  unfold Reader.fill
  dsimp only
  cases (reader.spec name).standard with
  | none => simp
  | some written =>
    cases hread : convert (reader.spec name).kind written with
    | error => simp [hread]
    | ok standard =>
      have hstandard : (∃ text, some written = some text ∧
          convert (reader.spec name).kind text = .ok value) ↔ standard = value := by
        simp [hread]
      rw [hstandard, Option.map_some, hread]
      dsimp only
      rw [find?_insertAbsent]
      by_cases hk : key ∈ reader.sets.product (reader.spec name).dimensions
      · rw [if_pos hk, Option.or_eq_some_iff, Option.some.injEq, and_iff_left hk]
      · rw [if_neg hk]
        exact (or_iff_left fun h => hk h.2.2).symm

end

section

variable {R : Type} [Zero R] [One R] [LT R] [DecidableLT R] [Scalar R] {reader : Reader}
  {spec : FieldSpec}

/-- What a list of leaves writes at a key is what the last leaf writes that writes there. -/
theorem findSome?_written_eq_some_iff {leaves : List (Key × Node)} {key : Key}
    {value : spec.kind.Carrier R} :
    leaves.reverse.findSome? (Reader.written (spec.kind.conversion R) spec key) = some value ↔
      ∃ before leaf after, leaves = before ++ (key, leaf) :: after ∧
        spec.Writes R (key, leaf) value ∧
          ∀ later, (key, later) ∈ after → ∀ other, ¬ spec.Writes R (key, later) other := by
  have hnone {leaf : Key × Node} :
      Reader.written (spec.kind.conversion R) spec key leaf = none ↔
        ∀ later, leaf = (key, later) → ∀ other, ¬ spec.Writes R (key, later) other := by
    rw [Option.eq_none_iff_forall_ne_some]
    simp only [ne_eq, written_eq_some_iff, leafValue_eq_ok_iff, not_and]
    constructor
    · rintro h later rfl other
      exact h other rfl
    · rintro h other rfl
      exact h leaf.2 rfl other
  rw [List.findSome?_eq_some_iff]
  simp only [written_eq_some_iff, leafValue_eq_ok_iff, hnone]
  constructor
  · rintro ⟨after, ⟨_, leaf⟩, before, hsplit, ⟨rfl, hwrites⟩, hlast⟩
    refine ⟨before.reverse, leaf, after.reverse, ?_, hwrites, fun later hm => ?_⟩
    · rw [← List.reverse_reverse leaves, hsplit]
      simp
    · exact hlast _ (List.mem_reverse.1 hm) later rfl
  · rintro ⟨before, leaf, after, rfl, hwrites, hlast⟩
    refine ⟨after.reverse, (key, leaf), before.reverse, by simp, ⟨rfl, hwrites⟩, ?_⟩
    rintro _ hm later rfl
    exact hlast later (List.mem_reverse.1 hm)

variable (h : ReadsDefaults R) (hs : spec ∈ reader.kind.indexedFields)

include hs

theorem spec_of_indexed : reader.spec spec.name = spec := by
  rw [Reader.spec, field?_name hs]
  rfl

/-- What is stored at a key is what is given there. -/
theorem find?_tensor_eq_some_iff {key : Key} {value : spec.kind.Carrier R} :
    (reader.tensor (spec.kind.conversion R) spec.name).value.find? key = some value ↔
      reader.Gives R spec key value := by
  have hempty : (Tensor.empty spec.dimensions : Tensor (spec.kind.Carrier R)).find? key = none := by
    simp [Tensor.empty, Tensor.find?]
  unfold Reader.tensor Reader.Gives Reader.leavesOf
  rw [spec_of_indexed hs]
  dsimp only
  cases reader.entity.given? spec.name with
  | none =>
    refine iff_of_false (fun he => ?_) ?_
    · rw [Noted.value_bind, Noted.value_pure, hempty] at he
      cases he
    · rintro ⟨before, leaf, after, he, -⟩
      exact List.append_ne_nil_of_right_ne_nil _ (List.cons_ne_nil _ _) he.symm
  | some node =>
    dsimp only
    rw [Noted.value_foldlM, find?_foldl_readLeaf, hempty, Option.or_none]
    exact findSome?_written_eq_some_iff

/-- Filling stores defaults where nothing was stored. -/
theorem find?_fill_defaults_iff {t : Tensor (spec.kind.Carrier R)} {key : Key}
    {value : spec.kind.Carrier R} :
    (reader.fill (spec.kind.conversion R) spec.name t).find? key = some value ↔
      t.find? key = some value ∨ t.find? key = none ∧ reader.Defaults R spec key value := by
  refine find?_fill_eq_some_iff.trans (or_congr Iff.rfl (and_congr Iff.rfl ?_))
  rw [spec_of_indexed hs, MemberSets.mem_product]
  simp only [conversion_eq_ok_iff]
  rfl

omit hs in
/-- Each leaf that writes no value is reported at its path. -/
theorem notes_foldlM_writes [DecidablePred fun leaf => ¬ ∃ value, spec.Writes R leaf value]
    {path : String} (leaves : List (Key × Node)) (t : Tensor (spec.kind.Carrier R)) :
    (leaves.foldlM (Reader.readLeaf (spec.kind.conversion R) spec path) t).notes.map (·.path) =
      (leaves.filter fun leaf => ¬ ∃ value, spec.Writes R leaf value).map
        fun leaf => childPaths path leaf.1 := by
  rw [notes_foldlM_readLeaf]
  refine congrArg _ (List.filter_congr fun leaf _ => ?_)
  rw [Bool.eq_iff_iff, decide_eq_true_iff, ← exists_congr fun _ => leafValue_eq_ok_iff]
  cases Reader.leafValue (spec.kind.conversion R) spec leaf.1 leaf.2 <;>
    simp [Except.isOk, Except.toBool]

omit hs in
theorem distinct_of_given {value : Node} (hd : reader.entity.Distinct)
    (hg : reader.entity.given? spec.name = some value) : value.Distinct := by
  have hentry : reader.entity.entry? spec.name = some value := (Option.filter_eq_some_iff.1 hg).1
  exact hd.get (p := [.key spec.name]) ((Node.get?_singleton _ _).trans hentry)

omit hs in
/-- Where no mapping has a key twice, the leaves of a field are what stands at a way each. -/
theorem apart_leavesOf (hd : reader.entity.Distinct) :
    ((reader.leavesOf spec).map (·.1)).Nodup ∧
      ∀ key leaf, (key, leaf) ∈ reader.leavesOf spec ↔ reader.LeafAt spec key leaf := by
  unfold Reader.leavesOf Reader.LeafAt
  cases hg : reader.entity.given? spec.name with
  | none => simp
  | some value =>
    have hvalue := distinct_of_given hd hg
    refine ⟨Node.nodup_leaves hvalue _, fun key leaf => ?_⟩
    simp only [Option.some.injEq, exists_eq_left']
    exact Node.mem_leaves_iff hvalue

omit hs [DecidableLT R] in
/-- If no two leaves are at one key, the leaf at a key gives its value. -/
theorem gives_iff_of_nodup (hn : ((reader.leavesOf spec).map (·.1)).Nodup) {key : Key}
    {value : spec.kind.Carrier R} : reader.Gives R spec key value ↔
      ∃ leaf, (key, leaf) ∈ reader.leavesOf spec ∧ spec.Writes R (key, leaf) value := by
  constructor
  · rintro ⟨before, leaf, after, hsplit, hwrites, -⟩
    exact ⟨leaf, hsplit ▸ List.mem_append_right _ List.mem_cons_self, hwrites⟩
  · rintro ⟨leaf, hm, hwrites⟩
    obtain ⟨before, after, hsplit⟩ := List.append_of_mem hm
    refine ⟨before, leaf, after, hsplit, hwrites, fun later hl _ _ => ?_⟩
    rw [hsplit, List.map_append, List.map_cons, List.nodup_append, List.nodup_cons] at hn
    exact hn.2.1.1 (List.mem_map.2 ⟨(key, later), hl, rfl⟩)

include h

/-- **Every indexed field is read without loss**, whatever its kind and dimensions, from every
entity and over every set of members. -/
theorem readsAll_of_indexed : reader.ReadsAll R spec where
  given key value := find?_tensor_eq_some_iff hs
  filled key value := by
    show (reader.fill _ spec.name (reader.tensor _ spec.name).value).find? key = some value ↔ _
    rw [find?_fill_defaults_iff hs, Option.eq_none_iff_forall_ne_some]
    simp only [ne_eq, find?_tensor_eq_some_iff hs]
  standard written ht := valid_standard R h hs ht
  rejected hgiven := by
    obtain ⟨value, hvalue⟩ := Option.isSome_iff_exists.1 hgiven
    unfold Reader.tensor Reader.leavesOf
    rw [spec_of_indexed hs, hvalue]
    classical exact notes_foldlM_writes _ _
  missing hmissing := by
    unfold Reader.tensor
    rw [spec_of_indexed hs, hmissing]
    dsimp only
    cases spec.required <;> rfl
  silent := List.append_nil _
  apart hd := apart_leavesOf hd
  unique hd key value := by
    obtain ⟨hn, hmem⟩ := apart_leavesOf hd
    rw [gives_iff_of_nodup hn]
    simp only [hmem]

end

/-- A boiler whose costs can be read for one year of two in the north, and for none in the south. -/
def partlyPriced : Reader where
  entity := .mapping [("capex", .mapping
    [("north", .mapping [("2020", .plain "3"), ("2030", .plain "-1")]), ("south", .plain "cheap")])]
  kind := .technology
  path := "technologies.boiler"
  sets := (MemberSets.empty.declareAll .region ["north", "south"]).declareAll .year ["2020"]

/-- The cost that is a number from zero on is stored, the other two are reported, and the default
stands where a declared region has no cost in a declared year. -/
theorem readsAll_of_indexed_boiler :
    ∃ spec ∈ partlyPriced.kind.indexedFields, ReadsDefaults Rat ∧ partlyPriced.entity.Distinct ∧
      partlyPriced.ReadsAll Rat spec ∧
      (partlyPriced.filled (convertReal (R := Rat)) spec.name).value.entries =
        [(["north", "2020"], 3), (["south", "2020"], 1 / 100000)] ∧
      (partlyPriced.tensor (convertReal (R := Rat)) spec.name).notes.map (·.path) =
        ["technologies.boiler.capex.north.2030", "technologies.boiler.capex.south"] := by
  have hs : FieldSpec.filled "capex" [.region, .year] .nonNegative "0.00001" ∈
      partlyPriced.kind.indexedFields := by decide +kernel
  refine ⟨_, hs, Exact.readsDefaults, ?distinct, readsAll_of_indexed Exact.readsDefaults hs,
    by decide +kernel, by decide +kernel⟩
  case distinct =>
    refine .mapping (by decide) (List.forall_mem_singleton.2 (.mapping (by decide) ?_))
    exact List.forall_mem_cons.2 ⟨.mapping (by decide) (List.forall_mem_cons.2 ⟨.scalar _ _,
      List.forall_mem_singleton.2 (.scalar _ _)⟩), List.forall_mem_singleton.2 (.scalar _ _)⟩

end EnergyPlan
