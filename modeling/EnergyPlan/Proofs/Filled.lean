/-
# Fields that are filled

A field with a default has a value under every key over the declared members: filling puts the
default where the configuration gives nothing, mirrored routes and all else that was read stay.
For that the default has to be read like a value of the configuration, and every default passes
the check of its own field (`reads_standard`), if numbers are read as they are written. A cost of
capital that is not given is the discount rate of its region.

Key definitions: `ReadsDefaults`, `FieldFilled`, `Config.Node.Gives`, `Tensor.ReadBy`.
Key theorems: `reads_standard`, `find?_fill`, `find?_fillRates`, `gives_of_find?_tensor`,
`readBy_filled`, `fieldFilled_fill`, `find?_costs`.
-/
import EnergyPlan.Proofs.Shape
import EnergyPlan.Model.Fields

namespace EnergyPlan

open Config Fields

/-! ### Defaults are read -/

/-- Numbers are read as they are written, as far as defaults are numbers: from zero to one, and
one as a whole number. -/
structure ReadsDefaults (R : Type) [Zero R] [One R] [LT R] [Scalar R] : Prop where
  fraction : ∀ text ∈ ["0", "0.00001", "0.05", "1"],
    ∃ x : R, Scalar.ofText text = some x ∧ ¬ x < 0 ∧ ¬ 1 < x
  whole : ∃ x : R, Scalar.ofText "1" = some x ∧ Scalar.whole? x = some 1

/-- A kind of field whose values are numbers. -/
def FieldKind.isNumber : FieldKind → Bool
  | .real | .nonNegative | .fraction => true
  | _ => false

/-- The kinds of entities. -/
def EntityKind.all : List EntityKind :=
  [.region, .regionGroup, .commodity, .impact, .technology, .operatingMode, .storage, .trade,
    .model]

theorem EntityKind.mem_all (kind : EntityKind) : kind ∈ EntityKind.all := by
  cases kind <;> decide

/-- The texts of the defaults of indexed fields, by the kind of the field. -/
theorem standard_cases : ∀ kind ∈ EntityKind.all, ∀ spec ∈ kind.indexedFields,
    ∀ text ∈ spec.standard,
      spec.kind.isNumber = true ∧ text ∈ ["0", "0.00001", "0.05", "1"] ∨
        spec.kind = .integer ∧ text = "1" ∨ spec.kind = .flag ∧ text = "false" ∨
          spec.kind = .text ∧ text = "sinking-fund" := by
  decide

section

variable {R : Type} [Zero R] [One R] [LT R] [DecidableLT R] [Scalar R]

theorem convertReal_of_fraction (h : ReadsDefaults R) {kind : FieldKind} {text : String}
    (ht : text ∈ ["0", "0.00001", "0.05", "1"]) : ∃ x : R, convertReal kind text = .ok x := by
  obtain ⟨x, hx, hzero, hone⟩ := h.fraction text ht
  refine ⟨x, ?_⟩
  rw [convertReal, hx]
  dsimp only
  rw [if_neg fun hn => hzero hn.2, if_neg fun hf => hf.2.elim hzero hone]

omit [DecidableLT R] in
theorem convertWhole_one (h : ReadsDefaults R) {kind : FieldKind} :
    convertWhole R kind "1" = .ok 1 := by
  obtain ⟨x, hx, hw⟩ := h.whole
  rw [convertWhole, hx, Option.bind_some, hw]
  rfl

theorem convertFlag_false {kind : FieldKind} : convertFlag kind "false" = .ok false := by
  have h : Decimal.boolean "false" = some false := by decide
  rw [convertFlag, h]

/-- Every default of an indexed field passes the check of its field. -/
theorem reads_standard (h : ReadsDefaults R) {kind : EntityKind} {spec : FieldSpec}
    (hs : spec ∈ kind.indexedFields) {text : String} (ht : spec.standard = some text) :
    (spec.kind.isNumber = true → ∃ x : R, convertReal spec.kind text = .ok x) ∧
      (spec.kind = .integer → ∃ n, convertWhole R spec.kind text = .ok n) ∧
      (spec.kind = .flag → ∃ b, convertFlag spec.kind text = .ok b) ∧
      (spec.kind = .text → (DepreciationMethod.ofName? text).isSome) := by
  have hcases := standard_cases kind kind.mem_all spec hs text ht
  rcases hcases with ⟨hk, htext⟩ | ⟨hk, rfl⟩ | ⟨hk, rfl⟩ | ⟨hk, rfl⟩
  · refine ⟨fun _ => convertReal_of_fraction h htext, ?_, ?_, ?_⟩ <;>
      · intro hk'
        rw [hk'] at hk
        cases hk
  all_goals simp only [hk, reduceCtorEq, false_implies, true_and, and_true, FieldKind.isNumber,
    Bool.false_eq_true, forall_const]
  · exact ⟨1, convertWhole_one h⟩
  · exact ⟨false, convertFlag_false⟩
  · rfl

end

/-! ### Filling -/

section

variable {α : Type}

theorem find?_insertNew (t : Tensor α) (key k : Key) (value : α) :
    (t.insertNew key value).find? k =
      if key = k then some ((t.find? k).getD value) else t.find? k := by
  unfold Tensor.insertNew
  by_cases hk : key = k
  · subst hk
    rw [if_pos rfl]
    cases hf : t.find? key with
    | none => exact (Tensor.find?_insert ..).trans (if_pos rfl)
    | some here => exact hf
  · rw [if_neg hk]
    split
    · rfl
    · exact (Tensor.find?_insert ..).trans (if_neg hk)

/-- A fold whose steps put a value under one key each, where there is one to put and none yet, puts
it under all of them. -/
theorem find?_foldl {step : Tensor α → Key → Tensor α} {f : Key → Option α}
    (hstep : ∀ t key k, (step t key).find? k =
      if key = k then (t.find? k).or (f k) else t.find? k)
    (keys : List Key) (t : Tensor α) (k : Key) : (keys.foldl step t).find? k =
      if k ∈ keys then (t.find? k).or (f k) else t.find? k := by
  induction keys generalizing t with
  | nil => rfl
  | cons key rest ih =>
    rw [List.foldl_cons, ih, hstep]
    by_cases hk : key = k
    · subst hk
      simp [Option.or_assoc]
    · simp [hk, Ne.symm hk]

/-- Filling leaves what there is and puts the value under the other keys of the list. -/
theorem find?_insertAbsent (t : Tensor α) (value : α) (keys : List Key) (k : Key) :
    (Reader.insertAbsent t value keys).find? k =
      if k ∈ keys then (t.find? k).or (some value) else t.find? k :=
  find?_foldl (f := fun _ => some value) (fun t key k => by
    rw [find?_insertNew, Option.or_some]) keys t k

theorem spec_eq_of_field? {kind : EntityKind} {name : String} {spec : FieldSpec}
    (hs : kind.field? name = some spec) {node : Node} {path : String} {sets : MemberSets} :
    Reader.spec ⟨node, kind, path, sets⟩ name = spec := by
  rw [Reader.spec, hs]
  rfl

/-- A field that is filled holds a value under every key over the declared members: what there was,
or the default. -/
theorem find?_fill {kind : EntityKind} {name text : String} {spec : FieldSpec}
    (hs : kind.field? name = some spec) (ht : spec.standard = some text)
    {convert : Conversion α} {value : α} (hv : convert spec.kind text = .ok value)
    {node : Node} {path : String} {sets : MemberSets} (t : Tensor α) {key : Key}
    (hk : key ∈ sets.product spec.dimensions) :
    (Reader.fill ⟨node, kind, path, sets⟩ convert name t).find? key =
      some ((t.find? key).getD value) := by
  unfold Reader.fill
  dsimp only
  rw [spec_eq_of_field? hs, ht, Option.map_some, hv]
  dsimp only
  rw [find?_insertAbsent, if_pos hk, Option.or_some]

/-- Without a default there is nothing to fill with. -/
theorem fill_eq_self {kind : EntityKind} {name : String} {spec : FieldSpec}
    (hs : kind.field? name = some spec) (ht : spec.standard = none) {convert : Conversion α}
    {node : Node} {path : String} {sets : MemberSets} (t : Tensor α) :
    Reader.fill ⟨node, kind, path, sets⟩ convert name t = t := by
  unfold Reader.fill
  dsimp only
  rw [spec_eq_of_field? hs, ht]
  rfl

/-- A cost of capital over declared members is the one that there was, or the discount rate of the
region. -/
theorem find?_fillRates {members : MemberSets} {rates costs : Tensor α} {key : Key}
    (hk : key ∈ members.product costs.dimensions) :
    (fillRates members rates costs).find? key =
      (costs.find? key).or (rates.find? (key.take 1)) := by
  refine (find?_foldl (f := fun key => rates.find? (key.take 1)) (fun t first k => ?_) _ costs
    key).trans (if_pos hk)
  split
  · next rate hr =>
    rw [find?_insertNew]
    by_cases hf : first = k
    · rw [if_pos hf, if_pos hf, ← hf, hr, Option.or_some]
    · rw [if_neg hf, if_neg hf]
  · next hr =>
    by_cases hf : first = k
    · rw [if_pos hf, ← hf, hr, Option.or_none]
    · rw [if_neg hf]

end

/-! ### What a configuration gives -/

/-- An entity has a leaf at a key of a field. -/
def Config.Node.Gives (entity : Node) (name : String) (key : Key) : Prop :=
  ∃ value leaf, entity.given? name = some value ∧ (key, leaf) ∈ value.leaves key.length

/-- What is found after a leaf was read was there before, or the leaf is at its key. -/
theorem find?_readLeaf {α : Type} {convert : Conversion α} {spec : FieldSpec} {path : String}
    {t : Tensor α} {leaf : Key × Node} {key : Key} {value : α}
    (h : (Reader.readLeaf convert spec path t leaf).value.find? key = some value) :
    leaf.1 = key ∨ t.find? key = some value := by
  unfold Reader.readLeaf at h
  split at h
  · rw [Noted.value_pure, Tensor.find?_insert] at h
    by_cases hk : leaf.1 = key
    · exact .inl hk
    · rw [if_neg hk] at h
      exact .inr h
  · exact .inr h

/-- Only what a configuration gives is read. -/
theorem gives_of_find?_tensor {α : Type} {reader : Reader} {convert : Conversion α}
    {name : String} {key : Key} {value : α}
    (hl : key.length = (reader.spec name).dimensions.length)
    (h : (reader.tensor convert name).value.find? key = some value) :
    reader.entity.Gives name key := by
  unfold Reader.tensor at h
  dsimp only at h
  cases hgiven : reader.entity.given? name with
  | none =>
    rw [hgiven] at h
    exact absurd h (by simp [Tensor.empty, Tensor.find?])
  | some node =>
    rw [hgiven] at h
    dsimp only at h
    rw [Noted.value_foldlM, ← hl] at h
    have hfold : ∀ (leaves : List (Key × Node)) (t : Tensor α),
        (leaves.foldl (fun t leaf => (Reader.readLeaf convert (reader.spec name)
          (reader.fieldPath name) t leaf).value) t).find? key = some value →
            (∃ leaf, (key, leaf) ∈ leaves) ∨ t.find? key = some value := by
      intro leaves
      induction leaves with
      | nil => exact fun t h => .inr h
      | cons first rest ih =>
        intro t h
        rcases ih _ h with ⟨leaf, hm⟩ | h
        · exact .inl ⟨leaf, List.mem_cons_of_mem first hm⟩
        · rcases find?_readLeaf h with rfl | h
          · exact .inl ⟨first.2, List.mem_cons_self⟩
          · exact .inr h
    rcases hfold _ _ h with ⟨leaf, hm⟩ | h
    · exact ⟨node, leaf, hgiven, hm⟩
    · exact absurd h (by simp [Tensor.empty, Tensor.find?])

/-! ### What a field may hold -/

section

variable {α : Type} {convert : Conversion α}

end

/-- A field of a kind of entity has a value under every key over the declared members, if it has a
default. -/
def FieldFilled {R : Type} (members : MemberSets) (kind : EntityKind)
    (field : String × FieldValues R) : Prop :=
  ∀ spec, kind.field? field.1 = some spec → spec.standard.isSome →
    ∀ key ∈ members.product spec.dimensions, key ∈ field.2.keys

section

variable {R α : Type} {kind : EntityKind} {name : String} {sets : MemberSets} (node : Node)
  (path : String)

/-- Filling a field fills it, if defaults of its kind can be read. -/
theorem fieldFilled_fill {convert : Conversion α} {values : Tensor α → FieldValues R}
    (hkeys : ∀ t, (values t).keys = t.entries.map (·.1)) {p : FieldKind → Bool}
    (hread : ∀ spec ∈ kind.indexedFields, p spec.kind → ∀ text, spec.standard = some text →
      ∃ x, convert spec.kind text = .ok x)
    (hn : (kind.field? name).any fun spec => !spec.dimensions.isEmpty && p spec.kind)
    (t : Tensor α) :
    FieldFilled sets kind (name, values (Reader.fill ⟨node, kind, path, sets⟩ convert name t)) := by
  intro spec hs hstandard key hk
  rw [hs, Option.any_some, Bool.and_eq_true] at hn
  obtain ⟨text, ht⟩ := Option.isSome_iff_exists.1 hstandard
  have hmem : spec ∈ kind.indexedFields :=
    List.mem_filter.2 ⟨List.mem_of_find?_eq_some hs, hn.1⟩
  obtain ⟨x, hx⟩ := hread spec hmem hn.2 text ht
  rw [hkeys, Tensor.mem_keys_iff, find?_fill hs ht hx t hk]
  rfl

/-- A field without a default need not be filled. -/
theorem fieldFilled_of_free (hn : (kind.field? name).all fun spec => spec.standard.isNone)
    (values : FieldValues R) : FieldFilled sets kind (name, values) := by
  intro spec hs hstandard
  rw [hs, Option.all_some, Option.isNone_iff_eq_none] at hn
  rw [hn] at hstandard
  cases hstandard

variable [Zero R] [One R] [LT R] [DecidableLT R] [Scalar R] (h : ReadsDefaults R)

include h

theorem fieldFilled_reals
    (hn : (kind.field? name).any fun spec => !spec.dimensions.isEmpty && spec.kind.isNumber)
    (t : Tensor R) : FieldFilled sets kind
      (name, .reals (Reader.fill ⟨node, kind, path, sets⟩ convertReal name t)) :=
  fieldFilled_fill node path (fun _ => rfl)
    (fun _ hs hk _ ht => (reads_standard h hs ht).1 hk) hn t

theorem fieldFilled_wholes
    (hn : (kind.field? name).any fun spec => !spec.dimensions.isEmpty && spec.kind == .integer)
    (t : Tensor Int) : FieldFilled (R := R) sets kind
      (name, .wholes (Reader.fill ⟨node, kind, path, sets⟩ (convertWhole R) name t)) :=
  fieldFilled_fill node path (p := (· == .integer)) (fun _ => rfl)
    (fun _ hs hk _ ht => (reads_standard h hs ht).2.1 (beq_iff_eq.1 hk)) hn t

theorem fieldFilled_flags
    (hn : (kind.field? name).any fun spec => !spec.dimensions.isEmpty && spec.kind == .flag)
    (t : Tensor Bool) : FieldFilled (R := R) sets kind
      (name, .flags (Reader.fill ⟨node, kind, path, sets⟩ convertFlag name t)) :=
  fieldFilled_fill node path (p := (· == .flag)) (fun _ => rfl)
    (fun _ hs hk _ ht => (reads_standard h hs ht).2.2.1 (beq_iff_eq.1 hk)) hn t

end

/-- What was read without a violation was read from a mapping. -/
theorem isMapping_of_parseMapping {α : Type} {kind : EntityKind} {sets : MemberSets}
    {node : Node} {path : String} {blank : α} {extra : List String} {parse : Reader → Reading α}
    (h : (parseMapping kind sets node path blank extra parse).notes = []) :
    node.isMapping = true := by
  refine Decidable.byContradiction fun hm => ?_
  rw [parseMapping, if_neg hm] at h
  cases h

section

variable {R : Type} [Zero R] [One R] [LT R] [DecidableLT R] [Scalar R] (h : ReadsDefaults R)
  {sets : MemberSets} {node : Node} {path : String}

include h

theorem filled_parseRegionGroup (hn : (parseRegionGroup (R := R) sets node path).notes = []) :
    ∀ field ∈ (parseRegionGroup (R := R) sets node path).value.fieldValues,
      FieldFilled sets .regionGroup field := by
  rw [parseRegionGroup, value_parseMapping, if_pos (isMapping_of_parseMapping hn)]
  simp only [RegionGroup.fieldValues, List.forall_mem_cons, Noted.value_bind, Noted.value_pure]
  refine ⟨?_, ?_, ?_, List.forall_mem_nil _⟩
  · exact fieldFilled_flags node path h (by decide) _
  all_goals exact fieldFilled_reals node path h (by decide) _

theorem filled_parseCommodity (hn : (parseCommodity (R := R) sets node path).notes = []) :
    ∀ field ∈ (parseCommodity (R := R) sets node path).value.fieldValues,
      FieldFilled sets .commodity field := by
  rw [parseCommodity, value_parseMapping, if_pos (isMapping_of_parseMapping hn)]
  simp only [Commodity.fieldValues, List.forall_mem_cons, Noted.value_bind, Noted.value_pure]
  refine ⟨?_, ?_, ?_, ?_, List.forall_mem_nil _⟩
  · exact fieldFilled_reals node path h (by decide) _
  · exact fieldFilled_reals node path h (by decide) _
  all_goals exact fieldFilled_flags node path h (by decide) _

theorem filled_parseImpact (hn : (parseImpact (R := R) sets node path).notes = []) :
    ∀ field ∈ (parseImpact (R := R) sets node path).value.fieldValues,
      FieldFilled sets .impact field := by
  rw [parseImpact, value_parseMapping, if_pos (isMapping_of_parseMapping hn)]
  simp only [Impact.fieldValues, List.forall_mem_cons, Noted.value_bind, Noted.value_pure]
  refine ⟨?_, ?_, ?_, ?_, ?_, List.forall_mem_nil _⟩
  all_goals exact fieldFilled_reals node path h (by decide) _

theorem filled_parseOperatingMode (hn : (parseOperatingMode (R := R) sets node path).notes = []) :
    ∀ field ∈ (parseOperatingMode (R := R) sets node path).value.fieldValues,
      FieldFilled sets .operatingMode field := by
  rw [parseOperatingMode, value_parseMapping, if_pos (isMapping_of_parseMapping hn)]
  simp only [OperatingMode.fieldValues, List.forall_mem_cons, Noted.value_bind, Noted.value_pure]
  refine ⟨?_, ?_, ?_, ?charging, ?discharging, ?_, List.forall_mem_nil _⟩
  case charging => exact fieldFilled_flags node path h (by decide) _
  case discharging => exact fieldFilled_flags node path h (by decide) _
  all_goals exact fieldFilled_reals node path h (by decide) _

theorem filled_parseTechnology (hn : (parseTechnology (R := R) sets node path).notes = []) :
    ∀ field ∈ (parseTechnology (R := R) sets node path).value.fieldValues,
      FieldFilled sets .technology field := by
  rw [parseTechnology, value_parseMapping, if_pos (isMapping_of_parseMapping hn)]
  simp only [Technology.fieldValues, List.forall_mem_cons, Noted.value_bind, Noted.value_pure]
  refine ⟨?_, ?_, ?life, ?_, ?_, ?_, ?_, ?_, ?_, ?_, ?_, ?_, ?_, ?_, ?_, ?_, ?_, ?_, ?_, ?_, ?_, ?_,
    ?margin, ?renewable, List.forall_mem_nil _⟩
  case life => exact fieldFilled_wholes node path h (by decide) _
  case margin => exact fieldFilled_flags node path h (by decide) _
  case renewable => exact fieldFilled_flags node path h (by decide) _
  all_goals exact fieldFilled_reals node path h (by decide) _

theorem filled_modes (hn : (parseTechnology (R := R) sets node path).notes = []) :
    ∀ mode ∈ (parseTechnology (R := R) sets node path).value.modes, ∀ field ∈ mode.fieldValues,
      FieldFilled sets .operatingMode field := by
  have hm := isMapping_of_parseMapping hn
  have hmodes : (parseModes (R := R) ⟨node, .technology, path, sets⟩).notes = [] := by
    rw [parseTechnology, parseMapping, if_pos hm] at hn
    simp only [Noted.notes_bind, List.append_eq_nil_iff, Noted.notes_pure, and_true] at hn
    repeat obtain ⟨-, hn⟩ := hn
    exact hn
  rw [parseTechnology, value_parseMapping, if_pos hm]
  intro mode (hmode : mode ∈ (parseModes _).value)
  obtain ⟨item, hi, rfl⟩ := Noted.mem_value_each.1 hmode
  simp only [parseModes, Noted.notes_bind, List.append_eq_nil_iff, Noted.notes_each,
    List.flatMap_eq_nil_iff] at hmodes
  exact filled_parseOperatingMode h (hmodes.2 item hi)

theorem filled_parseStorage (hn : (parseStorage (R := R) sets node path).notes = []) :
    ∀ field ∈ (parseStorage (R := R) sets node path).value.fieldValues,
      FieldFilled sets .storage field := by
  rw [parseStorage, value_parseMapping, if_pos (isMapping_of_parseMapping hn)]
  simp only [Storage.fieldValues, List.forall_mem_cons, Noted.value_bind, Noted.value_pure]
  refine ⟨?_, ?life, ?_, ?_, ?_, ?_, ?_, List.forall_mem_nil _⟩
  case life => exact fieldFilled_wholes node path h (by decide) _
  all_goals exact fieldFilled_reals node path h (by decide) _

theorem filled_parseTrade (hn : (parseTrade (R := R) sets node path).notes = []) :
    ∀ field ∈ (parseTrade (R := R) sets node path).value.fieldValues,
      FieldFilled sets .trade field := by
  rw [parseTrade, value_parseMapping, if_pos (isMapping_of_parseMapping hn)]
  simp only [Trade.fieldValues, List.forall_mem_cons, Noted.value_bind, Noted.value_pure]
  refine ⟨?routes, ?_, ?_, ?_, ?life, ?_, ?_, ?_, List.forall_mem_nil _⟩
  case routes => exact fieldFilled_flags node path h (by decide) _
  case life => exact fieldFilled_wholes node path h (by decide) _
  all_goals exact fieldFilled_reals node path h (by decide) _

end

/-! ### The fields of the model -/

/-- A fold that writes under the key of each entry, unless it notes something, leaves a value under
all of them. -/
theorem isSome_foldlM {α β : Type} {step : Tensor α → Key × β → Reading (Tensor α)}
    (hstep : ∀ t entry, (step t entry).notes = [] →
      ∃ a, (step t entry).value = t.insert entry.1 a)
    {entries : List (Key × β)} {t : Tensor α} (hn : (entries.foldlM step t).notes = [])
    {key : Key} (hk : key ∈ entries.map (·.1) ∨ (t.find? key).isSome) :
    ((entries.foldlM step t).value.find? key).isSome := by
  induction entries generalizing t with
  | nil => exact hk.resolve_left List.not_mem_nil
  | cons entry rest ih =>
    rw [List.foldlM_cons] at hn ⊢
    rw [Noted.notes_bind, List.append_eq_nil_iff] at hn
    rw [Noted.value_bind]
    apply ih hn.2
    obtain ⟨a, ha⟩ := hstep t entry hn.1
    rw [ha, Tensor.find?_insert]
    by_cases he : entry.1 = key
    · rw [if_pos he]
      exact .inr rfl
    · rw [if_neg he]
      refine hk.imp_left fun hk => ?_
      rw [List.map_cons, List.mem_cons] at hk
      exact hk.resolve_left (Ne.symm he)

/-- The methods of depreciation that were read without a violation are under the keys of their
names. -/
theorem isSome_parseDepreciation {reader : Reader} (hn : (parseDepreciation reader).notes = [])
    {key : Key} (hk : ((reader.filled convertText "depreciation_method").value.find? key).isSome) :
    ((parseDepreciation reader).value.find? key).isSome := by
  rw [parseDepreciation, Noted.notes_bind, List.append_eq_nil_iff] at hn
  rw [parseDepreciation, Noted.value_bind]
  refine isSome_foldlM ?_ hn.2 (.inl (Tensor.mem_keys_iff.2 hk))
  rintro t ⟨key, name⟩ h
  cases hm : DepreciationMethod.ofName? name with
  | none =>
    simp only [hm] at h
    cases h
  | some method =>
    simp only [hm]
    exact ⟨method, rfl⟩

section

variable {R : Type} [Zero R] [One R] [LT R] [DecidableLT R] [Scalar R] (h : ReadsDefaults R)
  {sets : MemberSets} {root : Node}

theorem isMapping_of_parseModelFields
    (hn : (parseModelFields (R := R) sets root).notes = []) : root.isMapping = true := by
  refine Decidable.byContradiction fun hm => ?_
  rw [parseModelFields, if_neg hm] at hn
  cases hn

include h

theorem filled_parseModelFields (hn : (parseModelFields (R := R) sets root).notes = []) :
    ∀ field ∈ (parseModelFields (R := R) sets root).value.fieldValues,
      FieldFilled sets .model field := by
  have hm := isMapping_of_parseModelFields hn
  rw [parseModelFields, if_pos hm] at hn ⊢
  simp only [ModelFields.fieldValues, List.forall_mem_cons, Noted.value_bind, Noted.value_pure]
  simp only [Noted.notes_bind, List.append_eq_nil_iff] at hn
  refine ⟨?method, ?_, ?cost, ?costOfStorage, ?_, ?_, List.forall_mem_nil _⟩
  case method =>
    intro spec hs hstandard key hk
    obtain rfl : FieldSpec.filled "depreciation_method" [.region] .text "sinking-fund" = spec :=
      Option.some.inj hs
    refine Tensor.mem_keys_iff.2 (isSome_parseDepreciation hn.2.2.2.1 ?_)
    show ((Reader.fill _ convertText _ _).find? key).isSome
    rw [find?_fill hs rfl rfl _ hk]
    rfl
  case cost => exact fieldFilled_of_free (by decide) _
  case costOfStorage => exact fieldFilled_of_free (by decide) _
  all_goals exact fieldFilled_reals root "" h (by decide) _

/-- A cost of capital is under every key over the declared members, and it is the discount rate of
the region unless the configuration gives one. -/
theorem find?_costs {name : String} {d : Dimension}
    (hs : EntityKind.model.field? name = some (.free name [.region, d] .fraction))
    {rates costs : Tensor R}
    (hr : rates = (Reader.filled ⟨root, .model, "", sets⟩ convertReal "discount_rate").value)
    (hc : costs = (Reader.filled ⟨root, .model, "", sets⟩ convertReal name).value)
    {key : Key} (hk : key ∈ sets.product [.region, d]) :
    ∃ rate, (fillRates sets rates costs).find? key = some rate ∧
      (¬ root.Gives name key → rates.find? (key.take 1) = some rate) := by
  have hdim : costs.dimensions = [.region, d] := by
    rw [hc]
    exact dimensions_filled convertReal .model rfl (congrArg (Option.map _) hs)
  have hregion : key.take 1 ∈ sets.product [.region] := by
    obtain ⟨hl, hz⟩ := MemberSets.mem_product.1 hk
    match key, hl with
    | [region, label], _ =>
      rw [List.zip_cons_cons, List.forall_mem_cons] at hz
      exact MemberSets.mem_product.2 ⟨rfl, List.forall_mem_singleton.2 hz.1⟩
  obtain ⟨standard, hstandard⟩ : ∃ x : R, convertReal .fraction "0.05" = .ok x :=
    convertReal_of_fraction h (by decide)
  obtain ⟨rate, hrate⟩ : ∃ rate, rates.find? (key.take 1) = some rate := by
    have hfield : EntityKind.model.field? "discount_rate" =
      some (.filled "discount_rate" [.region] .fraction "0.05") := rfl
    rw [hr]
    exact ⟨_, find?_fill hfield rfl hstandard _ hregion⟩
  rw [find?_fillRates (by rw [hdim]; exact hk), hrate]
  cases hcost : costs.find? key with
  | none => exact ⟨rate, rfl, fun _ => rfl⟩
  | some cost =>
    refine ⟨cost, rfl, fun hgives => absurd ?_ hgives⟩
    have hread : costs = (Reader.tensor ⟨root, .model, "", sets⟩ convertReal name).value :=
      hc.trans (fill_eq_self hs rfl _)
    rw [hread] at hcost
    refine gives_of_find?_tensor ?_ hcost
    rw [spec_eq_of_field? hs]
    exact (MemberSets.mem_product.1 hk).1

end

end EnergyPlan
