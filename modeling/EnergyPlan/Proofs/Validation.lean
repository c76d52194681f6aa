/-
# Entities are accepted exactly if they keep the rules

An entity is taken as it is exactly if nothing was noted while it was read and it keeps every
rule of its kind at every key. Otherwise what was noted is reported, and after it a violation
for each rule that fails and each place where it does, at the path of that place; a production
target on what is no output is reported once for its commodity, whatever the count of keys and
bounds.

Key definitions: `Fault`, `Technology.Fails`, `Commodity.Fails`, `DecidedBy`.
Key theorems: `mem_exceeding`, `mem_repeated`, `Technology.mem_faults`, `decided_of_faults`,
`validate_decides`.
-/
import EnergyPlan.Proofs.Composition

namespace EnergyPlan

open Text

/-! ### What can be wrong -/

/-- A rule that fails, and where it does. -/
inductive Fault where
  /-- A field is above its bound at a key. -/
  | exceeds (lower upper : String) (key : Key)
  /-- A demand profile is given for a region and a year without an annual demand. -/
  | noAnnualDemand (key : Key)
  /-- The shares of a demand profile do not sum to one for a region and a year. -/
  | profileSum (key : Key)
  /-- Several operating modes have an id that is not empty. -/
  | sharedMode (id : String)
  /-- A production target is on a commodity that is no output. -/
  | idleTarget (commodity : String)
  /-- A region group has a target and no region. -/
  | emptyGroup
  /-- A storage is balanced in two ways. -/
  | twoBalances
  /-- Nothing arrives on a route. -/
  | totalLoss (key : Key)
deriving DecidableEq

/-- The path at which a fault of an entity is reported. -/
def Fault.path (path : String) : Fault → String
  | exceeds lower _ key => keyPath path lower key
  | noAnnualDemand key => keyPath path "demand_profile" key
  | profileSum key => keyPath path "demand_profile" key
  | sharedMode id => childPath path ("operating_modes." ++ id)
  | idleTarget _ => childPath path "production_target"
  | emptyGroup => childPath path "include_in_region_group"
  | twoBalances => path
  | totalLoss key => keyPath path "trade_loss" key

section

variable {R : Type}

/-- A field with its name and a field that bounds it with its name. -/
abbrev BoundedField (R : Type) := (String × Tensor R) × (String × Tensor R)

/-- A field is above its bound at a key that has a value in both. -/
def Exceeds [LT R] (lower upper : Tensor R) (key : Key) : Prop :=
  ∃ low high, lower.find? key = some low ∧ upper.find? key = some high ∧ high < low

/-- One of some fields is above its bound. -/
def AnyExceeds [LT R] (fields : List (BoundedField R)) (lower upper : String) (key : Key) : Prop :=
  ∃ field ∈ fields, field.1.1 = lower ∧ field.2.1 = upper ∧ Exceeds field.1.2 field.2.2 key

/-- The fields of a technology that are bounded by others. -/
def Technology.boundedFields (technology : Technology R) : List (BoundedField R) :=
  [(("capacity_gross_min", technology.grossMin), ("capacity_gross_max", technology.grossMax)),
    (("capacity_additional_min", technology.additionalMin),
      ("capacity_additional_max", technology.additionalMax)),
    (("activity_annual_min", technology.activityAnnualMin),
      ("activity_annual_max", technology.activityAnnualMax)),
    (("activity_total_min", technology.activityTotalMin),
      ("activity_total_max", technology.activityTotalMax)),
    (("production_target_min", technology.productionTargetMin),
      ("production_target_max", technology.productionTargetMax)),
    (("residual_capacity", technology.residualCapacity),
      ("capacity_gross_max", technology.grossMax))]

/-- The fields of an impact that are bounded by others. -/
def Impact.boundedFields (impact : Impact R) : List (BoundedField R) :=
  [(("exogenous_annual", impact.exogenousAnnual), ("constraint_annual", impact.limitAnnual)),
    (("exogenous_total", impact.exogenousTotal), ("constraint_total", impact.limitTotal))]

/-- A technology has a production target on a commodity. -/
def Technology.Targets (technology : Technology R) (commodity : String) : Prop :=
  ∃ key share, (technology.productionTargetMin.find? key = some share ∨
    technology.productionTargetMax.find? key = some share) ∧ key[1]? = some commodity

/-- A demand profile has an entry for a region and a year. -/
def Commodity.Profiled (commodity : Commodity R) (key : Key) : Prop :=
  ∃ entry share, commodity.demandProfile.find? entry = some share ∧ entry.take 2 = key

/-- What is wrong with a technology: a field is above its bound, an id that is not empty is that of
several modes, or a target is on a commodity that no mode puts out at a positive ratio. -/
def Technology.Fails [Zero R] [LT R] (technology : Technology R) : Fault → Prop
  | .exceeds lower upper key => AnyExceeds technology.boundedFields lower upper key
  | .sharedMode id => id ≠ "" ∧ 1 < (technology.modes.map (·.id)).count id
  | .idleTarget commodity => technology.Targets commodity ∧
      ¬ ∃ mode ∈ technology.modes, ∃ key ratio, mode.outputRatio.find? key = some ratio ∧
        key[1]? = some commodity ∧ 0 < ratio
  | _ => False

/-- What is wrong with a commodity: for a region and a year with a demand profile there is no
annual demand, or the sum of the shares is further from one than the tolerance. -/
def Commodity.Fails [Zero R] [One R] [Add R] [Sub R] [Neg R] [LT R] [DecidableLT R]
    (tolerance : R) (commodity : Commodity R) : Fault → Prop
  | .noAnnualDemand key => commodity.Profiled key ∧ commodity.demandAnnual.find? key = none
  | .profileSum key => commodity.Profiled key ∧
      tolerance < magnitude (commodity.profileTotal key - 1)
  | _ => False

/-- What is wrong with an impact: what happens outside the model is above a limit. -/
def Impact.Fails [LT R] (impact : Impact R) : Fault → Prop
  | .exceeds lower upper key => AnyExceeds impact.boundedFields lower upper key
  | _ => False

/-- What is wrong with a trade: a loss that is not below one. -/
def Trade.Fails [One R] [LE R] (trade : Trade R) : Fault → Prop
  | .totalLoss key => ∃ loss, trade.loss.find? key = some loss ∧ 1 ≤ loss
  | _ => False

/-- What is wrong with a storage: both balances are set. -/
def Storage.Fails (storage : Storage R) : Fault → Prop
  | .twoBalances => storage.balanceDaily = true ∧ storage.balanceAnnual = true
  | _ => False

/-- What is wrong with a region group: it has a margin or a target, and no region. -/
def RegionGroup.Fails (group : RegionGroup R) : Fault → Prop
  | .emptyGroup => ((∃ key margin, group.reserveMargin.find? key = some margin) ∨
      ∃ key target, group.renewableTarget.find? key = some target) ∧
        ¬ ∃ key, group.includes.find? key = some true
  | _ => False

end

/-! ### Lists -/

/-- A list holds what it holds without the repetitions. -/
theorem mem_eraseReps {α : Type} [BEq α] [LawfulBEq α] {a : α} {as : List α} :
    a ∈ as.eraseReps ↔ a ∈ as := by
  have hloop : ∀ (rest : List α) (last : α) (kept : List α),
      a ∈ List.eraseRepsBy.loop (fun x y => x == y) last rest kept ↔
        a ∈ kept ∨ a = last ∨ a ∈ rest := by
    intro rest
    induction rest with
    | nil => simp [List.eraseRepsBy.loop, or_comm]
    | cons b rest ih =>
      intro last kept
      rw [List.eraseRepsBy.loop]
      cases h : last == b with
      | true =>
        obtain rfl := beq_iff_eq.1 h
        simp [ih]
      | false => simp [ih, or_assoc, or_left_comm]
  cases as with
  | nil => rfl
  | cons b rest =>
    show a ∈ List.eraseRepsBy.loop _ b rest [] ↔ _
    rw [hloop, List.mem_cons, or_iff_right List.not_mem_nil]

/-- The texts that are repeated are those that stand in a list more than once, and those that were
seen before. -/
theorem mem_repeated {s : String} {seen texts : List String} :
    s ∈ repeated seen texts ↔ s ∈ seen ∧ s ∈ texts ∨ 1 < texts.count s := by
  induction texts generalizing seen with
  | nil => simp [repeated]
  | cons t rest ih =>
    unfold repeated
    by_cases hst : s = t
    · subst hst
      rw [List.count_cons_self, Nat.lt_add_left_iff_pos, List.count_pos_iff]
      by_cases hs : s ∈ seen
      · simp [hs]
      · rw [if_neg hs, ih]
        simp only [hs, false_and, false_or, List.mem_cons, true_or, true_and, or_iff_left_iff_imp]
        intro hcount
        exact List.count_pos_iff.1 (Nat.lt_trans Nat.zero_lt_one hcount)
    · rw [List.count_cons_of_ne (Ne.symm hst), List.mem_cons, or_iff_right hst]
      by_cases ht : t ∈ seen
      · rw [if_pos ht, List.mem_cons, or_iff_right hst, ih]
      · rw [if_neg ht, ih, List.mem_cons, or_iff_right hst]

/-- A tensor is not empty exactly if it has a value under some key. -/
theorem isEmpty_eq_false_iff {α : Type} {t : Tensor α} :
    t.isEmpty = false ↔ ∃ key value, t.find? key = some value := by
  rw [Tensor.isEmpty, ← Std.ExtTreeMap.isEmpty_toList, List.isEmpty_eq_false_iff_exists_mem]
  simp only [Prod.exists]
  exact exists_congr fun _ => exists_congr fun _ => Tensor.mem_entries_iff

/-! ### The faults that the rules find -/

section

variable {R : Type}

/-- The keys at which a field is above its bound. -/
def exceeding [LT R] [DecidableLT R] (field : BoundedField R) : List Fault :=
  field.1.2.entries.filterMap fun (key, low) =>
    (field.2.2.find? key).bind fun high =>
      if high < low then some (.exceeds field.1.1 field.2.1 key) else none

theorem mem_exceeding [LT R] [DecidableLT R] {field : BoundedField R} {fault : Fault} :
    fault ∈ exceeding field ↔ ∃ key, fault = .exceeds field.1.1 field.2.1 key ∧
      Exceeds field.1.2 field.2.2 key := by
  simp only [exceeding, List.mem_filterMap, Prod.exists, Tensor.mem_entries_iff,
    Option.bind_eq_some_iff, Option.ite_none_right_eq_some, Option.some.injEq, Exceeds]
  constructor
  · rintro ⟨key, low, hlow, high, hhigh, hlt, rfl⟩
    exact ⟨key, rfl, low, high, hlow, hhigh, hlt⟩
  · rintro ⟨key, rfl, low, high, hlow, hhigh, hlt⟩
    exact ⟨key, low, hlow, high, hhigh, hlt, rfl⟩

theorem exceeds_mem_flatMap [LT R] [DecidableLT R] {fields : List (BoundedField R)}
    {lower upper : String} {key : Key} :
    .exceeds lower upper key ∈ fields.flatMap exceeding ↔ AnyExceeds fields lower upper key := by
  simp only [List.mem_flatMap, mem_exceeding, AnyExceeds, Fault.exceeds.injEq]
  constructor
  · rintro ⟨field, hm, _, ⟨rfl, rfl, rfl⟩, h⟩
    exact ⟨field, hm, rfl, rfl, h⟩
  · rintro ⟨field, hm, rfl, rfl, h⟩
    exact ⟨field, hm, key, ⟨rfl, rfl, rfl⟩, h⟩

/-- Bounded fields have no faults of another sort. -/
theorem not_mem_flatMap [LT R] [DecidableLT R] {fields : List (BoundedField R)} {fault : Fault}
    (h : ∀ lower upper key, fault ≠ .exceeds lower upper key) :
    fault ∉ fields.flatMap exceeding := by
  intro hm
  obtain ⟨field, -, hm⟩ := List.mem_flatMap.1 hm
  obtain ⟨key, rfl, -⟩ := mem_exceeding.1 hm
  exact h _ _ key rfl

/-- A bound is reported at the keys at which it is exceeded. -/
theorem path_ordered [LT R] [DecidableLT R] [Scalar R] (path : String) (field : BoundedField R) :
    (ordered path field.1 field.2).map (·.path) = (exceeding field).map (Fault.path path) := by
  rw [ordered, exceeding, List.map_filterMap, List.map_filterMap]
  congr 1
  funext ⟨key, low⟩
  dsimp only
  cases field.2.2.find? key with
  | none => rfl
  | some high => by_cases h : high < low <;> simp [h, Fault.path]

/-- The faults of an impact, in the order in which they are reported. -/
def Impact.faults [LT R] [DecidableLT R] (impact : Impact R) : List Fault :=
  impact.boundedFields.flatMap exceeding

/-- The faults of a technology, in the order in which they are reported. -/
def Technology.faults [Zero R] [LT R] [DecidableLT R] (technology : Technology R) : List Fault :=
  technology.boundedFields.flatMap exceeding ++
    ((repeated [] (technology.modes.map (·.id))).filter (!·.isEmpty)).map .sharedMode ++
      technology.idleTargets.map .idleTarget

/-- The faults of a commodity, in the order in which they are reported. -/
def Commodity.faults [Zero R] [One R] [Add R] [Sub R] [Neg R] [LT R] [DecidableLT R]
    (tolerance : R) (commodity : Commodity R) : List Fault :=
  commodity.profiled.flatMap fun key =>
    (if (commodity.demandAnnual.find? key).isNone then [.noAnnualDemand key] else []) ++
      if tolerance < magnitude (commodity.profileTotal key - 1) then [.profileSum key] else []

/-- The faults of a trade, in the order in which they are reported. -/
def Trade.faults [One R] [LE R] [DecidableLE R] (trade : Trade R) : List Fault :=
  trade.loss.entries.filterMap fun (key, loss) =>
    if 1 ≤ loss then some (.totalLoss key) else none

/-- The fault of a storage, if it has one. -/
def Storage.faults (storage : Storage R) : List Fault :=
  if storage.balanceDaily && storage.balanceAnnual then [.twoBalances] else []

/-- The fault of a region group, if it has one. -/
def RegionGroup.faults (group : RegionGroup R) : List Fault :=
  if !group.includes.entries.any (·.2) &&
    (!group.reserveMargin.isEmpty || !group.renewableTarget.isEmpty) then [.emptyGroup] else []

theorem Impact.mem_faults [LT R] [DecidableLT R] {impact : Impact R} {fault : Fault} :
    fault ∈ impact.faults ↔ impact.Fails fault := by
  cases fault with
  | exceeds => exact exceeds_mem_flatMap
  | _ => exact iff_of_false (not_mem_flatMap (by simp)) id

section

variable [Zero R] [LT R] [DecidableLT R] {technology : Technology R}

theorem Technology.mem_idleTargets {commodity : String} :
    commodity ∈ technology.idleTargets ↔ technology.Targets commodity ∧
      ¬ ∃ mode ∈ technology.modes, ∃ key ratio, mode.outputRatio.find? key = some ratio ∧
        key[1]? = some commodity ∧ 0 < ratio := by
  rw [idleTargets, mem_foldl_appendNew, or_iff_left List.not_mem_nil, List.mem_filter,
    Bool.not_eq_true', ← Bool.not_eq_true, EnergyModel.produces_iff]
  refine and_congr_left fun _ => ?_
  simp only [List.mem_filterMap, List.mem_append, Prod.exists, Tensor.mem_entries_iff, Targets]

/-- A commodity whose target is idle is found once. -/
theorem Technology.nodup_idleTargets : technology.idleTargets.Nodup :=
  List.foldlRecOn (motive := List.Nodup) _ appendNew List.nodup_nil
    fun _ h _ _ => nodup_appendNew h

theorem Technology.mem_faults {fault : Fault} :
    fault ∈ technology.faults ↔ technology.Fails fault := by
  rw [faults, List.mem_append, List.mem_append]
  cases fault with
  | exceeds =>
    rw [exceeds_mem_flatMap]
    simp [Fails]
  | _ =>
    rw [or_assoc, or_iff_right (not_mem_flatMap (by simp))]
    simp [Fails, mem_repeated, mem_idleTargets, and_comm]

/-- An idle target is found once for its commodity. -/
theorem Technology.count_idleTarget (commodity : String) :
    technology.faults.count (.idleTarget commodity) ≤ 1 := by
  have hbounds :
      (technology.boundedFields.flatMap exceeding).count (.idleTarget commodity) = 0 :=
    List.count_eq_zero.2 (not_mem_flatMap (by simp))
  have hmodes : (((repeated [] (technology.modes.map (·.id))).filter (!·.isEmpty)).map
      Fault.sharedMode).count (.idleTarget commodity) = 0 := by
    rw [List.count_eq_zero, List.mem_map]
    rintro ⟨_, -, h⟩
    cases h
  have htargets : (technology.idleTargets.map Fault.idleTarget).Nodup :=
    List.Pairwise.map Fault.idleTarget (fun _ _ hne h => hne (Fault.idleTarget.inj h))
      nodup_idleTargets
  rw [faults, List.count_append, List.count_append, hbounds, hmodes, Nat.add_zero, Nat.zero_add]
  exact List.nodup_iff_count.1 htargets _

end

theorem Commodity.mem_profiled {commodity : Commodity R} {key : Key} :
    key ∈ commodity.profiled ↔ commodity.Profiled key := by
  simp only [profiled, mem_eraseReps, List.mem_map, Prod.exists, Tensor.mem_entries_iff, Profiled]

theorem Commodity.mem_faults [Zero R] [One R] [Add R] [Sub R] [Neg R] [LT R] [DecidableLT R]
    {tolerance : R} {commodity : Commodity R} {fault : Fault} :
    fault ∈ commodity.faults tolerance ↔ commodity.Fails tolerance fault := by
  simp only [faults, List.mem_flatMap, mem_profiled, List.mem_append, List.mem_ite_nil_right,
    List.mem_singleton, Option.isNone_iff_eq_none]
  cases fault <;> simp [Fails]

theorem Trade.mem_faults [One R] [LE R] [DecidableLE R] {trade : Trade R} {fault : Fault} :
    fault ∈ trade.faults ↔ trade.Fails fault := by
  simp only [faults, List.mem_filterMap, Prod.exists, Tensor.mem_entries_iff,
    Option.ite_none_right_eq_some, Option.some.injEq]
  cases fault with
  | totalLoss key =>
    simp only [Fails, Fault.totalLoss.injEq]
    constructor
    · rintro ⟨_, loss, hm, hloss, rfl⟩
      exact ⟨loss, hm, hloss⟩
    · rintro ⟨loss, hm, hloss⟩
      exact ⟨key, loss, hm, hloss, rfl⟩
  | _ => simp [Fails]

theorem Storage.mem_faults {storage : Storage R} {fault : Fault} :
    fault ∈ storage.faults ↔ storage.Fails fault := by
  rw [faults]
  cases fault <;> simp [Fails]

theorem RegionGroup.mem_faults {group : RegionGroup R} {fault : Fault} :
    fault ∈ group.faults ↔ group.Fails fault := by
  rw [faults]
  cases fault with
  | emptyGroup => simp [Fails, isEmpty_eq_false_iff, Tensor.mem_entries_iff, and_comm]
  | _ => simp [Fails]

/-! ### Where they are reported -/

section

variable [Scalar R]

theorem Impact.path_check [LT R] [DecidableLT R] (impact : Impact R) (path : String) :
    (impact.check path).map (·.path) = impact.faults.map (Fault.path path) := by
  simp only [check, faults, boundedFields, List.flatMap_cons, List.flatMap_nil, List.append_nil,
    List.map_append, ← path_ordered]

theorem Technology.path_check [Zero R] [LT R] [DecidableLT R] (technology : Technology R)
    (path : String) :
    (technology.check path).map (·.path) = technology.faults.map (Fault.path path) := by
  simp only [check, faults, boundedFields, List.flatMap_cons, List.flatMap_nil, List.append_nil,
    List.map_append, ← path_ordered, List.map_map, List.append_assoc]
  rfl

theorem Commodity.path_check [Zero R] [One R] [Add R] [Sub R] [Neg R] [LT R] [DecidableLT R]
    (tolerance : R) (commodity : Commodity R) (path : String) :
    (commodity.check tolerance path).map (·.path) =
      (commodity.faults tolerance).map (Fault.path path) := by
  rw [check, faults, List.map_flatMap, List.map_flatMap]
  congr 1
  funext key
  simp only [List.map_append, apply_ite (List.map _), List.map_cons, List.map_nil, Fault.path]

theorem Trade.path_check [One R] [LE R] [DecidableLE R] (trade : Trade R) (path : String) :
    (trade.check path).map (·.path) = trade.faults.map (Fault.path path) := by
  rw [check, faults, List.map_filterMap, List.map_filterMap]
  congr 1
  funext ⟨key, loss⟩
  by_cases h : 1 ≤ loss <;> simp [h, Fault.path]

omit [Scalar R] in
theorem Storage.path_check (storage : Storage R) (path : String) :
    (storage.check path).map (·.path) = storage.faults.map (Fault.path path) := by
  rw [check, faults, apply_ite (List.map _), apply_ite (List.map _)]
  rfl

omit [Scalar R] in
theorem RegionGroup.path_check (group : RegionGroup R) (path : String) :
    (group.check path).map (·.path) = group.faults.map (Fault.path path) := by
  rw [check, faults, apply_ite (List.map _), apply_ite (List.map _)]
  rfl

end

end

/-! ### What is accepted -/

/-- The rules of a kind decide about its entities: with what was noted before, an entity is
accepted as it is exactly if nothing was noted and nothing is wrong with it. What is reported
otherwise is what was noted, and after it a violation for each thing that is wrong, at its place;
an idle target is reported once for its commodity. -/
def DecidedBy {α : Type} (check : α → String → List Violation) (fails : α → Fault → Prop) : Prop :=
  ∀ (entity : α) (path : String) (notes : List Violation),
    (∀ result, validate check path ⟨entity, notes⟩ = .ok result ↔
      result = entity ∧ notes = [] ∧ ∀ fault, ¬ fails entity fault) ∧
    ∀ violations, validate check path ⟨entity, notes⟩ = .error violations →
      ∃ (found : List Violation) (faults : List Fault), violations = notes ++ found ∧
        found.map (·.path) = faults.map (Fault.path path) ∧
          (∀ fault, fault ∈ faults ↔ fails entity fault) ∧
            ∀ commodity, faults.count (.idleTarget commodity) ≤ 1

/-- Rules decide about the entities of a kind if they report the faults of a list that holds what is
wrong. -/
theorem decided_of_faults {α : Type} {check : α → String → List Violation}
    {fails : α → Fault → Prop} (faults : α → List Fault)
    (hpath : ∀ entity path,
      (check entity path).map (·.path) = (faults entity).map (Fault.path path))
    (hfails : ∀ entity fault, fault ∈ faults entity ↔ fails entity fault)
    (honce : ∀ entity commodity, (faults entity).count (.idleTarget commodity) ≤ 1) :
    DecidedBy check fails := by
  intro entity path notes
  have hchecked : validate check path ⟨entity, notes⟩ =
      Noted.checked ⟨entity, notes ++ check entity path⟩ := rfl
  have hnone : check entity path = [] ↔ ∀ fault, ¬ fails entity fault := by
    rw [← List.map_eq_nil_iff, hpath, List.map_eq_nil_iff, List.eq_nil_iff_forall_not_mem]
    exact forall_congr' fun fault => not_congr (hfails entity fault)
  constructor
  · intro result
    rw [hchecked, Noted.checked_eq_ok_iff, List.append_eq_nil_iff, hnone, and_comm, eq_comm]
  · intro violations h
    rw [hchecked, Noted.checked_eq_error_iff] at h
    exact ⟨check entity path, faults entity, h.2.symm, hpath entity path, hfails entity,
      honce entity⟩

theorem decided_of_no_targets {α : Type} {check : α → String → List Violation}
    {fails : α → Fault → Prop} (faults : α → List Fault)
    (hpath : ∀ entity path,
      (check entity path).map (·.path) = (faults entity).map (Fault.path path))
    (hfails : ∀ entity fault, fault ∈ faults entity ↔ fails entity fault)
    (htargets : ∀ entity commodity, ¬ fails entity (.idleTarget commodity)) :
    DecidedBy check fails := by
  refine decided_of_faults faults hpath hfails fun entity commodity => ?_
  rw [List.count_eq_zero.2 (mt (hfails entity _).1 (htargets entity commodity))]
  exact Nat.zero_le 1

section

variable {R : Type} [Zero R] [One R] [Add R] [Sub R] [Neg R] [LT R] [DecidableLT R] [LE R]
  [DecidableLE R] [Scalar R]

/-- **The rules of each kind of entity decide about its entities**, whatever they were read from and
whatever was noted before: nothing is wrong with what is accepted, and everything that is wrong
with what is not is reported, at the place where it is. Regions and the fields of a model have no
rules. -/
theorem validate_decides (tolerance : R) :
    DecidedBy (Technology.check (R := R)) Technology.Fails ∧
      DecidedBy (Commodity.check tolerance) (Commodity.Fails tolerance) ∧
      DecidedBy (Impact.check (R := R)) Impact.Fails ∧
      DecidedBy (Trade.check (R := R)) Trade.Fails ∧
      DecidedBy (Storage.check (R := R)) Storage.Fails ∧
      DecidedBy (RegionGroup.check (R := R)) RegionGroup.Fails ∧
      DecidedBy noRules (fun (_ : Region) _ => False) ∧
      DecidedBy noRules (fun (_ : ModelFields R) _ => False) := by
  have hfree {α : Type} : DecidedBy noRules (fun (_ : α) _ => False) :=
    decided_of_no_targets (fun _ => []) (fun _ _ => rfl)
      (fun _ _ => iff_of_false List.not_mem_nil id) fun _ _ => id
  refine ⟨?technology, ?commodity, ?impact, ?trade, ?storage, ?group, hfree, hfree⟩
  case technology =>
    exact decided_of_faults Technology.faults Technology.path_check
      (fun _ _ => Technology.mem_faults) fun _ => Technology.count_idleTarget
  case commodity =>
    exact decided_of_no_targets (Commodity.faults tolerance) (Commodity.path_check tolerance)
      (fun _ _ => Commodity.mem_faults) fun _ _ => id
  case impact =>
    exact decided_of_no_targets Impact.faults Impact.path_check (fun _ _ => Impact.mem_faults)
      fun _ _ => id
  case trade =>
    exact decided_of_no_targets Trade.faults Trade.path_check (fun _ _ => Trade.mem_faults)
      fun _ _ => id
  case storage =>
    exact decided_of_no_targets Storage.faults Storage.path_check (fun _ _ => Storage.mem_faults)
      fun _ _ => id
  case group =>
    exact decided_of_no_targets RegionGroup.faults RegionGroup.path_check
      (fun _ _ => RegionGroup.mem_faults) fun _ _ => id

end

end EnergyPlan
