/-
# The part of a model over its sets

A field with a default is asked only under keys over the sets that the model is compiled
over. To say so, `model.within sets` keeps of each such field, and of the costs of capital,
only what is under these keys: asking there finds the same, and elsewhere nothing. What
compiles to the same problem in this part as in the whole does not go by anything else, nor
by what is taken where nothing is found.

Key definitions: `Tensor.within`, `EnergyModel.within`, `Context.within`, `Context.Inside`.
Key theorems: `lookup_within`, `perTechnology_within`, `shaped_within`.
-/
import EnergyPlan.Proofs.Members
import EnergyPlan.Program.Compile

namespace EnergyPlan

open Noted

/-! ### Keys over the sets -/

namespace IndexSets

variable {sets : IndexSets}

@[simp] theorem tuple_nil : sets.Tuple [] [] := ⟨rfl, List.forall_mem_nil _⟩

@[simp] theorem tuple_cons {d : Dimension} {dimensions : List Dimension} {label : String}
    {key : Key} : sets.Tuple (d :: dimensions) (label :: key) ↔
      label ∈ sets.members d ∧ sets.Tuple dimensions key := by
  rw [Tuple, Tuple, List.zip_cons_cons, List.forall_mem_cons, List.length_cons, List.length_cons,
    Nat.succ_inj]
  exact and_left_comm

variable {region year : String}

theorem tuple_region (hr : region ∈ sets.regions) : sets.Tuple [.region] [region] :=
  tuple_cons.2 ⟨hr, tuple_nil⟩

theorem tuple_annual (hr : region ∈ sets.regions) (hy : year ∈ sets.years) :
    sets.Tuple [.region, .year] [region, year] :=
  tuple_cons.2 ⟨hr, tuple_cons.2 ⟨hy, tuple_nil⟩⟩

theorem tuple_slice (hr : region ∈ sets.regions) (hy : year ∈ sets.years) {timeslice : String}
    (hl : timeslice ∈ sets.timeslices) :
    sets.Tuple [.region, .year, .timeslice] [region, year, timeslice] :=
  tuple_cons.2 ⟨hr, tuple_cons.2 ⟨hy, tuple_cons.2 ⟨hl, tuple_nil⟩⟩⟩

variable {destination : String} (hr : region ∈ sets.regions)
  (hd : destination ∈ sets.regions)

include hr hd

theorem tuple_route : sets.Tuple [.region, .linkedRegion] [region, destination] :=
  tuple_cons.2 ⟨hr, tuple_cons.2 ⟨hd, tuple_nil⟩⟩

theorem tuple_routeYear (hy : year ∈ sets.years) :
    sets.Tuple [.region, .linkedRegion, .year] [region, destination, year] :=
  tuple_cons.2 ⟨hr, tuple_cons.2 ⟨hd, tuple_cons.2 ⟨hy, tuple_nil⟩⟩⟩

end IndexSets

/-! ### What is under such keys -/

namespace Tensor

variable {α : Type} (sets : IndexSets)

/-- The values of a tensor under keys over the sets. -/
def within (t : Tensor α) : Tensor α :=
  { t with values := t.values.filter fun key _ => decide (sets.Tuple t.dimensions key) }

theorem find?_within (t : Tensor α) (key : Key) : (t.within sets).find? key =
    if sets.Tuple t.dimensions key then t.find? key else none := by
  rw [within, find?, Std.ExtTreeMap.getElem?_filter']
  by_cases h : sets.Tuple t.dimensions key
  · rw [if_pos h]
    cases hf : t.values[key]? <;> simp [find?, hf, h]
  · rw [if_neg h]
    simp [h]

/-- Under a key over the sets the same is found, whatever would be taken otherwise. -/
theorem lookup_within {t : Tensor α} {dimensions : List Dimension}
    (hd : t.dimensions = dimensions) {key : Key} (hk : sets.Tuple dimensions key)
    (fallback : α) : (t.within sets).lookup key fallback = t.lookup key fallback := by
  rw [lookup, find?_within, if_pos (hd ▸ hk)]
  rfl

end Tensor

variable {R : Type} (sets : IndexSets)

/-- The part of a region group over the sets. -/
def RegionGroup.within (group : RegionGroup R) : RegionGroup R :=
  { group with includes := group.includes.within sets }

/-- The part of a commodity over the sets. -/
def Commodity.within (commodity : Commodity R) : Commodity R :=
  { commodity with
    inRenewableTarget := commodity.inRenewableTarget.within sets
    inReserveMargin := commodity.inReserveMargin.within sets }

/-- The part of an operating mode over the sets. -/
def OperatingMode.within (mode : OperatingMode R) : OperatingMode R :=
  { mode with opexVariable := mode.opexVariable.within sets }

/-- The part of a technology and of its modes over the sets. -/
def Technology.within (technology : Technology R) : Technology R :=
  { technology with
    operatingLife := technology.operatingLife.within sets
    capex := technology.capex.within sets
    opexFixed := technology.opexFixed.within sets
    residualCapacity := technology.residualCapacity.within sets
    capacityActivityRatio := technology.capacityActivityRatio.within sets
    availabilityFactor := technology.availabilityFactor.within sets
    capacityFactor := technology.capacityFactor.within sets
    inReserveMargin := technology.inReserveMargin.within sets
    inRenewableTarget := technology.inRenewableTarget.within sets
    modes := technology.modes.map (·.within sets) }

/-- The part of a storage over the sets. -/
def Storage.within (storage : Storage R) : Storage R :=
  { storage with
    minimumCharge := storage.minimumCharge.within sets
    initialLevel := storage.initialLevel.within sets
    residualCapacity := storage.residualCapacity.within sets }

/-- The part of a trade over the sets. -/
def Trade.within (trade : Trade R) : Trade R :=
  { trade with
    loss := trade.loss.within sets
    residualCapacity := trade.residualCapacity.within sets
    capex := trade.capex.within sets
    operatingLife := trade.operatingLife.within sets
    capacityActivityRatio := trade.capacityActivityRatio.within sets }

/-- The part of a model over the sets: of the fields with defaults, and of the costs of capital, what
is under keys over the sets; of all else, everything. -/
def EnergyModel.within (model : EnergyModel R) : EnergyModel R :=
  { model with
    depreciation := model.depreciation.within sets
    discountRate := model.discountRate.within sets
    costOfCapital := model.costOfCapital.within sets
    costOfCapitalStorage := model.costOfCapitalStorage.within sets
    reserveMargin := model.reserveMargin.within sets
    regionGroups := model.regionGroups.map (·.within sets)
    commodities := model.commodities.map (·.within sets)
    technologies := model.technologies.map (·.within sets)
    storage := model.storage.map (·.within sets)
    trade := model.trade.map (·.within sets) }

/-! ### Models inside the sets -/

/-- A model is inside sets if its entities are in them, its tensors are over the dimensions of their
fields, and a year has only years of the sets before it; and if the targets that are gone through
entry by entry are over the sets. -/
structure EnergyModel.Inside (model : EnergyModel R) (sets : IndexSets) : Prop where
  shaped : model.Shaped
  technologies : ∀ technology ∈ model.technologies, technology.id ∈ sets.technologies
  storage : ∀ storage ∈ model.storage, storage.id ∈ sets.storages
  targets : ∀ region year share, ([region, year], share) ∈ model.renewableTarget.entries →
    region ∈ sets.regions ∧ year ∈ sets.years
  groupTargets : ∀ group ∈ model.regionGroups, ∀ year share,
    ([year], share) ∈ group.renewableTarget.entries → year ∈ sets.years
  earlier : ∀ year previous, model.time.previousYear year = some previous →
    yearLabel previous ∈ sets.years

section

variable {sets}

theorem forall_mem_map_congr {α β : Type} {w : α → β} {p : β → Prop} {q : α → Prop}
    (h : ∀ a, p (w a) ↔ q a) {as : List α} : (∀ b ∈ as.map w, p b) ↔ ∀ a ∈ as, q a :=
  List.forall_mem_map.trans (forall₂_congr fun a _ => h a)

theorem RegionGroup.shaped_within {group : RegionGroup R} :
    (group.within sets).Shaped ↔ group.Shaped := by
  constructor <;> rintro ⟨⟩ <;> constructor <;> assumption

theorem Commodity.shaped_within {commodity : Commodity R} :
    (commodity.within sets).Shaped ↔ commodity.Shaped := by
  constructor <;> rintro ⟨⟩ <;> constructor <;> assumption

theorem OperatingMode.shaped_within {mode : OperatingMode R} :
    (mode.within sets).Shaped ↔ mode.Shaped := by
  constructor <;> rintro ⟨⟩ <;> constructor <;> assumption

theorem Technology.shaped_within {technology : Technology R} :
    (technology.within sets).Shaped ↔ technology.Shaped := by
  have hmodes : (∀ mode ∈ (technology.within sets).modes, mode.Shaped) ↔
      ∀ mode ∈ technology.modes, mode.Shaped :=
    forall_mem_map_congr (fun _ => OperatingMode.shaped_within)
  constructor <;> intro h <;> have hm := h.modes <;> rcases h with ⟨⟩ <;> constructor
  case mp.modes => exact hmodes.1 hm
  case mpr.modes => exact hmodes.2 hm
  all_goals assumption

theorem Storage.shaped_within {storage : Storage R} :
    (storage.within sets).Shaped ↔ storage.Shaped := by
  constructor <;> rintro ⟨⟩ <;> constructor <;> assumption

theorem Trade.shaped_within {trade : Trade R} : (trade.within sets).Shaped ↔ trade.Shaped := by
  constructor <;> rintro ⟨⟩ <;> constructor <;> assumption

theorem EnergyModel.shaped_within {model : EnergyModel R} :
    (model.within sets).Shaped ↔ model.Shaped := by
  have hfields : (model.within sets).toModelFields.Shaped ↔ model.toModelFields.Shaped := by
    constructor <;> rintro ⟨⟩ <;> constructor <;> assumption
  have hgroups : (∀ group ∈ (model.within sets).regionGroups, group.Shaped) ↔
      ∀ group ∈ model.regionGroups, group.Shaped :=
    forall_mem_map_congr (fun _ => RegionGroup.shaped_within)
  have hcommodities : (∀ commodity ∈ (model.within sets).commodities, commodity.Shaped) ↔
      ∀ commodity ∈ model.commodities, commodity.Shaped :=
    forall_mem_map_congr (fun _ => Commodity.shaped_within)
  have htechnologies : (∀ technology ∈ (model.within sets).technologies, technology.Shaped) ↔
      ∀ technology ∈ model.technologies, technology.Shaped :=
    forall_mem_map_congr (fun _ => Technology.shaped_within)
  have hstorage : (∀ storage ∈ (model.within sets).storage, storage.Shaped) ↔
      ∀ storage ∈ model.storage, storage.Shaped :=
    forall_mem_map_congr (fun _ => Storage.shaped_within)
  have htrade : (∀ trade ∈ (model.within sets).trade, trade.Shaped) ↔
      ∀ trade ∈ model.trade, trade.Shaped :=
    forall_mem_map_congr (fun _ => Trade.shaped_within)
  constructor
  · intro h
    exact ⟨hfields.1 h.fields, h.yearSplit, hgroups.1 h.regionGroups,
      hcommodities.1 h.commodities, h.impacts, htechnologies.1 h.technologies,
      hstorage.1 h.storage, htrade.1 h.trade⟩
  · intro h
    exact ⟨hfields.2 h.fields, h.yearSplit, hgroups.2 h.regionGroups,
      hcommodities.2 h.commodities, h.impacts, htechnologies.2 h.technologies,
      hstorage.2 h.storage, htrade.2 h.trade⟩

/-- A model is inside the sets exactly if its part over them is. -/
theorem EnergyModel.inside_within {model : EnergyModel R} :
    (model.within sets).Inside sets ↔ model.Inside sets := by
  have htechnologies : (∀ technology ∈ (model.within sets).technologies,
      technology.id ∈ sets.technologies) ↔
        ∀ technology ∈ model.technologies, technology.id ∈ sets.technologies :=
    List.forall_mem_map
  have hstorage : (∀ storage ∈ (model.within sets).storage, storage.id ∈ sets.storages) ↔
      ∀ storage ∈ model.storage, storage.id ∈ sets.storages :=
    List.forall_mem_map
  constructor
  · intro h
    exact ⟨shaped_within.1 h.shaped, htechnologies.1 h.technologies, hstorage.1 h.storage,
      h.targets, List.forall_mem_map.1 h.groupTargets, h.earlier⟩
  · intro h
    exact ⟨shaped_within.2 h.shaped, htechnologies.2 h.technologies, hstorage.2 h.storage,
      h.targets, List.forall_mem_map.2 h.groupTargets, h.earlier⟩

end

/-! ### Work over lists -/

namespace Noted

variable {ε α β γ : Type}

theorem ext {r s : Noted ε α} (hv : r.value = s.value) (hn : r.notes = s.notes) : r = s := by
  cases r
  cases s
  cases hv
  cases hn
  rfl

theorem gather_congr {f g : α → Noted ε (List β)} {as : List α} (h : ∀ a ∈ as, f a = g a) :
    gather f as = gather g as := by
  induction as with
  | nil => rfl
  | cons a rest ih =>
    rw [gather, gather, h a List.mem_cons_self, ih fun a' ha => h a' (List.mem_cons_of_mem a ha)]

theorem each_congr {f g : α → Noted ε β} {as : List α} (h : ∀ a ∈ as, f a = g a) :
    each f as = each g as := by
  induction as with
  | nil => rfl
  | cons a rest ih =>
    rw [each, each, h a List.mem_cons_self, ih fun a' ha => h a' (List.mem_cons_of_mem a ha)]

/-- Gathering over mapped elements is gathering over the elements, if the work is the same. -/
theorem gather_map_congr (as : List α) {w : α → β} {f : β → Noted ε (List γ)}
    {g : α → Noted ε (List γ)} (h : ∀ a ∈ as, f (w a) = g a) :
    gather f (as.map w) = gather g as := by
  induction as with
  | nil => rfl
  | cons a rest ih =>
    rw [List.map_cons, gather, gather, h a List.mem_cons_self,
      ih fun a' ha => h a' (List.mem_cons_of_mem a ha)]

theorem each_map_congr (as : List α) {w : α → β} {f : β → Noted ε γ} {g : α → Noted ε γ}
    (h : ∀ a ∈ as, f (w a) = g a) : each f (as.map w) = each g as := by
  induction as with
  | nil => rfl
  | cons a rest ih =>
    rw [List.map_cons, each, each, h a List.mem_cons_self,
      ih fun a' ha => h a' (List.mem_cons_of_mem a ha)]

theorem foldlM_congr {f g : β → α → Noted ε β} {as : List α}
    (h : ∀ b, ∀ a ∈ as, f b a = g b a) (b : β) : as.foldlM f b = as.foldlM g b := by
  induction as generalizing b with
  | nil => rfl
  | cons a rest ih =>
    rw [List.foldlM_cons, List.foldlM_cons, h b a List.mem_cons_self]
    exact congrArg _ (funext fun b' => ih (fun b a' ha => h b a' (List.mem_cons_of_mem a ha)) b')

/-- Two steps in a row are the same if the first ones are and the second ones are. -/
theorem bind_congr {a b : Noted ε α} {f g : α → Noted ε β} (hab : a = b) (h : ∀ x, f x = g x) :
    a >>= f = b >>= g := by
  rw [hab, funext h]

/-- Of the second steps only what follows the value of the first one counts. -/
theorem bind_congr_value {a b : Noted ε α} {f g : α → Noted ε β} (hab : a = b)
    (h : f b.value = g b.value) : a >>= f = b >>= g := by
  subst hab
  exact ext (by rw [value_bind, value_bind, h]) (by rw [notes_bind, notes_bind, h])

/-- A step whose value is a mapped one hands the mapped value to the next step. -/
theorem bind_congr_map {a : Noted ε β} {b : Noted ε α} {w : α → β} {f : β → Noted ε γ}
    {g : α → Noted ε γ} (hab : a = b >>= fun x => pure (w x)) (h : f (w b.value) = g b.value) :
    a >>= f = b >>= g := by
  subst hab
  refine ext (by rw [value_bind, value_bind, value_bind, value_pure, h]) ?_
  rw [notes_bind, notes_bind, notes_bind, notes_pure, List.append_nil, value_bind, value_pure, h]

/-- Gathering what is mapped is mapping what is gathered. -/
theorem gather_bind_map (f : α → Noted ε (List β)) (w : β → γ) (as : List α) :
    gather (fun a => f a >>= fun found => pure (found.map w)) as =
      gather f as >>= fun found => pure (found.map w) := by
  refine ext ?_ ?_
  · simp only [value_gather, value_bind, value_pure, List.map_flatMap]
  · simp only [notes_gather, notes_bind, notes_pure, List.append_nil]

end Noted

/-! ### Contexts -/

/-- The context of the part of a model over the sets; the variables are the same ones. -/
def Context.within (ctx : Context R) : Context R :=
  { ctx with model := ctx.model.within ctx.sets }

/-- The model of a context is inside its sets. -/
def Context.Inside (ctx : Context R) : Prop := ctx.model.Inside ctx.sets

/-- A family of constraints is the same for the part of the model over the sets. -/
def ConstraintRule.Within (rule : ConstraintRule R) (ctx : Context R) : Prop :=
  rule.constraints ctx.within = rule.constraints ctx

section

variable {ctx : Context R}

theorem perTechnology_within {rows rows' : String → Technology R → Lookup (List (Constraint R))}
    (h : ∀ region ∈ ctx.sets.regions, ∀ technology ∈ ctx.model.technologies,
      rows region (technology.within ctx.sets) = rows' region technology) :
    ctx.within.perTechnology rows = ctx.perTechnology rows' := by
  refine gather_congr fun region hr => ?_
  exact gather_map_congr ctx.model.technologies fun technology ht => h region hr technology ht

theorem perTechnologyYear_within
    {rows rows' : String → Technology R → String → Lookup (List (Constraint R))}
    (h : ∀ region ∈ ctx.sets.regions, ∀ technology ∈ ctx.model.technologies,
      ∀ year ∈ ctx.sets.years,
        rows region (technology.within ctx.sets) year = rows' region technology year) :
    ctx.within.perTechnologyYear rows = ctx.perTechnologyYear rows' :=
  perTechnology_within fun region hr technology ht =>
    gather_congr fun year hy => h region hr technology ht year hy

/-- The entities with a flag set in the part of a model are the parts of those with it. -/
theorem flaggedAt_map {α : Type} {flags : α → Tensor Bool} {w : α → α} {key : Key}
    {entities : List α}
    (h : ∀ e ∈ entities, (flags (w e)).lookup key false = (flags e).lookup key false) :
    flaggedAt flags key (entities.map w) =
      flaggedAt flags key entities >>= fun found => pure (found.map w) := by
  rw [flaggedAt, flaggedAt, ← gather_bind_map]
  refine gather_map_congr entities fun e he => ext ?_ ?_
  · simp only [value_bind, value_pure, h e he]
    split <;> rfl
  · simp only [notes_bind, notes_pure, h e he, List.append_nil]

theorem perCommodityYear_within [Zero R] [One R] [Add R] [Sub R] [Mul R] [Neg R] [BEq R]
    {rows rows' : String → Commodity R → String → Lookup (List (Constraint R))}
    (h : ∀ region ∈ ctx.sets.regions, ∀ commodity ∈ ctx.model.commodities,
      ∀ year ∈ ctx.sets.years,
        rows region (commodity.within ctx.sets) year = rows' region commodity year) :
    perCommodityYear ctx.within rows = perCommodityYear ctx rows' := by
  refine gather_congr fun region hr => gather_map_congr ctx.model.commodities fun commodity hc => ?_
  exact gather_congr fun year hy => h region hr commodity hc year hy

theorem perStorageYear_within
    {rows rows' : String → Storage R → String → Lookup (List (Constraint R))}
    (h : ∀ region ∈ ctx.sets.regions, ∀ storage ∈ ctx.model.storage, ∀ year ∈ ctx.sets.years,
      rows region (storage.within ctx.sets) year = rows' region storage year) :
    perStorageYear ctx.within rows = perStorageYear ctx rows' := by
  refine gather_congr fun region hr => gather_map_congr ctx.model.storage fun storage ho => ?_
  exact gather_congr fun year hy => h region hr storage ho year hy

end

end EnergyPlan
