/-
# The shape of a model that was read

Every indexed field of an entity is a tensor over the dimensions that the schema gives
the field, whatever the configuration says: reading, mirroring and filling only write
entries. So a tensor of a model can be asked under keys of the right length without a
mismatch.

Key definitions: `Technology.Shaped`, `Trade.Shaped`, `EnergyModel.Shaped`.
Key theorems: `dimensions_filled`, `shaped_parseTechnology`, `shaped_parseTrade`,
`shaped_parseModelFields`.
-/
import EnergyPlan.Model.Parsing
import EnergyPlan.Proofs.Yields

namespace EnergyPlan

open Config Fields

variable {R : Type}

/-! ### Shapes -/

structure RegionGroup.Shaped (group : RegionGroup R) : Prop where
  includes : group.includes.dimensions = [.region, .year]
  reserveMargin : group.reserveMargin.dimensions = [.year]
  renewableTarget : group.renewableTarget.dimensions = [.year]

structure Commodity.Shaped (commodity : Commodity R) : Prop where
  demandAnnual : commodity.demandAnnual.dimensions = [.region, .year]
  demandProfile : commodity.demandProfile.dimensions = [.region, .year, .timeslice]
  inRenewableTarget : commodity.inRenewableTarget.dimensions = [.region, .year]
  inReserveMargin : commodity.inReserveMargin.dimensions = [.region, .year]

structure Impact.Shaped (impact : Impact R) : Prop where
  limitAnnual : impact.limitAnnual.dimensions = [.region, .year]
  limitTotal : impact.limitTotal.dimensions = [.region]
  exogenousAnnual : impact.exogenousAnnual.dimensions = [.region, .year]
  exogenousTotal : impact.exogenousTotal.dimensions = [.region]
  penalty : impact.penalty.dimensions = [.region, .year]

structure OperatingMode.Shaped (mode : OperatingMode R) : Prop where
  opexVariable : mode.opexVariable.dimensions = [.region, .year]
  inputRatio : mode.inputRatio.dimensions = [.region, .commodity, .year]
  outputRatio : mode.outputRatio.dimensions = [.region, .commodity, .year]
  emissionRatio : mode.emissionRatio.dimensions = [.region, .impact, .year]
  toStorage : mode.toStorage.dimensions = [.region, .storage]
  fromStorage : mode.fromStorage.dimensions = [.region, .storage]

structure Technology.Shaped (technology : Technology R) : Prop where
  operatingLife : technology.operatingLife.dimensions = [.region]
  capex : technology.capex.dimensions = [.region, .year]
  opexFixed : technology.opexFixed.dimensions = [.region, .year]
  residualCapacity : technology.residualCapacity.dimensions = [.region, .year]
  capacityActivityRatio : technology.capacityActivityRatio.dimensions = [.region]
  availabilityFactor : technology.availabilityFactor.dimensions = [.region, .year]
  capacityFactor : technology.capacityFactor.dimensions = [.region, .year, .timeslice]
  unitCapacity : technology.unitCapacity.dimensions = [.region, .year]
  grossMax : technology.grossMax.dimensions = [.region, .year]
  grossMin : technology.grossMin.dimensions = [.region, .year]
  additionalMax : technology.additionalMax.dimensions = [.region, .year]
  additionalMin : technology.additionalMin.dimensions = [.region, .year]
  maxGrowthRate : technology.maxGrowthRate.dimensions = [.region]
  maxGrowthFloor : technology.maxGrowthFloor.dimensions = [.region]
  minGrowthRate : technology.minGrowthRate.dimensions = [.region]
  capacityFactorMin : technology.capacityFactorMin.dimensions = [.region, .year]
  activityAnnualMax : technology.activityAnnualMax.dimensions = [.region, .year]
  activityAnnualMin : technology.activityAnnualMin.dimensions = [.region, .year]
  activityTotalMax : technology.activityTotalMax.dimensions = [.region]
  activityTotalMin : technology.activityTotalMin.dimensions = [.region]
  inReserveMargin : technology.inReserveMargin.dimensions = [.region, .year]
  inRenewableTarget : technology.inRenewableTarget.dimensions = [.region, .year]
  productionTargetMin : technology.productionTargetMin.dimensions = [.region, .commodity, .year]
  productionTargetMax : technology.productionTargetMax.dimensions = [.region, .commodity, .year]
  modes : ∀ mode ∈ technology.modes, mode.Shaped

structure Storage.Shaped (storage : Storage R) : Prop where
  capex : storage.capex.dimensions = [.region, .year]
  operatingLife : storage.operatingLife.dimensions = [.region]
  minimumCharge : storage.minimumCharge.dimensions = [.region, .year]
  initialLevel : storage.initialLevel.dimensions = [.region]
  residualCapacity : storage.residualCapacity.dimensions = [.region, .year]
  maxDischargeRate : storage.maxDischargeRate.dimensions = [.region]
  maxChargeRate : storage.maxChargeRate.dimensions = [.region]

structure Trade.Shaped (trade : Trade R) : Prop where
  routes : trade.routes.dimensions = [.region, .linkedRegion, .year]
  loss : trade.loss.dimensions = [.region, .linkedRegion, .year]
  residualCapacity : trade.residualCapacity.dimensions = [.region, .linkedRegion, .year]
  capex : trade.capex.dimensions = [.region, .linkedRegion, .year]
  operatingLife : trade.operatingLife.dimensions = [.region, .linkedRegion, .year]
  additionalMax : trade.additionalMax.dimensions = [.region, .linkedRegion, .year]
  costOfCapital : trade.costOfCapital.dimensions = [.region, .linkedRegion]
  capacityActivityRatio : trade.capacityActivityRatio.dimensions = [.region, .linkedRegion]

structure ModelFields.Shaped (fields : ModelFields R) : Prop where
  depreciation : fields.depreciation.dimensions = [.region]
  discountRate : fields.discountRate.dimensions = [.region]
  costOfCapital : fields.costOfCapital.dimensions = [.region, .technology]
  costOfCapitalStorage : fields.costOfCapitalStorage.dimensions = [.region, .storage]
  reserveMargin : fields.reserveMargin.dimensions = [.region, .year]
  renewableTarget : fields.renewableTarget.dimensions = [.region, .year]

/-- Every tensor of a model is over the dimensions of its field. -/
structure EnergyModel.Shaped (model : EnergyModel R) : Prop where
  fields : model.toModelFields.Shaped
  yearSplit : model.time.yearSplit.dimensions = [.timeslice, .year]
  regionGroups : ∀ group ∈ model.regionGroups, group.Shaped
  commodities : ∀ commodity ∈ model.commodities, commodity.Shaped
  impacts : ∀ impact ∈ model.impacts, impact.Shaped
  technologies : ∀ technology ∈ model.technologies, technology.Shaped
  storage : ∀ storage ∈ model.storage, storage.Shaped
  trade : ∀ trade ∈ model.trade, trade.Shaped

/-! ### Reading keeps the dimensions -/

theorem dimensions_insertNew {α : Type} (t : Tensor α) (key : Key) (value : α) :
    (t.insertNew key value).dimensions = t.dimensions := by
  unfold Tensor.insertNew
  split <;> rfl

/-- A fold whose steps keep the dimensions of a tensor keeps them. -/
theorem dimensions_foldl {α β : Type} {f : Tensor α → β → Tensor α}
    (h : ∀ t b, (f t b).dimensions = t.dimensions) (bs : List β) (t : Tensor α) :
    (bs.foldl f t).dimensions = t.dimensions := by
  induction bs generalizing t with
  | nil => rfl
  | cons b rest ih => rw [List.foldl_cons, ih, h]

theorem dimensions_mirrorRoutes {α : Type} (t : Tensor α) :
    (mirrorRoutes t).dimensions = t.dimensions :=
  dimensions_foldl (fun _ _ => dimensions_insertNew ..) _ _

theorem dimensions_fillRates (sets : MemberSets) (rates costs : Tensor R) :
    (fillRates sets rates costs).dimensions = costs.dimensions := by
  refine dimensions_foldl (fun t key => ?_) _ _
  split
  · exact dimensions_insertNew ..
  · rfl

section

variable {α : Type} (reader : Reader) (convert : Conversion α) (name : String)

theorem dimensions_readLeaf (spec : FieldSpec) (path : String) (t : Tensor α)
    (leaf : Key × Node) :
    (Reader.readLeaf convert spec path t leaf).value.dimensions = t.dimensions := by
  unfold Reader.readLeaf
  split <;> rfl

theorem dimensions_tensor :
    (reader.tensor convert name).value.dimensions = (reader.spec name).dimensions := by
  unfold Reader.tensor
  dsimp only
  split
  · rfl
  · rw [Noted.value_foldlM]
    exact dimensions_foldl (fun _ _ => dimensions_readLeaf ..) _ _

theorem dimensions_fill (t : Tensor α) :
    (reader.fill convert name t).dimensions = t.dimensions := by
  unfold Reader.fill
  dsimp only
  split
  · exact dimensions_foldl (fun _ _ => dimensions_insertNew ..) _ _
  · rfl

variable {reader name} (kind : EntityKind) {dimensions : List Dimension}

/-- A field of an entity is over the dimensions that its kind declares. -/
theorem dimensions_spec (hk : reader.kind = kind)
    (h : (kind.field? name).map FieldSpec.dimensions = some dimensions) :
    (reader.spec name).dimensions = dimensions := by
  obtain ⟨spec, hs, hd⟩ := Option.map_eq_some_iff.1 h
  rw [Reader.spec, hk, hs]
  exact hd

theorem dimensions_filled (hk : reader.kind = kind)
    (h : (kind.field? name).map FieldSpec.dimensions = some dimensions) :
    (reader.filled convert name).value.dimensions = dimensions :=
  (dimensions_fill ..).trans <| (dimensions_tensor ..).trans <| dimensions_spec kind hk h

theorem dimensions_parseRouteField (bothWays : Bool) (hk : reader.kind = kind)
    (h : (kind.field? name).map FieldSpec.dimensions = some dimensions) :
    (parseRouteField reader bothWays convert name).value.dimensions = dimensions := by
  apply (dimensions_fill ..).trans
  have hd := (dimensions_tensor reader convert name).trans (dimensions_spec kind hk h)
  split
  · exact (dimensions_mirrorRoutes _).trans hd
  · exact hd

end

/-! ### Entities that were read -/

theorem value_parseMapping {α : Type} (kind : EntityKind) (sets : MemberSets) (node : Node)
    (path : String) (blank : α) (extra : List String) (parse : Reader → Reading α) :
    (parseMapping kind sets node path blank extra parse).value =
      if node.isMapping then (parse ⟨node, kind, path, sets⟩).value else blank := by
  unfold parseMapping
  split <;> rfl

variable [Zero R] [One R] [LT R] [DecidableLT R] [Scalar R] (sets : MemberSets) (node : Node)
  (path : String)

theorem shaped_parseRegionGroup : (parseRegionGroup (R := R) sets node path).value.Shaped := by
  rw [parseRegionGroup, value_parseMapping]
  split
  · simp only [Noted.value_bind, Noted.value_pure]
    constructor <;> exact dimensions_filled _ .regionGroup rfl (by decide)
  · constructor <;> rfl

theorem shaped_parseCommodity : (parseCommodity (R := R) sets node path).value.Shaped := by
  rw [parseCommodity, value_parseMapping]
  split
  · simp only [Noted.value_bind, Noted.value_pure]
    constructor <;> exact dimensions_filled _ .commodity rfl (by decide)
  · constructor <;> rfl

theorem shaped_parseImpact : (parseImpact (R := R) sets node path).value.Shaped := by
  rw [parseImpact, value_parseMapping]
  split
  · simp only [Noted.value_bind, Noted.value_pure]
    constructor <;> exact dimensions_filled _ .impact rfl (by decide)
  · constructor <;> rfl

theorem shaped_parseOperatingMode :
    (parseOperatingMode (R := R) sets node path).value.Shaped := by
  rw [parseOperatingMode, value_parseMapping]
  split
  · simp only [Noted.value_bind, Noted.value_pure]
    constructor <;> exact dimensions_filled _ .operatingMode rfl (by decide)
  · constructor <;> rfl

theorem shaped_parseModes (reader : Reader) :
    ∀ mode ∈ (parseModes (R := R) reader).value, mode.Shaped := by
  intro mode hm
  obtain ⟨_, _, rfl⟩ := Noted.mem_value_each.1 hm
  exact shaped_parseOperatingMode ..

theorem shaped_parseTechnology : (parseTechnology (R := R) sets node path).value.Shaped := by
  rw [parseTechnology, value_parseMapping]
  split
  · simp only [Noted.value_bind, Noted.value_pure]
    constructor
    case modes => exact shaped_parseModes _
    all_goals exact dimensions_filled _ .technology rfl (by decide)
  · constructor
    case modes => intro mode hm; cases hm
    all_goals rfl

theorem shaped_parseStorage : (parseStorage (R := R) sets node path).value.Shaped := by
  rw [parseStorage, value_parseMapping]
  split
  · simp only [Noted.value_bind, Noted.value_pure]
    constructor <;> exact dimensions_filled _ .storage rfl (by decide)
  · constructor <;> rfl

theorem shaped_parseTrade : (parseTrade (R := R) sets node path).value.Shaped := by
  rw [parseTrade, value_parseMapping]
  split
  · simp only [Noted.value_bind, Noted.value_pure]
    constructor <;> dsimp only <;>
      exact dimensions_parseRouteField _ .trade _ rfl (by decide)
  · constructor <;> rfl

/-- The methods of depreciation are over the dimensions of their names. -/
theorem dimensions_parseDepreciation (reader : Reader) (hk : reader.kind = .model) :
    (parseDepreciation reader).value.dimensions = [.region] := by
  rw [parseDepreciation, Noted.value_bind, Noted.value_foldlM]
  have hn : (reader.filled convertText "depreciation_method").value.dimensions = [.region] :=
    dimensions_filled _ .model hk (by decide)
  refine (dimensions_foldl (fun t entry => ?_) _ _).trans hn
  obtain ⟨key, name⟩ := entry
  cases hm : DepreciationMethod.ofName? name <;> simp only [hm] <;> rfl

theorem shaped_parseModelFields : (parseModelFields (R := R) sets node).value.Shaped := by
  unfold parseModelFields
  split
  · simp only [Noted.value_bind, Noted.value_pure]
    constructor
    case depreciation => exact dimensions_parseDepreciation _ rfl
    case costOfCapital =>
      exact (dimensions_fillRates ..).trans (dimensions_filled _ .model rfl (by decide))
    case costOfCapitalStorage =>
      exact (dimensions_fillRates ..).trans (dimensions_filled _ .model rfl (by decide))
    all_goals exact dimensions_filled _ .model rfl (by decide)
  · constructor <;> rfl

end EnergyPlan
