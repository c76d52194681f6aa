/-
# The cost does not depend on the order of entities

The parts of the cost of a model are those of its technologies, impacts, storages and trades
for each region and year; another order of the entities is another order of the parts. What a
unit of activity costs is summed up over the impacts, also exactly.

Key theorems: `value_activityCost`, `parts_perm`, `value_objective`.
-/
import EnergyPlan.Program.Cost
import EnergyPlan.Proofs.Order.Quantities

set_option linter.unusedSectionVars false

namespace EnergyPlan

open Noted LinearExpression

variable {R : Type} [AddCommMonoid R] [One R] [Sub R] [Mul R] [Div R] [Neg R] [BEq R]
  [LawfulBEq R] [LT R] [DecidableLT R] [Scalar R] {ctx : Context R} {other : EnergyModel R}
  (h : ctx.model.Reordered other)

include h

namespace CostFrame

theorem of_eq (region year : String) :
    CostFrame.of (ctx.withModel other) region year = CostFrame.of ctx region year := by
  have hrate : other.discountRate = ctx.model.discountRate :=
    congrArg ModelFields.discountRate h.fields
  have hmethod : other.depreciation = ctx.model.depreciation :=
    congrArg ModelFields.depreciation h.fields
  simp only [CostFrame.of, Context.withModel, hrate, hmethod, h.time]

variable (frame : CostFrame R)

/-! ### Technologies -/

/-- The penalties of all impacts are added up exactly. -/
theorem value_activityCost (mode : OperatingMode R) :
    (frame.activityCost (ctx.withModel other) mode).value =
      (frame.activityCost ctx mode).value := by
  simp only [activityCost, value_bind, value_foldlM]
  refine (h.impacts.foldl_eq' (fun impact _ impact' _ cost => ?_) _).symm
  simp only [value_pure, add_right_comm]

variable {technology technology' : Technology R} (ht : technology.Reordered technology')

include ht

theorem capitalPart_eq : frame.capitalPart (ctx.withModel other) technology' =
    frame.capitalPart ctx technology := by
  have hcapital : other.costOfCapital = ctx.model.costOfCapital :=
    congrArg ModelFields.costOfCapital h.fields
  obtain ⟨modes, -, rfl⟩ := ht
  simp only [capitalPart, Context.withModel, hcapital]
  rfl

omit h in
variable (ctx other) in
theorem fixedPart_eq : frame.fixedPart (ctx.withModel other) technology' =
    frame.fixedPart ctx technology := by
  have hgross := ht.grossCapacity_eq ctx other frame.region frame.year
  obtain ⟨modes, -, rfl⟩ := ht
  simp only [fixedPart, hgross]

/-- The costs of the modes of a technology are reordered with them. -/
theorem activityParts_perm : (frame.activityParts ctx technology).value.Perm
    (frame.activityParts (ctx.withModel other) technology').value := by
  have hactivity := h.modeActivity_eq ht frame.region frame.year
  obtain ⟨modes, hperm, rfl⟩ := ht
  refine perm_gather (.of_perm hperm) ?_
  rintro mode _ rfl
  simp only [value_bind, value_activityCost h]
  split
  · exact .refl _
  · simp only [value_bind, hactivity]
    exact .refl _

omit ht

/-! ### All entities -/

theorem storagePart_eq (storage : Storage R) :
    frame.storagePart (ctx.withModel other) storage = frame.storagePart ctx storage := by
  have hcapital : other.costOfCapitalStorage = ctx.model.costOfCapitalStorage :=
    congrArg ModelFields.costOfCapitalStorage h.fields
  simp only [storagePart, Context.withModel, hcapital]
  rfl

/-- The parts of the cost of a region in a year are reordered with the entities. -/
theorem parts_perm : (frame.parts ctx).value.Perm (frame.parts (ctx.withModel other)).value := by
  refine ((List.Perm.append ?technologies ?impacts).append ?storage).append ?trade
  case technologies =>
    refine perm_gather h.technologies fun technology technology' ht => ?_
    simp only [value_bind, value_pure, capitalPart_eq h frame ht, fixedPart_eq ctx other frame ht]
    exact (activityParts_perm h frame ht).append_left _
  case impacts => exact perm_gather_right h.impacts
  case storage =>
    refine perm_gather (.of_perm h.storage) ?_
    rintro storage _ rfl
    rw [storagePart_eq h]
  case trade => exact perm_gather_right h.trade

end CostFrame

/-- The cost of a model is the same for any order of its entities. -/
theorem value_objective : (objective (ctx.withModel other)).value = (objective ctx).value := by
  refine (sum_perm (perm_gather_left fun region _ => perm_gather_left fun year _ => ?_)).symm
  rw [value_bind, value_bind, CostFrame.of_eq h]
  exact CostFrame.parts_perm h _

end EnergyPlan
