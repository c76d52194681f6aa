/-
# Inferring the members of the dimensions

The members of the time dimensions come from the time structure, those of the other
dimensions are the ids of the entities. Keys in the indexed fields add members: each
field is aligned with the members known when it is visited. At the end every region
is a destination too, and the other way round.

Key definitions: `declareIdentifiers`, `inferField`, `inferSets`.
-/
import EnergyPlan.Fields.Site
import EnergyPlan.Time.Structure

namespace EnergyPlan.Fields

open Config

/-- The ids of the elements of a list at a key. -/
def listedIds (parent : Node) (key : String) : List String :=
  ((parent.entry? key).getD .null).items.filterMap Node.id?

/-- The dimensions whose members are ids, each with the ids a configuration has for it. -/
def identifiers (root : Node) : List (Dimension × List String) :=
  let technologies := ((root.entry? EntityKind.technology.collection).getD .null).items
  [(.region, listedIds root EntityKind.region.collection),
    (.linkedRegion, listedIds root EntityKind.region.collection),
    (.commodity, listedIds root EntityKind.commodity.collection),
    (.impact, listedIds root EntityKind.impact.collection),
    (.technology, listedIds root EntityKind.technology.collection),
    (.storage, listedIds root EntityKind.storage.collection),
    (.mode, technologies.flatMap (listedIds · EntityKind.operatingMode.collection))]

/-- Declares the ids of the entities. -/
def declareIdentifiers (root : Node) (sets : MemberSets) : MemberSets :=
  (identifiers root).foldl (fun sets (dimension, ids) => sets.declareAll dimension ids) sets

/-- Adds the keys of each level of a value to the dimension that the level indexes. -/
def inferLevels (dimensions : List Dimension) (sets : MemberSets)
    (levels : List (Nat × List String)) : MemberSets :=
  levels.foldl
    (fun sets (position, keys) =>
      match dimensions[position]? with
      | some dimension => sets.inferAll dimension keys
      | none => sets)
    sets

/-- Adds the keys of a field. -/
def inferField (sets : MemberSets) (site : FieldSite) : Except BroadcastError MemberSets := do
  if !site.value.isMapping then
    return sets
  let positions ← alignLevels sets site.spec.dimensions site.path site.value
  return inferLevels site.spec.dimensions sets (positions.zip (levelKeys site.value))

/-- Makes every destination a region and every region a destination. -/
def shareRegions (sets : MemberSets) : MemberSets :=
  let sets := sets.inferAll .region (sets.members .linkedRegion)
  sets.inferAll .linkedRegion (sets.members .region)

/-- The members of all dimensions, for a configuration with this time structure. -/
def inferSets {R : Type} (root : Node) (time : TimeStructure R) :
    Except BroadcastError MemberSets := do
  let sets ← (fieldSites root).foldlM inferField (declareIdentifiers root time.sets)
  return shareRegions sets

end EnergyPlan.Fields
