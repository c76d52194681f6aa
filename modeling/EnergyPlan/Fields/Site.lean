/-
# Where the indexed fields of a configuration are

An indexed field belongs to a mapping: an element of one of the top-level lists, an
operating mode of a technology, or the configuration itself. Fields are visited in
the order of those lists, an operating mode after the fields of its technology, and
the fields of the whole model last. The path shown for a field names its owner by
its id, or by its position where it has none.

Key definitions: `FieldSite`, `fieldSites`, `broadcastModel`.
-/
import EnergyPlan.Fields.Broadcast
import EnergyPlan.Fields.Schema

namespace EnergyPlan.Fields

open Config Text

/-- A field that is present in a configuration: the position of its owner, its declaration, the
path shown for it, and its value. -/
structure FieldSite where
  owner : List Step
  spec : FieldSpec
  path : String
  value : Node

namespace FieldSite

/-- The position of the value. -/
def position (site : FieldSite) : List Step := site.owner ++ [.key site.spec.name]

end FieldSite

/-- The indexed fields that a mapping gives. -/
def ownSites (kind : EntityKind) (owner : List Step) (path : String) (entity : Node) :
    List FieldSite :=
  kind.indexedFields.filterMap fun spec =>
    (entity.entry? spec.name).map fun value => ⟨owner, spec, childPath path spec.name, value⟩

/-- The mappings in the list at a key, each with its position and path. -/
def listedEntities (parent : Node) (owner : List Step) (path key : String) :
    List (List Step × String × Node) :=
  ((parent.entry? key).getD .null).items.zipIdx.filterMap fun (entity, i) =>
    if entity.isMapping then
      some (owner ++ [.key key, .item i], childPath (childPath path key) (entity.label i), entity)
    else none

/-- The fields of the operating modes of a technology. -/
def modeSites (owner : List Step) (path : String) (technology : Node) : List FieldSite :=
  (listedEntities technology owner path EntityKind.operatingMode.collection).flatMap
    fun (position, path, mode) => ownSites .operatingMode position path mode

/-- The fields of an entity of a top-level list, and of its operating modes if it is a
technology. -/
def entitySites (kind : EntityKind) (owner : List Step) (path : String) (entity : Node) :
    List FieldSite :=
  ownSites kind owner path entity ++
    if kind = .technology then modeSites owner path entity else []

/-- The indexed fields of a configuration, in the order in which they are visited. -/
def fieldSites (root : Node) : List FieldSite :=
  (EntityKind.listed.flatMap fun kind =>
    (listedEntities root [] "" kind.collection).flatMap fun (position, path, entity) =>
      entitySites kind position path entity) ++
  ownSites .model [] "" root

/-- Expands the field at a site; a null value stays. -/
def broadcastSite (sets : MemberSets) (root : Node) (site : FieldSite) :
    Except BroadcastError Node := do
  let expanded ← broadcast sets site.spec.dimensions site.path site.value
  return root.set expanded site.position

/-- Expands every indexed field of a configuration. -/
def broadcastModel (sets : MemberSets) (root : Node) : Except BroadcastError Node :=
  (fieldSites root).foldlM (broadcastSite sets) root

end EnergyPlan.Fields
