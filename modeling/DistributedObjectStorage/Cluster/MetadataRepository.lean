import DistributedObjectStorage.Cluster.ClusterMap

/-! The in-process control plane: membership, placement and object locations. -/
namespace Dos.ControlPlane

/-- Where the replicas of an object live, and its authoritative version. -/
structure ObjectLocation where
  key : Bytes
  version : ℕ
  checksum : Bytes
  size : ℕ
  deleted : Bool
  replicas : List Bytes
  deriving DecidableEq, Repr

structure MetadataRepository where
  cluster : ClusterMap
  objects : OrderedMap Bytes ObjectLocation

namespace MetadataRepository

def create (virtualNodesPerNode : ℕ) : MetadataRepository := ⟨.create virtualNodesPerNode, ∅⟩

def addNode (r : MetadataRepository) (node : NodeInfo) : MetadataRepository :=
  { r with cluster := r.cluster.addOrUpdateNode node }

def nodes (r : MetadataRepository) : List NodeInfo := r.cluster.nodes

def placementFor (r : MetadataRepository) (key : Bytes) (rf : ℕ) : List Bytes :=
  r.cluster.placementFor key rf

def registerObject (r : MetadataRepository) (loc : ObjectLocation) : MetadataRepository × Status :=
  ({ r with objects := r.objects.insert loc.key loc }, .success)

def noMetadata (key : Bytes) : Status := .notFound (text "no metadata for key: " ++ key)

/-- A tombstone is as good as no record. -/
def lookupObject (r : MetadataRepository) (key : Bytes) : StatusOr ObjectLocation :=
  match r.objects[key]? with
  | none => .error (noMetadata key)
  | some loc => if loc.deleted then .error (noMetadata key) else .ok loc

def removeObject (r : MetadataRepository) (key : Bytes) : MetadataRepository × Status :=
  match r.objects[key]? with
  | none => (r, noMetadata key)
  | some loc =>
      if loc.deleted then (r, noMetadata key)
      else
        ({ r with objects := r.objects.insert key { loc with deleted := true, replicas := [] } },
          .success)

def listObjects (r : MetadataRepository) (pre : Bytes) : StatusOr (List ObjectLocation) :=
  .ok ((r.objects.toList.filter fun entry => !entry.2.deleted && pre.isPrefixOf entry.1).map (·.2))

end MetadataRepository

/-! ## The interface -/

/-- The calls of `ControlPlane` that go through the object map or the ring. -/
inductive ControlRequest where
  | addNode (node : NodeInfo)
  | registerObject (loc : ObjectLocation)
  | removeObject (key : Bytes)
  | lookupObject (key : Bytes)
  | listObjects (pre : Bytes)
  | placementFor (key : Bytes) (rf : ℕ)
  deriving DecidableEq, Repr

inductive ControlAnswer where
  | done
  | status (status : Status)
  | location (found : StatusOr ObjectLocation)
  | locations (listed : StatusOr (List ObjectLocation))
  | nodes (ids : List Bytes)
  deriving DecidableEq, Repr

namespace MetadataRepository

def serve (r : MetadataRepository) : ControlRequest → MetadataRepository × ControlAnswer
  | .addNode node => (r.addNode node, .done)
  | .registerObject loc => ((r.registerObject loc).1, .status (r.registerObject loc).2)
  | .removeObject key => ((r.removeObject key).1, .status (r.removeObject key).2)
  | .lookupObject key => (r, .location (r.lookupObject key))
  | .listObjects pre => (r, .locations (r.listObjects pre))
  | .placementFor key rf => (r, .nodes (r.placementFor key rf))

section Lookup
variable {r : MetadataRepository} {key other : Bytes} {loc : ObjectLocation}

theorem lookupObject_ok :
    r.lookupObject key = .ok loc ↔ r.objects[key]? = some loc ∧ loc.deleted = false := by
  unfold lookupObject
  constructor
  · intro found
    split at found
    · cases found
    · next entry lookup =>
        split at found
        · cases found
        · next live =>
            cases found
            exact ⟨lookup, Bool.eq_false_iff.mpr live⟩
  · rintro ⟨lookup, live⟩
    simp [lookup, live]

theorem lookupObject_error (missing : ∀ loc, r.lookupObject key ≠ .ok loc) :
    r.lookupObject key = .error (noMetadata key) := by
  cases found : r.objects[key]? with
  | none => simp [lookupObject, found]
  | some loc =>
      cases dead : loc.deleted with
      | true => simp [lookupObject, found, dead]
      | false => exact absurd (lookupObject_ok.mpr ⟨found, dead⟩) (missing loc)

theorem registerObject_objects (loc : ObjectLocation) (key : Bytes) :
    (r.registerObject loc).1.objects[key]? = if loc.key = key then some loc else r.objects[key]? := by
  simp only [registerObject, OrderedMap.lookup_insert]

theorem removeObject_objects (key other : Bytes) :
    (r.removeObject key).1.objects[other]? =
      if key = other then (r.objects[key]?).map fun loc =>
        if loc.deleted then loc else { loc with deleted := true, replicas := [] }
      else r.objects[other]? := by
  by_cases same : key = other
  · subst same
    cases found : r.objects[key]? with
    | none => simp [removeObject, found]
    | some loc => cases dead : loc.deleted <;> simp [removeObject, found, dead]
  · rw [if_neg same]
    unfold removeObject
    split
    · rfl
    · split
      · rfl
      · exact OrderedMap.lookup_insert_ne _ _ same

theorem removeObject_cluster (key : Bytes) : (r.removeObject key).1.cluster = r.cluster := by
  unfold removeObject
  split
  · rfl
  · split <;> rfl

/-- A lookup reads the record of its key only. -/
theorem lookupObject_congr {r' : MetadataRepository} (same : r'.objects[key]? = r.objects[key]?) :
    r'.lookupObject key = r.lookupObject key := by
  unfold lookupObject
  rw [same]

theorem lookupObject_registerObject (live : loc.deleted = false) :
    (r.registerObject loc).1.lookupObject loc.key = .ok loc :=
  lookupObject_ok.mpr ⟨by rw [registerObject_objects, if_pos rfl], live⟩

theorem lookupObject_registerObject_ne (ne : loc.key ≠ other) :
    (r.registerObject loc).1.lookupObject other = r.lookupObject other :=
  lookupObject_congr (by rw [registerObject_objects, if_neg ne])

theorem lookupObject_removeObject_ne (ne : key ≠ other) :
    (r.removeObject key).1.lookupObject other = r.lookupObject other :=
  lookupObject_congr (by rw [removeObject_objects, if_neg ne])

end Lookup
end MetadataRepository
end Dos.ControlPlane
