import DistributedObjectStorage.Cluster.RingDisruption
import DistributedObjectStorage.Network.ReadableWrite
import DistributedObjectStorage.Network.RepairRedundancy
import DistributedObjectStorage.Storage.StoreRefinement

/-!
# Replication does not show

While every call to a node is answered, a client of the coordinator sees one versioned
map and one registry of locations, whatever the members, the replication factor
and the quorum are. That includes what one store alone would show: a tombstone
keeps its version, and a retry that meets one registers the key again.
-/
namespace Dos.Storage.VersionedMap

/-! ## The map, one key at a time -/

section Local
variable {m m' : VersionedMap} {key : Bytes}

/-- A write reads and changes its own key only. -/
theorem write_local (req : WriteRequest) (now : Int) (same : m.cells req.key = m'.cells req.key) :
    (m.write req now).2 = (m'.write req now).2 ∧
      (m.write req now).1.cells req.key = (m'.write req now).1.cells req.key ∧
      ∀ other, other ≠ req.key → (m.write req now).1.cells other = m.cells other := by
  have written (version : ℕ) : (m.writeOver req version now).2 = (m'.writeOver req version now).2 ∧
      (m.writeOver req version now).1.cells req.key = (m'.writeOver req version now).1.cells req.key ∧
      ∀ other, other ≠ req.key → (m.writeOver req version now).1.cells other = m.cells other := by
    unfold writeOver
    split
    · exact ⟨rfl, same, fun _ _ => rfl⟩
    · exact ⟨rfl, by simp, fun other ne => setCell_ne m _ ne⟩
  unfold write
  rw [← same]
  cases m.cells req.key with
  | none => exact written 0
  | some cell =>
      dsimp only
      split
      · exact ⟨rfl, same, fun _ _ => rfl⟩
      · exact written cell.version

theorem delete_local (same : m.cells key = m'.cells key) :
    (m.delete key).2 = (m'.delete key).2 ∧ (m.delete key).1.cells key = (m'.delete key).1.cells key ∧
      ∀ other, other ≠ key → (m.delete key).1.cells other = m.cells other := by
  unfold delete
  rw [← same]
  cases m.cells key with
  | none => exact ⟨rfl, same, fun _ _ => rfl⟩
  | some cell =>
      dsimp only
      split
      · exact ⟨rfl, same, fun _ _ => rfl⟩
      · exact ⟨rfl, by simp, fun other ne => setCell_ne m _ ne⟩

theorem read_local {α : Type} (f : Cell → α) (same : m.cells key = m'.cells key) :
    m.read key f = m'.read key f := by
  unfold read
  rw [same]

theorem delete_status (m : VersionedMap) (key : Bytes) :
    (m.delete key).2 = .success ∨ (m.delete key).2.code = .notFound := by
  unfold delete
  split
  · exact .inr rfl
  · split
    · exact .inr rfl
    · exact .inl rfl

/-- An absolute version is never refused. -/
theorem write_version {data : Bytes} {version : ℕ} (now : Int) :
    ∃ row, (m.write (.putWithVersion key data version) now).2 = .ok row := by
  have written (current : ℕ) : ∃ row, (m.writeOver (.putWithVersion key data version) current now).2 = .ok row := by
    simp [writeOver, WriteRequest.putWithVersion]
  unfold write
  split
  · exact written 0
  · next cell found =>
      rw [if_neg fun retry => retry.1 rfl]
      exact written cell.version

/-- Any other write is done, or its version is refused. -/
theorem write_ok_or_conflict (m : VersionedMap) (req : WriteRequest) (now : Int) :
    (∃ row, (m.write req now).2 = .ok row) ∨
      ∃ status, (m.write req now).2 = .error status ∧ status.code = .conflict := by
  have written (current : ℕ) : (∃ row, (m.writeOver req current now).2 = .ok row) ∨
      ∃ status, (m.writeOver req current now).2 = .error status ∧ status.code = .conflict := by
    unfold writeOver
    split
    · exact .inr ⟨_, rfl, rfl⟩
    · exact .inl ⟨_, rfl⟩
  unfold write
  split
  · exact written 0
  · next cell found =>
      split
      · exact .inl ⟨_, rfl⟩
      · exact written cell.version

end Local
end Dos.Storage.VersionedMap

namespace Dos.Network
open ControlPlane Storage Transition

/-! ## What a client sees -/

/-- One map for all nodes, and the registered locations without their replicas. -/
structure ObjectService where
  map : VersionedMap
  locations : OrderedMap Bytes ObjectLocation

inductive ObjectRequest where
  | put (key data : Bytes) (now : Int)
  | putConditional (key data : Bytes) (expectedVersion : ℕ) (requestId : Bytes) (now : Int)
  | get (key : Bytes)
  | head (key : Bytes)
  | list (pre : Bytes)
  | delete (key : Bytes)
  deriving DecidableEq, Repr

inductive ObjectAnswer where
  | row (result : StatusOr ObjectMetadata)
  | rows (result : StatusOr (List ObjectMetadata))
  | bytes (result : StatusOr Bytes)
  | status (status : Status)

namespace ObjectService

def empty : ObjectService := ⟨.empty, ∅⟩

def lookup (s : ObjectService) (key : Bytes) : StatusOr ObjectLocation :=
  match s.locations[key]? with
  | none => .error (MetadataRepository.noMetadata key)
  | some loc => if loc.deleted then .error (MetadataRepository.noMetadata key) else .ok loc

def register (s : ObjectService) (row : ObjectMetadata) : ObjectService × ObjectAnswer :=
  ({ s with locations := s.locations.insert row.key ⟨row.key, row.version, row.checksum, row.size, false, []⟩ },
    .row (.ok row))

/-- The registry is the authority for the version of a plain write. A delete makes
it start again. -/
def nextVersion (s : ObjectService) (key : Bytes) : ℕ :=
  match s.lookup key with
  | .ok loc => increment loc.version
  | .error _ => 1

/-- A version that has wrapped to zero leaves the number to the map. -/
def put (s : ObjectService) (key data : Bytes) (now : Int) : ObjectService × ObjectAnswer :=
  let version := s.nextVersion key
  { s with map := (s.map.write (.putWithVersion key data version) now).1 }.register
    ⟨key, data.length, sha256Hex data, version, 0, false, []⟩

/-- The nodes decide on a conditional write. What is registered and answered is
made from the request, also for a retry. -/
def putConditional (s : ObjectService) (key data : Bytes) (expectedVersion : ℕ) (requestId : Bytes) (now : Int) :
    ObjectService × ObjectAnswer :=
  let written := s.map.write (.putConditional key data expectedVersion requestId) now
  match written.2 with
  | .ok _ =>
      { s with map := written.1 }.register
        ⟨key, data.length, sha256Hex data, increment expectedVersion, 0, false, requestId⟩
  | .error _ =>
      ({ s with map := written.1 }, .row (.error (.conflict (text "conditional write rejected: expected version " ++
        text (toString expectedVersion)))))

def get (s : ObjectService) (key : Bytes) : StatusOr Bytes :=
  match s.lookup key with
  | .error status => .error status
  | .ok _ => s.map.read key Cell.data

def head (s : ObjectService) (key : Bytes) : StatusOr ObjectMetadata :=
  match s.lookup key with
  | .error status => .error status
  | .ok loc => .ok ⟨loc.key, loc.size, loc.checksum, loc.version, 0, loc.deleted, []⟩

def list (s : ObjectService) (pre : Bytes) : StatusOr (List ObjectMetadata) :=
  .ok ((s.locations.toList.filter fun entry => !entry.2.deleted && pre.isPrefixOf entry.1).map fun entry =>
    ⟨entry.2.key, entry.2.size, entry.2.checksum, entry.2.version, 0, false, []⟩)

def delete (s : ObjectService) (key : Bytes) : ObjectService × ObjectAnswer :=
  let map := (s.map.delete key).1
  match s.lookup key with
  | .error status => ({ s with map := map }, .status status)
  | .ok loc => (⟨map, s.locations.insert key { loc with deleted := true }⟩, .status .success)

def serve (s : ObjectService) : ObjectRequest → ObjectService × ObjectAnswer
  | .put key data now => s.put key data now
  | .putConditional key data expectedVersion requestId now => s.putConditional key data expectedVersion requestId now
  | .get key => (s, .bytes (s.get key))
  | .head key => (s, .row (s.head key))
  | .list pre => (s, .rows (s.list pre))
  | .delete key => s.delete key

end ObjectService

namespace Coordinator

/-- One request, and what becomes of its call to each node. -/
def serve (c : Coordinator) (net : Bytes → Delivery) : ObjectRequest → Coordinator × ObjectAnswer
  | .put key data now => (c.put key data net now).map id .row
  | .putConditional key data expectedVersion requestId now =>
      (c.putConditional key data expectedVersion requestId net now).map id .row
  | .get key => (c.get key net).map id .bytes
  | .head key => (c, .row (c.head key))
  | .list pre => (c, .rows (c.list pre))
  | .delete key => (c.delete key net).map id .status

/-! ## Fan-outs in which all nodes answer alike -/

section Uniform
variable {α : Type} {rpc : Bytes → StorageNode → StorageNode × StatusOr α} {ids : List Bytes} {code : StatusCode}

theorem fanOut_uniform (distinct : ids.Nodup) (c : Coordinator)
    (alike : ∀ id ∈ ids, ∃ n, c.clients[id]? = some n ∧ codeOf (rpc id n).2 = code) :
    (c.fanOut rpc ids).2 = ids.map (·, code) := by
  induction ids generalizing c with
  | nil => rfl
  | cons first rest ih =>
      obtain ⟨alone, distinct⟩ := List.nodup_cons.mp distinct
      obtain ⟨here, later⟩ := List.forall_mem_cons.mp alike
      obtain ⟨n, found, answers⟩ := here
      have call : (c.callReplica first (rpc first)).2 = code := by
        unfold callReplica
        rw [found]
        exact answers
      have rest := ih distinct (c.callReplica first (rpc first)).1 (fun id member => by
        have ne : first ≠ id := fun same => alone (same ▸ member)
        rw [callReplica_clients, if_neg ne]
        exact later id member)
      simp only [fanOut, List.map_cons, call, rest]

theorem ackedOf_uniform (ids : List Bytes) (code : StatusCode) :
    ackedOf (ids.map (·, code)) = if code = .ok then ids else [] := by
  unfold ackedOf
  by_cases ok : code = .ok
  · simp [ok, List.filter_map, Function.comp_def]
  · simp [ok, List.filter_map, Function.comp_def]

end Uniform

/-! ## The relation -/

def withoutReplicas (loc : ObjectLocation) : ObjectLocation := { loc with replicas := [] }

/-- The nodes placed for a key agree on it, and the registry is that of the
control plane, where every live location names all nodes placed for its key. -/
structure Mirrors (K : Set Bytes) (base : ClusterMap) (opts : Options) (c : Coordinator) (s : ObjectService) :
    Prop where
  cluster : c.metadata.cluster = base
  options : c.opts = opts
  present : ∀ key ∈ K, ∀ id ∈ base.placementFor key opts.replicationFactor, (c.clients[id]?).isSome = true
  nodes : ∀ (id : Bytes) (n : StorageNode), c.clients[id]? = some n → n.fault = none ∧
    ∃ m, Holds K n.store m ∧
      ∀ key ∈ K, id ∈ base.placementFor key opts.replicationFactor → m.cells key = s.map.cells key
  locations : s.locations = c.metadata.objects.map fun _ loc => withoutReplicas loc
  replicas : ∀ (key : Bytes) (loc : ObjectLocation), c.metadata.objects[key]? = some loc → loc.deleted = false →
    loc.replicas = base.placementFor key opts.replicationFactor

namespace Mirrors
variable {K : Set Bytes} {base : ClusterMap} {opts : Options} {c c' : Coordinator} {s : ObjectService} {key : Bytes}
variable (h : Mirrors K base opts c s)
include h

theorem congr (metadata : c'.metadata = c.metadata) (same : c'.opts = c.opts)
    (clients : c'.clients = c.clients) : Mirrors K base opts c' s where
  cluster := metadata ▸ h.cluster
  options := same ▸ h.options
  present := clients ▸ h.present
  nodes := clients ▸ h.nodes
  locations := metadata ▸ h.locations
  replicas := metadata ▸ h.replicas

theorem markAll (health : StatusCode → ReplicaHealth)
    (codes : List (Bytes × StatusCode)) : Mirrors K base opts (c.markAll health codes) s := by
  obtain ⟨metadata, same, clients⟩ := markAll_frame health codes c
  exact h.congr metadata same clients

theorem placement (key : Bytes) :
    c.metadata.placementFor key opts.replicationFactor = base.placementFor key opts.replicationFactor := by
  rw [MetadataRepository.placementFor, h.cluster]

theorem placed (hk : key ∈ K) {id : Bytes}
    (member : id ∈ base.placementFor key opts.replicationFactor) :
    ∃ n m, c.clients[id]? = some n ∧ n.fault = none ∧ Holds K n.store m ∧ m.cells key = s.map.cells key := by
  obtain ⟨n, found⟩ := Option.isSome_iff_exists.mp (h.present key hk id member)
  obtain ⟨up, m, holds, agree⟩ := h.nodes id n found
  exact ⟨n, m, found, up, holds, agree key hk member⟩

theorem lookup (key : Bytes) :
    s.lookup key = (c.metadata.lookupObject key).map withoutReplicas := by
  unfold ObjectService.lookup MetadataRepository.lookupObject
  rw [h.locations, Std.ExtTreeMap.getElem?_map]
  cases c.metadata.objects[key]? with
  | none => rfl
  | some loc =>
      dsimp only [Option.map_some]
      have same : (withoutReplicas loc).deleted = loc.deleted := rfl
      rw [same]
      split <;> rfl

/-- A call to all nodes placed for a key, which does the same to the key everywhere. -/
theorem fanOut {α : Type} (hk : key ∈ K)
    (rpc : Bytes → StorageNode → StorageNode × StatusOr α) (after : VersionedMap) (code : StatusCode)
    (each : ∀ id n m, n.fault = none → Holds K n.store m → m.cells key = s.map.cells key →
      (rpc id n).1.fault = none ∧ codeOf (rpc id n).2 = code ∧ ∃ m', Holds K (rpc id n).1.store m' ∧
        m'.cells key = after.cells key ∧ ∀ other, other ≠ key → m'.cells other = m.cells other)
    (others : ∀ other, other ≠ key → after.cells other = s.map.cells other) :
    (c.fanOut rpc (base.placementFor key opts.replicationFactor)).2 =
        (base.placementFor key opts.replicationFactor).map (·, code) ∧
      Mirrors K base opts (c.fanOut rpc (base.placementFor key opts.replicationFactor)).1 { s with map := after } := by
  have distinct := ClusterMap.placementFor_nodup base key opts.replicationFactor
  obtain ⟨metadata, same⟩ := fanOut_frame rpc (base.placementFor key opts.replicationFactor) c
  refine ⟨fanOut_uniform distinct c fun id member => ?_, ?_⟩
  · obtain ⟨n, m, found, up, holds, agree⟩ := h.placed hk member
    exact ⟨n, found, (each id n m up holds agree).2.1⟩
  · refine ⟨metadata ▸ h.cluster, same ▸ h.options, ?_, ?_, metadata ▸ h.locations, metadata ▸ h.replicas⟩
    · intro other ho id member
      by_cases called : id ∈ base.placementFor key opts.replicationFactor
      · rw [fanOut_clients distinct c called, Option.isSome_map]
        exact h.present other ho id member
      · rw [fanOut_clients_ne c called]
        exact h.present other ho id member
    · intro id n found
      by_cases called : id ∈ base.placementFor key opts.replicationFactor
      · rw [fanOut_clients distinct c called] at found
        obtain ⟨old, here, rfl⟩ := Option.map_eq_some_iff.mp found
        obtain ⟨up, m, holds, agree⟩ := h.nodes id old here
        obtain ⟨fine, -, m', holds', changed, kept⟩ := each id old m up holds (agree key hk called)
        refine ⟨fine, m', holds', fun other ho member => ?_⟩
        by_cases itself : other = key
        · rw [itself]
          exact changed
        · rw [kept other itself, others other itself]
          exact agree other ho member
      · rw [fanOut_clients_ne c called] at found
        obtain ⟨up, m, holds, agree⟩ := h.nodes id n found
        refine ⟨up, m, holds, fun other ho member => ?_⟩
        have ne : other ≠ key := fun itself => called (itself ▸ member)
        rw [others other ne]
        exact agree other ho member

/-- The control plane replaces the location of one key. -/
theorem setLocation {loc : ObjectLocation} {objects : OrderedMap Bytes ObjectLocation}
    (inserted : objects = c.metadata.objects.insert key loc)
    (whole : loc.deleted = false → loc.replicas = base.placementFor key opts.replicationFactor) :
    Mirrors K base opts { c with metadata := { c.metadata with objects := objects } }
      { s with locations := s.locations.insert key (withoutReplicas loc) } := by
  subst inserted
  refine ⟨h.cluster, h.options, h.present, h.nodes, ?_, ?_⟩
  · refine Std.ExtTreeMap.ext_getElem? fun {other} => ?_
    rw [Std.ExtTreeMap.getElem?_map, OrderedMap.lookup_insert, OrderedMap.lookup_insert]
    split
    · rfl
    · rw [h.locations, Std.ExtTreeMap.getElem?_map]
  · intro other found here live
    rw [OrderedMap.lookup_insert] at here
    split at here
    · next same =>
        cases here
        exact same ▸ whole live
    · exact h.replicas other found here live

/-! ## Each request keeps the relation -/

theorem nextVersion (key : Bytes) : c.nextVersion key = s.nextVersion key := by
  unfold Coordinator.nextVersion ObjectService.nextVersion
  rw [h.lookup key]
  cases c.metadata.lookupObject key with
  | error status => rfl
  | ok loc => rfl

theorem register (row : ObjectMetadata) :
    Mirrors K base opts (c.register row (base.placementFor row.key opts.replicationFactor)).1 (s.register row).1 ∧
      ObjectAnswer.row (c.register row (base.placementFor row.key opts.replicationFactor)).2 = (s.register row).2 :=
  ⟨h.setLocation rfl (fun _ => rfl), rfl⟩

omit h

theorem call_up {α : Type} {n : StorageNode} (up : n.fault = none) (rpc : Bytes)
    (serve : LocalObjectStore → LocalObjectStore × StatusOr α) :
    n.call rpc .acknowledged serve = ({ n with store := (serve n.store).1 }, (serve n.store).2) := by
  obtain ⟨address, store, fault⟩ := n
  subst up
  rfl

/-- A write that reaches a node which agrees with the map on its key. -/
theorem call_doPut (digests : Set.InjOn keyDigest K) (plain : ∀ key ∈ K, (0 : UInt8) ∉ key) (req : WriteRequest)
    (hk : req.key ∈ K) (requestId : (0 : UInt8) ∉ req.requestId) (now : Int) {n : StorageNode} {m : VersionedMap}
    (up : n.fault = none) (holds : Holds K n.store m) (agree : m.cells req.key = s.map.cells req.key)
    {result : StorageNode × StatusOr ObjectMetadata}
    (shape : result = n.call (text "Put") .acknowledged fun store => store.doPut req now) :
    result.1.fault = none ∧ codeOf result.2 = codeOf (s.map.write req now).2 ∧
      ∃ m', Holds K result.1.store m' ∧ m'.cells req.key = (s.map.write req now).1.cells req.key ∧
        ∀ other, other ≠ req.key → m'.cells other = m.cells other := by
  obtain ⟨same, changed, kept⟩ := VersionedMap.write_local req now agree
  obtain ⟨after, answer⟩ := holds.doPut digests plain hk requestId now
  rw [shape, call_up up]
  refine ⟨up, ?_, (m.write req now).1, after, changed, kept⟩
  rw [answer, same]

theorem put_call (n : StorageNode) {data : Bytes} {version : ℕ} (now : Int) (named : key ≠ []) :
    n.put .acknowledged key data version now =
      n.call (text "Put") .acknowledged fun store => store.doPut (.putWithVersion key data version) now := by
  rw [StorageNode.put_eq]
  simp only [if_neg named]

theorem putConditional_call (n : StorageNode) {data requestId : Bytes} {expectedVersion : ℕ} (now : Int)
    (named : key ≠ []) :
    n.putConditional .acknowledged key data expectedVersion requestId now =
      n.call (text "Put") .acknowledged fun store =>
        store.doPut (.putConditional key data expectedVersion requestId) now := by
  unfold StorageNode.putConditional
  congr 1
  funext store
  rw [LocalObjectStore.putConditional, if_neg named]

theorem call_delete {n : StorageNode} {m : VersionedMap} (up : n.fault = none) (holds : Holds K n.store m)
    (agree : m.cells key = s.map.cells key) :
    (n.delete .acknowledged key).1.fault = none ∧
      codeOf (n.delete .acknowledged key).2 = (s.map.delete key).2.code ∧
      ∃ m', Holds K (n.delete .acknowledged key).1.store m' ∧ m'.cells key = (s.map.delete key).1.cells key ∧
        ∀ other, other ≠ key → m'.cells other = m.cells other := by
  obtain ⟨same, changed, kept⟩ := VersionedMap.delete_local agree
  obtain ⟨after, answer⟩ := holds.delete key
  unfold StorageNode.delete
  rw [call_up up]
  refine ⟨up, ?_, (m.delete key).1, after, changed, kept⟩
  dsimp only
  rw [answer, same]
  rcases s.map.delete_status key with done | missing
  · rw [done]
    rfl
  · have failed : (s.map.delete key).2.isOk = false := by
      simp [Status.isOk, missing]
    rw [failed]
    rfl

include h

section Requests
variable (digests : Set.InjOn keyDigest K) (plain : ∀ key ∈ K, (0 : UInt8) ∉ key) (named : ∀ key ∈ K, key ≠ [])
  (enough : ∀ key ∈ K, opts.writeQuorum ≤ (base.placementFor key opts.replicationFactor).length)

include digests plain named enough

theorem put (hk : key ∈ K) (data : Bytes) (now : Int) :
    Mirrors K base opts (c.put key data delivered now).1 (s.put key data now).1 ∧
      ObjectAnswer.row (c.put key data delivered now).2 = (s.put key data now).2 := by
  have ok : codeOf (s.map.write (.putWithVersion key data (s.nextVersion key)) now).2 = .ok := by
    obtain ⟨row, written⟩ : ∃ row, (s.map.write (.putWithVersion key data (s.nextVersion key)) now).2 = .ok row :=
      VersionedMap.write_version now
    rw [written]
    rfl
  obtain ⟨codes, fanned⟩ := h.fanOut hk (fun id n => n.put (delivered id) key data (s.nextVersion key) now)
    (s.map.write (.putWithVersion key data (s.nextVersion key)) now).1 .ok
    (fun id n m up holds agree => ok ▸ call_doPut digests plain (.putWithVersion key data (s.nextVersion key)) hk
      List.not_mem_nil now up holds agree (put_call n now (named key hk)))
    (VersionedMap.write_local (.putWithVersion key data (s.nextVersion key)) now rfl).2.2
  have large : ¬(base.placementFor key opts.replicationFactor).length < opts.writeQuorum :=
    Nat.not_lt.mpr (enough key hk)
  have marked := fanned.markAll (fun code => if code = .ok then .healthy else .lagging)
    ((base.placementFor key opts.replicationFactor).map (·, .ok))
  have registered := marked.register ⟨key, data.length, sha256Hex data, s.nextVersion key, 0, false, []⟩
  simp only [Coordinator.put, h.placement, h.nextVersion, h.options, if_neg large, codes, ackedOf_uniform, if_true,
    marked.options]
  exact registered

theorem putConditional (hk : key ∈ K) (data : Bytes) (expectedVersion : ℕ)
    (positive : 1 ≤ opts.writeQuorum) {requestId : Bytes} (legible : (0 : UInt8) ∉ requestId) (now : Int) :
    Mirrors K base opts (c.putConditional key data expectedVersion requestId delivered now).1
        (s.putConditional key data expectedVersion requestId now).1 ∧
      ObjectAnswer.row (c.putConditional key data expectedVersion requestId delivered now).2 =
        (s.putConditional key data expectedVersion requestId now).2 := by
  obtain ⟨codes, fanned⟩ := h.fanOut hk
    (fun id n => n.putConditional (delivered id) key data expectedVersion requestId now)
    (s.map.write (.putConditional key data expectedVersion requestId) now).1
    (codeOf (s.map.write (.putConditional key data expectedVersion requestId) now).2)
    (fun id n m up holds agree => call_doPut digests plain (.putConditional key data expectedVersion requestId) hk
      legible now up holds agree (putConditional_call n now (named key hk)))
    (VersionedMap.write_local (.putConditional key data expectedVersion requestId) now rfl).2.2
  have large : ¬(base.placementFor key opts.replicationFactor).length < opts.writeQuorum :=
    Nat.not_lt.mpr (enough key hk)
  have marked := fanned.markAll (fun code => if code = .ok ∨ code = .conflict then .healthy else .lagging)
    ((base.placementFor key opts.replicationFactor).map
      (·, codeOf (s.map.write (.putConditional key data expectedVersion requestId) now).2))
  unfold ObjectService.putConditional
  dsimp only
  rcases VersionedMap.write_ok_or_conflict s.map (.putConditional key data expectedVersion requestId) now with
    ⟨row, written⟩ | ⟨status, refused, conflict⟩
  · rw [written] at codes marked ⊢
    have code : codeOf (.ok row : StatusOr ObjectMetadata) = .ok := rfl
    rw [code] at codes marked
    have registered :=
      marked.register ⟨key, data.length, sha256Hex data, increment expectedVersion, 0, false, requestId⟩
    simp only [Coordinator.putConditional, h.placement, h.options, if_neg large, codes, ackedOf_uniform,
      if_true, marked.options, if_pos (enough key hk)]
    exact registered
  · rw [refused] at codes marked ⊢
    have none : ¬opts.writeQuorum ≤ ([] : List Bytes).length := by simp only [List.length_nil]; omega
    have some : (base.placementFor key opts.replicationFactor) ≠ [] := by
      intro empty
      have := enough key hk
      rw [empty, List.length_nil] at this
      omega
    have any : ((base.placementFor key opts.replicationFactor).map (·, StatusCode.conflict)).any
        (·.2 = .conflict) = true := by
      obtain ⟨id, member⟩ := List.exists_mem_of_ne_nil _ some
      simp only [List.any_map, List.any_eq_true]
      exact ⟨id, member, rfl⟩
    have code : codeOf (.error status : StatusOr ObjectMetadata) = .conflict := conflict
    have other : StatusCode.conflict ≠ .ok := by decide
    rw [code] at codes marked
    simp only [Coordinator.putConditional, h.options, h.placement, if_neg large, codes, ackedOf_uniform,
      if_neg other, marked.options, if_neg none, any, if_true, and_true]
    exact marked

omit digests named in
theorem get (hk : key ∈ K) (positive : 1 ≤ opts.writeQuorum) :
    Mirrors K base opts (c.get key).1 s ∧ (c.get key).2 = s.get key := by
  -- every replica gives the same answer, so the loop ends at the first or at the last with it
  have loop (c : Coordinator) (h : Mirrors K base opts c s) (last : Status) (ids : List Bytes)
      (some : ids ≠ []) (placed : ∀ id ∈ ids, id ∈ base.placementFor key opts.replicationFactor) :
      Mirrors K base opts (c.getLoop key ids last).1 s ∧ (c.getLoop key ids last).2 = s.map.read key Cell.data := by
    induction ids generalizing c last with
    | nil => exact absurd rfl some
    | cons id rest ih =>
        obtain ⟨n, m, found, up, holds, agree⟩ := h.placed hk (placed id List.mem_cons_self)
        have served : n.get key (delivered id) = s.map.read key Cell.data := by
          rw [← VersionedMap.read_local Cell.data agree, ← holds.get plain key]
          simp [StorageNode.get, up]
        have noted (health : ReplicaHealth) : Mirrors K base opts (c.markHealth id health) s := h.congr rfl rfl rfl
        unfold getLoop
        rw [found]
        dsimp only
        rw [served]
        cases answer : s.map.read key Cell.data with
        | ok data => exact ⟨noted .healthy, rfl⟩
        | error status =>
            dsimp only
            have kept : Mirrors K base opts
                (if status.code = .unavailable then c.markHealth id .failed
                else if status.code = .checksumMismatch then c.markHealth id .lagging else c) s := by
              split
              · exact noted .failed
              · split
                · exact noted .lagging
                · exact h
            cases rest with
            | nil => exact ⟨kept, rfl⟩
            | cons next rest =>
                rw [← answer]
                exact ih _ kept status (List.cons_ne_nil _ _) fun id member => placed id (List.mem_cons_of_mem _ member)
  unfold Coordinator.get ObjectService.get
  rw [h.lookup key]
  cases found : c.metadata.lookupObject key with
  | error status => exact ⟨h, rfl⟩
  | ok loc =>
      obtain ⟨here, live⟩ := MetadataRepository.lookupObject_ok.mp found
      have replicas := h.replicas key loc here live
      have some : loc.replicas ≠ [] := by
        intro empty
        have := enough key hk
        rw [← replicas, empty, List.length_nil] at this
        omega
      dsimp only [Except.map]
      rw [if_neg (by simpa using some)]
      exact loop c h _ loc.replicas some fun id member => replicas ▸ member

end Requests

theorem head (key : Bytes) : c.head key = s.head key := by
  unfold Coordinator.head ObjectService.head
  rw [h.lookup key]
  cases c.metadata.lookupObject key with
  | error status => rfl
  | ok loc => rfl

theorem list (pre : Bytes) : c.list pre = s.list pre := by
  unfold Coordinator.list ObjectService.list MetadataRepository.listObjects
  rw [h.locations, Std.ExtTreeMap.toList_map, List.filter_map, List.map_map]
  dsimp only
  rw [List.map_map]
  rfl

/-- The control plane buries the location, and the node that had nothing to delete
counts as well. -/
theorem removeObject (key : Bytes) :
    Mirrors K base opts { c with metadata := (c.metadata.removeObject key).1 }
        { (s.delete key).1 with map := s.map } ∧
      ObjectAnswer.status (c.metadata.removeObject key).2 = (s.delete key).2 := by
  have found := h.lookup key
  unfold MetadataRepository.lookupObject at found
  unfold MetadataRepository.removeObject ObjectService.delete
  cases here : c.metadata.objects[key]? with
  | none =>
      rw [here] at found
      rw [found]
      exact ⟨h, rfl⟩
  | some loc =>
      rw [here] at found
      dsimp only at found ⊢
      cases gone : loc.deleted with
      | true =>
          rw [gone, if_pos rfl] at found
          rw [found, if_pos rfl]
          exact ⟨h, rfl⟩
      | false =>
          rw [gone, if_neg Bool.false_ne_true] at found
          rw [found, if_neg Bool.false_ne_true]
          exact ⟨h.setLocation rfl (fun live => Bool.noConfusion live), rfl⟩

theorem delete (hk : key ∈ K)
    (enough : opts.writeQuorum ≤ (base.placementFor key opts.replicationFactor).length) :
    Mirrors K base opts (c.delete key delivered).1 (s.delete key).1 ∧
      ObjectAnswer.status (c.delete key delivered).2 = (s.delete key).2 := by
  obtain ⟨codes, fanned⟩ := h.fanOut hk (fun id n => n.delete (delivered id) key) (s.map.delete key).1
    (s.map.delete key).2.code (fun id n m up holds agree => call_delete up holds agree)
    (VersionedMap.delete_local rfl).2.2
  have known : (base.placementFor key opts.replicationFactor).filter (fun id => (c.clients[id]?).isSome) =
      base.placementFor key opts.replicationFactor :=
    List.filter_eq_self.mpr (h.present key hk)
  have counted : ((base.placementFor key opts.replicationFactor).map (·, (s.map.delete key).2.code)).filter
      (fun result => result.2 = .ok ∨ result.2 = .notFound) =
      (base.placementFor key opts.replicationFactor).map (·, (s.map.delete key).2.code) := by
    rw [List.filter_eq_self]
    intro result member
    obtain ⟨id, -, rfl⟩ := List.mem_map.mp member
    rcases s.map.delete_status key with done | missing
    · simp [done, Status.success]
    · simp [missing]
  have marked := fanned.markAll (fun code => if code = .ok ∨ code = .notFound then .healthy else .failed)
    ((base.placementFor key opts.replicationFactor).map (·, (s.map.delete key).2.code))
  have large : ¬(base.placementFor key opts.replicationFactor).length < opts.writeQuorum := Nat.not_lt.mpr enough
  have removed := marked.removeObject key
  simp only [Coordinator.delete, h.options, h.placement, known, codes, counted, List.length_map, marked.options,
    if_neg large]
  refine ⟨?_, ?_⟩
  · have same : { ({ s with map := (s.map.delete key).1 }.delete key).1 with map := (s.map.delete key).1 } =
        (s.delete key).1 := by
      unfold ObjectService.delete ObjectService.lookup
      dsimp only
      split <;> rfl
    rw [← same]
    exact removed.1.congr rfl marked.options.symm rfl
  · have same : ({ s with map := (s.map.delete key).1 }.delete key).2 = (s.delete key).2 := by
      unfold ObjectService.delete ObjectService.lookup
      dsimp only
      split <;> rfl
    rw [← same]
    exact removed.2

end Mirrors

/-! ## A new cluster -/

/-- Only the node that is added gets places on the ring. -/
theorem owners_addNode (r : ConsistentHashRing) (id : Bytes) {owner : Bytes}
    (member : owner ∈ (r.addNode id).owners) : owner = id ∨ owner ∈ r.owners := by
  by_cases known : id ∈ r.physicalNodes
  · rw [ConsistentHashRing.addNode, if_pos known] at member
    exact .inr member
  · obtain ⟨pos, found⟩ := ConsistentHashRing.mem_owners.mp member
    rw [ConsistentHashRing.getElem?_addNode known, Option.or_eq_some_iff] at found
    rcases found with old | ⟨-, new⟩
    · exact .inr (ConsistentHashRing.mem_owners.mpr ⟨pos, old⟩)
    · split at new
      · exact .inl (Option.some.inj new).symm
      · contradiction

/-- Every node on the ring of a new cluster has a client, and every client an
empty store that can be reached. -/
theorem fresh_clients (vnodes : ℕ) (members : List Bytes) (opts : Options) :
    (∀ id ∈ (fresh vnodes members opts).metadata.cluster.ring.owners,
      ((fresh vnodes members opts).clients[id]?).isSome = true) ∧
    ∀ (id : Bytes) (n : StorageNode), (fresh vnodes members opts).clients[id]? = some n →
      n.fault = none ∧ n.store = .openStore .empty 0 := by
  have each (cluster : MetadataRepository × OrderedMap Bytes StorageNode)
      (owned : ∀ id ∈ cluster.1.cluster.ring.owners, (cluster.2[id]?).isSome = true)
      (empty : ∀ (id : Bytes) (n : StorageNode), cluster.2[id]? = some n →
        n.fault = none ∧ n.store = .openStore .empty 0) :
      (∀ id ∈ (members.foldl addMember cluster).1.cluster.ring.owners,
        ((members.foldl addMember cluster).2[id]?).isSome = true) ∧
      ∀ (id : Bytes) (n : StorageNode), (members.foldl addMember cluster).2[id]? = some n →
        n.fault = none ∧ n.store = .openStore .empty 0 := by
    induction members generalizing cluster with
    | nil => exact ⟨owned, empty⟩
    | cons member rest ih =>
        refine ih (addMember cluster member) (fun id owner => ?_) (fun id n found => ?_)
        · simp only [addMember, OrderedMap.lookup_insert]
          split
          · rfl
          · next other =>
              refine owned id ?_
              simp only [addMember, MetadataRepository.addNode, ClusterMap.addOrUpdateNode] at owner
              split at owner
              · exact owner
              · rcases owners_addNode _ _ owner with same | old
                · exact absurd same.symm other
                · exact old
        · simp only [addMember, OrderedMap.lookup_insert] at found
          split at found
          · cases found
            exact ⟨rfl, rfl⟩
          · exact empty id n found
  refine each (.create vnodes, ∅) (fun id owner => ?_) (fun id n found => ?_)
  · obtain ⟨pos, found⟩ := ConsistentHashRing.mem_owners.mp owner
    simp [MetadataRepository.create, ClusterMap.create, ConsistentHashRing.create] at found
  · simp at found

theorem Mirrors.start (K : Set Bytes) (vnodes : ℕ) (members : List Bytes) (opts : Options) :
    Mirrors K (fresh vnodes members opts).metadata.cluster opts (fresh vnodes members opts) .empty := by
  obtain ⟨owned, empty⟩ := fresh_clients vnodes members opts
  have objects := fresh_objects vnodes members opts
  refine ⟨rfl, rfl, fun key _ id member => ?_, fun id n found => ?_, ?_, fun key loc found => ?_⟩
  · exact owned id (ConsistentHashRing.lookupReplicas_subset _ key opts.replicationFactor id member)
  · obtain ⟨up, store⟩ := empty id n found
    exact ⟨up, .empty, store ▸ Holds.start K 0, fun _ _ _ => rfl⟩
  · rw [objects]
    exact Std.ExtTreeMap.ext_getElem? fun {key} => by simp [ObjectService.empty]
  · rw [objects] at found
    simp at found

end Coordinator

/-! ## Every client -/

/-- The request stays within the keys of `K` and its texts read back whole. -/
def ObjectRequest.Plain (K : Set Bytes) : ObjectRequest → Prop
  | .put key _ _ | .get key | .head key | .delete key => key ∈ K
  | .putConditional key _ _ requestId _ => key ∈ K ∧ (0 : UInt8) ∉ requestId
  | .list _ => True

theorem Coordinator.Mirrors.serve {K : Set Bytes} {base : ClusterMap} {opts : Options} {c : Coordinator}
    {s : ObjectService} (digests : Set.InjOn keyDigest K) (plain : ∀ key ∈ K, key ≠ [] ∧ (0 : UInt8) ∉ key)
    (positive : 1 ≤ opts.writeQuorum)
    (enough : ∀ key ∈ K, opts.writeQuorum ≤ (base.placementFor key opts.replicationFactor).length)
    (h : Mirrors K base opts c s) {net : Bytes → Delivery} (answered : ∀ id, net id = .acknowledged)
    {req : ObjectRequest} (asked : req.Plain K) :
    Mirrors K base opts (c.serve net req).1 (s.serve req).1 ∧ (c.serve net req).2 = (s.serve req).2 := by
  obtain rfl : net = delivered := funext answered
  have named : ∀ key ∈ K, key ≠ [] := fun key hk => (plain key hk).1
  have legible : ∀ key ∈ K, (0 : UInt8) ∉ key := fun key hk => (plain key hk).2
  cases req with
  | put key data now => exact h.put digests legible named enough asked data now
  | putConditional key data expectedVersion requestId now =>
      exact h.putConditional digests legible named enough asked.1 data expectedVersion positive asked.2 now
  | get key =>
      obtain ⟨after, same⟩ := h.get legible enough asked positive
      exact ⟨after, congrArg ObjectAnswer.bytes same⟩
  | head key => exact ⟨h, congrArg ObjectAnswer.row (h.head key)⟩
  | list pre => exact ⟨h, congrArg ObjectAnswer.rows (h.list pre)⟩
  | delete key => exact h.delete asked (enough key asked)

/-- A request to the coordinator, and what becomes of its call to each node. -/
structure Sent where
  req : ObjectRequest
  net : Bytes → Delivery

/-- A coordinator whose calls are all answered serves every sequence of requests
as one map and one registry do. Members, replication factor and quorum do not
show, as long as each key finds a quorum of nodes. A call whose key or id is no
UTF-8 text or whose message is too large for the RPC library is not answered. -/
theorem replication_transparent (vnodes : ℕ) (members : List Bytes) (opts : Options) {K : Set Bytes}
    (digests : Set.InjOn keyDigest K) (plain : ∀ key ∈ K, key ≠ [] ∧ (0 : UInt8) ∉ key)
    (positive : 1 ≤ opts.writeQuorum)
    (enough : ∀ key ∈ K, opts.writeQuorum ≤ ((Coordinator.fresh vnodes members opts).metadata.placementFor key
      opts.replicationFactor).length)
    {sent : List Sent} (fine : ∀ x ∈ sent, x.req.Plain K)
    (answered : ∀ x ∈ sent, ∀ id, x.net id = .acknowledged) :
    outputs (fun c x => Coordinator.serve c x.net x.req) (Coordinator.fresh vnodes members opts) sent =
      outputs (fun s x => ObjectService.serve s x.req) .empty sent := by
  apply outputs_eq _ _ (Coordinator.Mirrors.start K vnodes members opts)
  intro x member c s mirrors
  exact mirrors.serve digests plain positive enough (answered x member) (fine x member)

/-- A conditional write comes again after its object was deleted. -/
def lateRetry : List Sent :=
  [.putConditional [107] [120] 0 [114] 5, .delete [107], .get [107], .putConditional [107] [120] 0 [114] 6,
    .head [107], .get [107]].map (⟨·, delivered⟩)

/-- The answers of one map. -/
def lateRetryAnswers : List ObjectAnswer := outputs (fun s x => ObjectService.serve s x.req) .empty lateRetry

/-- The retry brings the location back and not the bytes, on two nodes as on one
map. -/
theorem replication_transparent_lateRetry :
    outputs (fun c x => Coordinator.serve c x.net x.req) (Coordinator.fresh 1 [text "a", text "b"] ⟨2, 2⟩) lateRetry =
      lateRetryAnswers ∧
    lateRetryAnswers[2]? = some (.bytes (.error (MetadataRepository.noMetadata [107]))) ∧
    lateRetryAnswers[4]? = some (.row (.ok ⟨[107], 1, sha256Hex [120], 1, 0, false, []⟩)) ∧
    lateRetryAnswers[5]? = some (.bytes (.error (.notFound (text "tombstoned: " ++ [107])))) := by
  have plain : ∀ key ∈ ({[107]} : Set Bytes), key ≠ [] ∧ (0 : UInt8) ∉ key := by
    rintro _ rfl
    decide
  have enough : ∀ key ∈ ({[107]} : Set Bytes),
      2 ≤ ((Coordinator.fresh 1 [text "a", text "b"] ⟨2, 2⟩).metadata.placementFor key 2).length := by
    rintro _ rfl
    decide +kernel
  have fine : ∀ x ∈ lateRetry, x.req.Plain {[107]} := by
    simp [lateRetry, ObjectRequest.Plain]
  have answered : ∀ x ∈ lateRetry, ∀ id, x.net id = .acknowledged := by
    simp [lateRetry]
  exact ⟨replication_transparent 1 [text "a", text "b"] ⟨2, 2⟩ (Set.injOn_singleton _ _) plain (by decide) enough fine
    answered, rfl, rfl, rfl⟩

end Dos.Network
