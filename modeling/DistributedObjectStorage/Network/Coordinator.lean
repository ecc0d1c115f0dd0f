import DistributedObjectStorage.Cluster.MetadataRepository
import DistributedObjectStorage.Library.Transition
import DistributedObjectStorage.Storage.LocalObjectStore

/-!
# The coordinator and its storage nodes

The control plane is in process. What the network does to each write is an
argument, and a node that cannot be reached answers every call with an RPC
error. Calls to different nodes run in parallel and do not interfere.
-/
namespace Dos.Network
open ControlPlane Storage Transition

/-- A storage node behind its client. `fault` is the RPC error while the node
cannot be reached. -/
structure StorageNode where
  address : Bytes
  store : LocalObjectStore
  fault : Option Bytes

/-- What becomes of a call to a node that is up. -/
inductive Delivery where
  | acknowledged
  | unacknowledged (error : Bytes)
  | lost (error : Bytes)
  deriving DecidableEq, Repr

namespace StorageNode

def rpcFailed (n : StorageNode) (rpc error : Bytes) : Status :=
  .unavailable (rpc ++ text " RPC to " ++ n.address ++ text " failed: " ++ error)

/-- One RPC that may change the store. -/
def call {α : Type} (n : StorageNode) (rpc : Bytes) (delivery : Delivery)
    (serve : LocalObjectStore → LocalObjectStore × StatusOr α) : StorageNode × StatusOr α :=
  match n.fault, delivery with
  | some error, _ => (n, .error (n.rpcFailed rpc error))
  | none, .lost error => (n, .error (n.rpcFailed rpc error))
  | none, .unacknowledged error =>
      ({ n with store := (serve n.store).1 }, .error (n.rpcFailed rpc error))
  | none, .acknowledged => ({ n with store := (serve n.store).1 }, (serve n.store).2)

def put (n : StorageNode) (delivery : Delivery) (key data : Bytes) (version : ℕ) (now : Int) :
    StorageNode × StatusOr ObjectMetadata :=
  n.call (text "Put") delivery fun store =>
    if version = 0 then store.put key data now else store.putWithVersion key data version now

def putConditional (n : StorageNode) (delivery : Delivery) (key data : Bytes) (expectedVersion : ℕ)
    (requestId : Bytes) (now : Int) : StorageNode × StatusOr ObjectMetadata :=
  n.call (text "Put") delivery fun store => store.putConditional key data expectedVersion requestId now

def delete (n : StorageNode) (delivery : Delivery) (key : Bytes) : StorageNode × StatusOr Unit :=
  n.call (text "Delete") delivery fun store =>
    let (store, status) := store.delete key
    (store, if status.isOk then .ok () else .error status)

/-- A call that changes nothing, so an answer that is lost is like a lost call. -/
def get (n : StorageNode) (key : Bytes) (delivery : Delivery := .acknowledged) : StatusOr Bytes :=
  match n.fault, delivery with
  | some error, _ | none, .lost error | none, .unacknowledged error => .error (n.rpcFailed (text "Get") error)
  | none, .acknowledged => n.store.get key

end StorageNode

/-- The network answers every call to a node that is up. -/
def delivered (_ : Bytes) : Delivery := .acknowledged

@[simp] theorem delivered_apply (id : Bytes) : delivered id = .acknowledged := rfl

/-- The last-known state of a replica. -/
inductive ReplicaHealth where
  | healthy | lagging | failed
  deriving DecidableEq, Repr

structure Options where
  replicationFactor : ℕ
  writeQuorum : ℕ
  deriving DecidableEq, Repr

structure Coordinator where
  metadata : MetadataRepository
  clients : OrderedMap Bytes StorageNode
  opts : Options
  health : OrderedMap Bytes ReplicaHealth

/-- The code that a result carries. -/
def codeOf {α : Type} : StatusOr α → StatusCode
  | .ok _ => .ok
  | .error status => status.code

namespace Coordinator

def create (metadata : MetadataRepository) (clients : OrderedMap Bytes StorageNode) (opts : Options) :
    Coordinator where
  metadata := metadata
  clients := clients
  opts := opts
  health := clients.keys.foldl (fun health id => health.insert id .healthy) ∅

def markHealth (c : Coordinator) (id : Bytes) (h : ReplicaHealth) : Coordinator :=
  { c with health := c.health.insert id h }

/-- One future of the fan-out. A node without a client counts as unavailable. -/
def callReplica {α : Type} (c : Coordinator) (id : Bytes)
    (rpc : StorageNode → StorageNode × StatusOr α) : Coordinator × StatusCode :=
  match c.clients[id]? with
  | none => (c, .unavailable)
  | some n => ({ c with clients := c.clients.insert id (rpc n).1 }, codeOf (rpc n).2)

/-- The fan-out, with the codes in placement order. -/
def fanOut {α : Type} (c : Coordinator) (rpc : Bytes → StorageNode → StorageNode × StatusOr α) :
    List Bytes → Coordinator × List (Bytes × StatusCode)
  | [] => (c, [])
  | id :: rest =>
      let (c, code) := c.callReplica id (rpc id)
      let (c, codes) := c.fanOut rpc rest
      (c, (id, code) :: codes)

def markAll (c : Coordinator) (health : StatusCode → ReplicaHealth)
    (codes : List (Bytes × StatusCode)) : Coordinator :=
  codes.foldl (fun c result => c.markHealth result.1 (health result.2)) c

def ackedOf (codes : List (Bytes × StatusCode)) : List Bytes :=
  (codes.filter (·.2 = .ok)).map (·.1)

/-- Record a quorum write with the control plane. -/
def register (c : Coordinator) (row : ObjectMetadata) (acked : List Bytes) :
    Coordinator × StatusOr ObjectMetadata :=
  let loc : ObjectLocation := ⟨row.key, row.version, row.checksum, row.size, false, acked⟩
  let (metadata, status) := c.metadata.registerObject loc
  ({ c with metadata := metadata }, if status.isOk then .ok row else .error status)

def tooSmall : Status := .unavailable (text "cluster too small to satisfy write quorum")

/-- The version that the next plain write of the key takes. -/
def nextVersion (c : Coordinator) (key : Bytes) : ℕ :=
  match c.metadata.lookupObject key with
  | .ok loc => increment loc.version
  | .error _ => 1

def put (c : Coordinator) (key data : Bytes) (net : Bytes → Delivery) (now : Int) :
    Coordinator × StatusOr ObjectMetadata :=
  let replicas := c.metadata.placementFor key c.opts.replicationFactor
  if replicas.length < c.opts.writeQuorum then (c, .error tooSmall)
  else
    let version := c.nextVersion key
    let (c, codes) := c.fanOut (fun id n => n.put (net id) key data version now) replicas
    let c := c.markAll (fun code => if code = .ok then .healthy else .lagging) codes
    let acked := ackedOf codes
    if acked.length < c.opts.writeQuorum then
      (c, .error (.unavailable (text "write quorum not met: " ++ text (toString acked.length) ++
        text "/" ++ text (toString c.opts.writeQuorum) ++ text " acks")))
    else c.register ⟨key, data.length, sha256Hex data, version, 0, false, []⟩ acked

def putConditional (c : Coordinator) (key data : Bytes) (expectedVersion : ℕ) (requestId : Bytes)
    (net : Bytes → Delivery) (now : Int) : Coordinator × StatusOr ObjectMetadata :=
  let replicas := c.metadata.placementFor key c.opts.replicationFactor
  if replicas.length < c.opts.writeQuorum then (c, .error tooSmall)
  else
    let (c, codes) :=
      c.fanOut (fun id n => n.putConditional (net id) key data expectedVersion requestId now) replicas
    let c := c.markAll
      (fun code => if code = .ok ∨ code = .conflict then .healthy else .lagging) codes
    let acked := ackedOf codes
    if c.opts.writeQuorum ≤ acked.length then
      c.register ⟨key, data.length, sha256Hex data, increment expectedVersion, 0, false, requestId⟩ acked
    else if codes.any (·.2 = .conflict) then
      (c, .error (.conflict (text "conditional write rejected: expected version " ++
        text (toString expectedVersion))))
    else (c, .error (.unavailable (text "write quorum not met for conditional put")))

/-- The loop of `Get`: the replicas left to try, and the last failure. -/
def getLoop (c : Coordinator) (key : Bytes) (replicas : List Bytes) (last : Status)
    (net : Bytes → Delivery := delivered) : Coordinator × StatusOr Bytes :=
  match replicas with
  | [] => (c, .error last)
  | id :: rest =>
      match c.clients[id]? with
      | none => c.getLoop key rest last net
      | some n =>
          match n.get key (net id) with
          | .ok data => (c.markHealth id .healthy, .ok data)
          | .error status =>
              let c :=
                if status.code = .unavailable then c.markHealth id .failed
                else if status.code = .checksumMismatch then c.markHealth id .lagging
                else c
              c.getLoop key rest status net

def get (c : Coordinator) (key : Bytes) (net : Bytes → Delivery := delivered) : Coordinator × StatusOr Bytes :=
  match c.metadata.lookupObject key with
  | .error status => (c, .error status)
  | .ok loc =>
      if loc.replicas.isEmpty then (c, .error (.unavailable (text "no replicas recorded for key")))
      else c.getLoop key loc.replicas (.notFound (text "object not found on any replica: " ++ key)) net

def head (c : Coordinator) (key : Bytes) : StatusOr ObjectMetadata :=
  match c.metadata.lookupObject key with
  | .error status => .error status
  | .ok loc => .ok ⟨loc.key, loc.size, loc.checksum, loc.version, 0, loc.deleted, []⟩

def list (c : Coordinator) (pre : Bytes) : StatusOr (List ObjectMetadata) :=
  match c.metadata.listObjects pre with
  | .error status => .error status
  | .ok locs => .ok (locs.map fun loc => ⟨loc.key, loc.size, loc.checksum, loc.version, 0, false, []⟩)

def delete (c : Coordinator) (key : Bytes) (net : Bytes → Delivery) : Coordinator × Status :=
  let replicas := c.metadata.placementFor key c.opts.replicationFactor
  let known := replicas.filter fun id => (c.clients[id]?).isSome
  let (c, codes) := c.fanOut (fun id n => n.delete (net id) key) known
  let c := c.markAll (fun code => if code = .ok ∨ code = .notFound then .healthy else .failed) codes
  let acks := (codes.filter fun result => result.2 = .ok ∨ result.2 = .notFound).length
  if acks < c.opts.writeQuorum then (c, .unavailable (text "delete quorum not met"))
  else
    let (metadata, status) := c.metadata.removeObject key
    ({ c with metadata := metadata }, status)

end Coordinator

/-! ## Runs -/

/-- Operations one after another, between changes of what the nodes can do. A
restart opens the store again on the disk it left. -/
inductive ClusterAction where
  | put (key data : Bytes) (net : Bytes → Delivery) (now : Int)
  | putConditional (key data : Bytes) (expectedVersion : ℕ) (requestId : Bytes)
      (net : Bytes → Delivery) (now : Int)
  | get (key : Bytes) (net : Bytes → Delivery)
  | delete (key : Bytes) (net : Bytes → Delivery)
  | setFault (id : Bytes) (fault : Option Bytes)
  | restart (id : Bytes) (now : Int)

namespace Coordinator

def updateNode (c : Coordinator) (id : Bytes) (f : StorageNode → StorageNode) : Coordinator :=
  match c.clients[id]? with
  | none => c
  | some n => { c with clients := c.clients.insert id (f n) }

def exec (c : Coordinator) : ClusterAction → Coordinator
  | .put key data net now => (c.put key data net now).1
  | .putConditional key data expectedVersion requestId net now =>
      (c.putConditional key data expectedVersion requestId net now).1
  | .get key net => (c.get key net).1
  | .delete key net => (c.delete key net).1
  | .setFault id fault => c.updateNode id fun n => { n with fault := fault }
  | .restart id now => c.updateNode id fun n => { n with store := .openStore n.store.disk now }

/-- A new member: known to the control plane, reachable, with an empty store. -/
def addMember (cluster : MetadataRepository × OrderedMap Bytes StorageNode) (id : Bytes) :
    MetadataRepository × OrderedMap Bytes StorageNode :=
  (cluster.1.addNode ⟨id, id, .healthy, 0, 0⟩,
    cluster.2.insert id ⟨id, .openStore .empty 0, none⟩)

def fresh (vnodes : ℕ) (members : List Bytes) (opts : Options) : Coordinator :=
  let (metadata, clients) := members.foldl addMember (.create vnodes, ∅)
  create metadata clients opts

def system (vnodes : ℕ) (members : List Bytes) (opts : Options) : System Coordinator :=
  .guarded exec (fun _ _ => True) (fresh vnodes members opts)

end Coordinator
end Dos.Network
