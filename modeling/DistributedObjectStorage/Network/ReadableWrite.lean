import DistributedObjectStorage.Cluster.Placement
import DistributedObjectStorage.Network.ConditionalRace
import DistributedObjectStorage.Network.VersionOrder

/-!
# Reading back a conditional write

A node that recognises a retry answers Ok from its row, also when the row is a
tombstone, and the coordinator registers the object again. So a success can be
read back as long as one of the nodes that acknowledged it has not buried it.
-/
namespace Dos.Network
open ControlPlane Storage Transition

namespace ConditionalRequest

def write (req : ConditionalRequest) : WriteRequest :=
  .putConditional req.key req.data req.expectedVersion req.requestId

/-- A non-empty id names one request. -/
def Identified (requests : List ConditionalRequest) : Prop :=
  ∀ req ∈ requests, ∀ req' ∈ requests, req.requestId ≠ [] → req.requestId = req'.requestId → req = req'

/-- No id of a key, cut at its first zero byte, is another id of the key. -/
def Legible (requests : List ConditionalRequest) : Prop :=
  ∀ req ∈ requests, ∀ req' ∈ requests, req.key = req'.key → req'.requestId ≠ [] →
    cString req.requestId = req'.requestId → req.requestId = req'.requestId

/-- Different keys have different payload files. -/
def Separate (requests : List ConditionalRequest) : Prop :=
  ∀ req ∈ requests, ∀ req' ∈ requests, keyDigest req.key = keyDigest req'.key → req.key = req'.key

instance (requests : List ConditionalRequest) : Decidable (Identified requests) :=
  inferInstanceAs (Decidable (∀ req ∈ requests, ∀ req' ∈ requests, req.requestId ≠ [] →
    req.requestId = req'.requestId → req = req'))

instance (requests : List ConditionalRequest) : Decidable (Legible requests) :=
  inferInstanceAs (Decidable (∀ req ∈ requests, ∀ req' ∈ requests, req.key = req'.key →
    req'.requestId ≠ [] → cString req.requestId = req'.requestId → req.requestId = req'.requestId))

instance (requests : List ConditionalRequest) : Decidable (Separate requests) :=
  inferInstanceAs (Decidable (∀ req ∈ requests, ∀ req' ∈ requests,
    keyDigest req.key = keyDigest req'.key → req.key = req'.key))

end ConditionalRequest

open ConditionalRequest

namespace ClusterAction

def request : ClusterAction → Option ConditionalRequest
  | .putConditional key data expectedVersion requestId _ _ => some ⟨key, data, expectedVersion, requestId⟩
  | _ => none

/-- The calls of the runs, and what the network does to the nodes between them. -/
def sequential : ClusterAction → Bool
  | .putConditional .. | .delete .. | .get .. | .setFault .. => true
  | .put .. | .restart .. => false

end ClusterAction

namespace Coordinator

def run (vnodes : ℕ) (members : List Bytes) (opts : Options) (acts : List ClusterAction) : Coordinator :=
  acts.foldl exec (fresh vnodes members opts)

def submit (c : Coordinator) (req : ConditionalRequest) (net : Bytes → Delivery) (now : Int) :
    Coordinator × StatusOr ObjectMetadata :=
  c.putConditional req.key req.data req.expectedVersion req.requestId net now

/-- The cluster with every node reachable. -/
def allReachable (c : Coordinator) : Coordinator := c.withFaults fun _ => none

/-- The node answers the call with Ok. -/
def Acknowledges (c : Coordinator) (req : ConditionalRequest) (net : Bytes → Delivery) (now : Int)
    (id : Bytes) : Prop :=
  ∃ n ∈ c.clients[id]?, codeOf
    (n.putConditional (net id) req.key req.data req.expectedVersion req.requestId now).2 = .ok

/-- The node recognises the request in a tombstone. -/
def Buried (c : Coordinator) (req : ConditionalRequest) (id : Bytes) : Prop :=
  ∃ n ∈ c.clients[id]?, (n.store.disk.slot req.key).Recognises req.write ∧
    (n.store.disk.slot req.key).Dead

instance (c : Coordinator) (req : ConditionalRequest) (net : Bytes → Delivery) (now : Int) (id : Bytes) :
    Decidable (c.Acknowledges req net now id) :=
  inferInstanceAs (Decidable (∃ n ∈ c.clients[id]?, codeOf
    (n.putConditional (net id) req.key req.data req.expectedVersion req.requestId now).2 = .ok))

instance (c : Coordinator) (req : ConditionalRequest) (id : Bytes) : Decidable (c.Buried req id) :=
  inferInstanceAs (Decidable (∃ n ∈ c.clients[id]?,
    (req.requestId ≠ [] ∧ ∃ row ∈ (n.store.disk.slot req.key).row, cString row.requestId = req.requestId) ∧
      ∀ row ∈ (n.store.disk.slot req.key).row, row.deleted = true))

end Coordinator

/-! ## One store -/

/-- A row with a request id was written by one of the requests, and as long as it
is not a tombstone its bytes are there. -/
def Signed (requests : List ConditionalRequest) (key : Bytes) (p : Slot) : Prop :=
  ∀ row ∈ p.row, row.requestId ≠ [] → ∃ req ∈ requests, req.key = key ∧ req.requestId = row.requestId ∧
    row.checksum = sha256Hex req.data ∧ (row.deleted = false → p.file = some req.data)

def StoreSigned (requests : List ConditionalRequest) (store : LocalObjectStore) : Prop :=
  ∀ req ∈ requests, Signed requests req.key (store.disk.slot req.key)

/-- A conditional write is refused, recognised as a retry, or done. -/
inductive Conditionally (store : LocalObjectStore) (req : ConditionalRequest) :
    LocalObjectStore × StatusOr ObjectMetadata → Prop
  | refused {result} : codeOf result ≠ .ok → Conditionally store req (store, result)
  | recognised {row} : (store.disk.slot req.key).Recognises req.write →
      Conditionally store req (store, .ok row)
  | written {store' row} : ¬(store.disk.slot req.key).Recognises req.write →
      row.requestId = req.requestId → row.checksum = sha256Hex req.data → row.deleted = false →
      (store'.disk.slot req.key).row = some row → (store'.disk.slot req.key).file = some req.data →
      (∀ other, keyDigest req.key ≠ keyDigest other →
        (store'.disk.slot other).row = (store.disk.slot other).row ∧
          (store'.disk.slot other).file = (store.disk.slot other).file) →
      Conditionally store req (store', .ok row)

section Store
variable {requests : List ConditionalRequest} {store : LocalObjectStore} {req : ConditionalRequest}
  {key : Bytes} {now : Int}

theorem Signed.congr {p p' : Slot} (signed : Signed requests key p) (row : p'.row = p.row)
    (file : p'.file = p.file) : Signed requests key p' := by
  unfold Signed
  rw [row, file]
  exact signed

theorem putConditional_conditionally (store : LocalObjectStore) (req : ConditionalRequest) (now : Int) :
    Conditionally store req
      (store.putConditional req.key req.data req.expectedVersion req.requestId now) := by
  unfold LocalObjectStore.putConditional
  split
  · exact .refused (by decide)
  · change Conditionally store req (store.doPut req.write now)
    unfold LocalObjectStore.doPut
    by_cases known : (store.disk.slot req.key).Recognises req.write
    · obtain ⟨retry, row, found, same⟩ := known
      have plan : planPut store.disk req.write now = _ := planPut_recognised retry found same
      rw [plan]
      exact .recognised ⟨retry, row, found, same⟩
    · cases plan : planPut store.disk req.write now with
      | answer result =>
          refine .refused ?_
          have new : planPut store.disk req.write now = planWrite req.write _ now := planPut_new known
          have refusal := new.symm.trans plan
          unfold planWrite at refusal
          split at refusal
          · cases refusal
            exact fun ok => StatusCode.noConfusion ok
          · cases refusal
      | write row =>
          obtain ⟨_, _, rfl⟩ := planPut_newRow plan
          refine .written known rfl rfl rfl ?_ ?_ fun other ne => ⟨?_, ?_⟩
          · exact OrderedMap.lookup_insert_self _ _ _
          · exact OrderedMap.lookup_insert_self _ _ _
          · exact OrderedMap.lookup_insert_ne _ _ fun same => ne (congrArg keyDigest same)
          · exact OrderedMap.lookup_insert_ne _ _ ne

/-- The effect on the rows and files of the store. -/
theorem StoreSigned.putConditional (signed : StoreSigned requests store) (separate : Separate requests)
    (member : req ∈ requests) (now : Int) : StoreSigned requests
      (store.putConditional req.key req.data req.expectedVersion req.requestId now).1 := by
  have effect := putConditional_conditionally store req now
  generalize store.putConditional req.key req.data req.expectedVersion req.requestId now = after at effect
  cases effect with
  | refused _ => exact signed
  | recognised _ => exact signed
  | written _ id sum live row file frame =>
      intro other known
      by_cases same : req.key = other.key
      · intro current found _
        rw [← same] at found ⊢
        cases row.symm.trans found
        exact ⟨req, member, rfl, id.symm, sum, fun _ => file⟩
      · obtain ⟨rowKept, fileKept⟩ :=
          frame other.key fun digest => same (separate req member other known digest)
        exact (signed other known).congr rowKept fileKept

theorem delete_slot (store : LocalObjectStore) (key other : Bytes) :
    ((store.delete key).1.disk.slot other).row = ((store.disk.deleteRow key).1.slot other).row ∧
      ((store.delete key).1.disk.slot other).file = (store.disk.slot other).file := by
  unfold LocalObjectStore.delete
  simp only
  split <;> exact ⟨rfl, rfl⟩

/-- A delete keeps the id of the row it buries. -/
theorem StoreSigned.delete (signed : StoreSigned requests store) (key : Bytes) :
    StoreSigned requests (store.delete key).1 := by
  intro other known row found given
  obtain ⟨rows, files⟩ := delete_slot store key other.key
  rw [files]
  obtain ⟨old, before, rfl | rfl⟩ := Disk.deleteRow_row (rows.symm.trans found)
  · exact signed other known row before given
  · obtain ⟨req, member, named, id, sum, _⟩ := signed other known old before given
    exact ⟨req, member, named, id, sum, by rintro ⟨⟩⟩

/-- A recognised retry is the request that wrote the row. -/
theorem StoreSigned.recognised (signed : StoreSigned requests store) (identified : Identified requests)
    (legible : Legible requests) (member : req ∈ requests)
    (known : (store.disk.slot req.key).Recognises req.write) :
    ∃ row, (store.disk.slot req.key).row = some row ∧ row.checksum = sha256Hex req.data ∧
      (row.deleted = false → (store.disk.slot req.key).file = some req.data) := by
  obtain ⟨retry, row, found, same⟩ := known
  have given : row.requestId ≠ [] := by
    intro empty
    rw [empty] at same
    exact retry same.symm
  obtain ⟨writer, inside, key, id, sum, file⟩ := signed req member row found given
  have cut : writer.requestId = req.requestId :=
    legible writer inside req member key retry (id ▸ same)
  obtain rfl : writer = req := identified writer inside req member (cut ▸ retry) cut
  exact ⟨row, found, sum, file⟩

/-- What a store answers to `Get` after it acknowledged the request: nothing from
a tombstone, and otherwise its bytes. -/
theorem StoreSigned.get_acknowledged (signed : StoreSigned requests store) (identified : Identified requests)
    (legible : Legible requests) (member : req ∈ requests)
    (ok : codeOf (store.putConditional req.key req.data req.expectedVersion req.requestId now).2 = .ok) :
    let after := (store.putConditional req.key req.data req.expectedVersion req.requestId now).1
    ((store.disk.slot req.key).Recognises req.write ∧ (store.disk.slot req.key).Dead →
        (after.get req.key).toOption = none) ∧
      (¬((store.disk.slot req.key).Recognises req.write ∧ (store.disk.slot req.key).Dead) →
        (after.get req.key).toOption = some req.data) := by
  have effect := putConditional_conditionally store req now
  generalize store.putConditional req.key req.data req.expectedVersion req.requestId now = after at effect ok
  cases effect with
  | refused failed => exact absurd ok failed
  | recognised known =>
      obtain ⟨row, found, sum, file⟩ := signed.recognised identified legible member known
      refine ⟨fun buried => ?_, fun kept => ?_⟩
      · have gone := Disk.get_of_view (Disk.view_dead found (buried.2 row found))
        rw [LocalObjectStore.get, gone]
        rfl
      · have live : row.deleted = false := by
          by_contra dead
          refine kept ⟨known, fun current here => ?_⟩
          cases found.symm.trans here
          simpa using dead
        have read := Disk.get_of_view (Disk.view_live found live (file live) sum.symm)
        rw [LocalObjectStore.get, read]
        rfl
  | written new id sum live row file frame =>
      refine ⟨fun buried => absurd buried.1 new, fun _ => ?_⟩
      have read := Disk.get_of_view (Disk.view_live row live file sum.symm)
      rw [LocalObjectStore.get, read]
      rfl

theorem StoreSigned.opened : StoreSigned requests (.openStore .empty 0) := by
  intro req member row found
  have missing : ((LocalObjectStore.openStore .empty 0).disk.slot req.key).row = none := by
    simp [Disk.slot, LocalObjectStore.openStore, recover, Wal.replay, Disk.empty, Wal.empty]
  exact absurd (missing.symm.trans found) (by simp)

end Store

/-! ## The nodes -/

namespace Coordinator

/-- Every node's store has the property. -/
def Stores (P : LocalObjectStore → Prop) (c : Coordinator) : Prop :=
  ∀ (id : Bytes) (n : StorageNode), c.clients[id]? = some n → P n.store

section Stores
variable {P : LocalObjectStore → Prop} {c : Coordinator}

theorem Stores.callReplica {α : Type} (stores : c.Stores P) (id : Bytes)
    {rpc : StorageNode → StorageNode × StatusOr α} (keeps : ∀ n, P n.store → P (rpc n).1.store) :
    (c.callReplica id rpc).1.Stores P := by
  intro other n found
  rw [callReplica_clients] at found
  split at found
  · obtain ⟨before, here, rfl⟩ := Option.map_eq_some_iff.mp found
    exact keeps before (stores id before here)
  · exact stores other n found

theorem Stores.fanOut {α : Type} (stores : c.Stores P) {rpc : Bytes → StorageNode → StorageNode × StatusOr α}
    (keeps : ∀ id n, P n.store → P (rpc id n).1.store) (ids : List Bytes) :
    (c.fanOut rpc ids).1.Stores P := by
  induction ids generalizing c with
  | nil => exact stores
  | cons id rest ih =>
      simp only [Coordinator.fanOut]
      exact ih (stores.callReplica id (keeps id))

theorem Stores.congr {c' : Coordinator} (stores : c.Stores P) (clients : c'.clients = c.clients) :
    c'.Stores P := by
  unfold Stores
  rw [clients]
  exact stores

theorem Stores.updateNode (stores : c.Stores P) (id : Bytes) {f : StorageNode → StorageNode}
    (keeps : ∀ n, (f n).store = n.store) : (c.updateNode id f).Stores P := by
  unfold Coordinator.updateNode
  split
  · exact stores
  · next n here =>
      intro other m found
      simp only [OrderedMap.lookup_insert] at found
      split at found
      · cases found
        rw [keeps]
        exact stores id n here
      · exact stores other m found

end Stores

section Runs
variable {requests : List ConditionalRequest} {c : Coordinator}

/-- The fan-out of a conditional write. -/
def fannedOut (c : Coordinator) (req : ConditionalRequest) (net : Bytes → Delivery) (now : Int) :
    Coordinator × List (Bytes × StatusCode) :=
  c.fanOut
    (fun id n => n.putConditional (net id) req.key req.data req.expectedVersion req.requestId now)
    (c.metadata.placementFor req.key c.opts.replicationFactor)

theorem submit_clients (c : Coordinator) (req : ConditionalRequest) (net : Bytes → Delivery) (now : Int) :
    (c.submit req net now).1.clients = c.clients ∨
      (c.submit req net now).1.clients = (c.fannedOut req net now).1.clients := by
  unfold submit putConditional
  simp only
  split
  · exact .inl rfl
  · split
    · exact .inr (fannedOut_frame _ _ c _ _).2.2
    · split <;> exact .inr (fannedOut_frame _ _ c _ _).2.2

theorem Stores.submit (stores : c.Stores (StoreSigned requests)) (separate : Separate requests)
    {req : ConditionalRequest} (member : req ∈ requests) (net : Bytes → Delivery) (now : Int) :
    (c.submit req net now).1.Stores (StoreSigned requests) := by
  rcases c.submit_clients req net now with same | written
  · exact stores.congr same
  · refine Stores.congr (stores.fanOut (fun id n signed => ?_) _) written
    rcases n.call_store (net id) (text "Put") fun store =>
      store.putConditional req.key req.data req.expectedVersion req.requestId now with kept | served
    · exact kept ▸ signed
    · exact served ▸ signed.putConditional separate member now

theorem Stores.delete (stores : c.Stores (StoreSigned requests)) (key : Bytes) (net : Bytes → Delivery) :
    (c.delete key net).1.Stores (StoreSigned requests) := by
  have fanned : (c.fanOut (fun id n => n.delete (net id) key)
      ((c.metadata.placementFor key c.opts.replicationFactor).filter
        fun id => (c.clients[id]?).isSome)).1.Stores (StoreSigned requests) := by
    refine stores.fanOut (fun id n signed => ?_) _
    rcases n.call_store (net id) (text "Delete") fun store => ((store.delete key).1,
      if (store.delete key).2.isOk then Except.ok () else Except.error (store.delete key).2) with kept | served
    · exact kept ▸ signed
    · exact served ▸ signed.delete key
  unfold Coordinator.delete
  simp only
  split
  · exact fanned.congr (markAll_frame _ _ _).2.2
  · exact fanned.congr (markAll_frame _ _ _).2.2

/-- The step lemma. -/
theorem Stores.exec (stores : c.Stores (StoreSigned requests)) (separate : Separate requests)
    {act : ClusterAction} (sequential : act.sequential = true) (known : ∀ req ∈ act.request, req ∈ requests) :
    (c.exec act).Stores (StoreSigned requests) := by
  cases act with
  | putConditional key data expectedVersion requestId net now =>
      exact stores.submit separate (known ⟨key, data, expectedVersion, requestId⟩ rfl) net now
  | delete key net => exact stores.delete key net
  | get key net => exact stores.congr (c.get_frame key net).2
  | setFault id fault => exact stores.updateNode id fun _ => rfl
  | put key data net now => cases sequential
  | restart id now => cases sequential

theorem fresh_stores (vnodes : ℕ) (members : List Bytes) (opts : Options) :
    (fresh vnodes members opts).Stores (StoreSigned requests) := by
  have each (cluster : MetadataRepository × OrderedMap Bytes StorageNode)
      (before : ∀ (id : Bytes) (n : StorageNode), cluster.2[id]? = some n → StoreSigned requests n.store) :
      ∀ (id : Bytes) (n : StorageNode), (members.foldl addMember cluster).2[id]? = some n →
        StoreSigned requests n.store := by
    induction members generalizing cluster with
    | nil => exact before
    | cons member rest ih =>
        refine ih _ fun id n found => ?_
        simp only [addMember, OrderedMap.lookup_insert] at found
        split at found
        · cases found
          exact StoreSigned.opened
        · exact before id n found
  exact each (.create vnodes, ∅) fun id n found => by simp at found

/-- The run lemma. -/
theorem run_stores {vnodes : ℕ} {members : List Bytes} {opts : Options} {acts : List ClusterAction}
    (separate : Separate requests) (sequential : ∀ act ∈ acts, act.sequential = true)
    (known : ∀ act ∈ acts, ∀ req ∈ act.request, req ∈ requests) :
    (run vnodes members opts acts).Stores (StoreSigned requests) := by
  have start : (fresh vnodes members opts).Stores (StoreSigned requests) := fresh_stores vnodes members opts
  unfold run
  generalize fresh vnodes members opts = c at start
  induction acts generalizing c with
  | nil => exact start
  | cons act acts ih =>
      obtain ⟨calls, laterCalls⟩ := List.forall_mem_cons.mp sequential
      obtain ⟨asked, laterAsked⟩ := List.forall_mem_cons.mp known
      exact ih laterCalls laterAsked _ (start.exec separate calls asked)

end Runs

/-! ## A success -/

section FanOut
variable {α : Type} {rpc : Bytes → StorageNode → StorageNode × StatusOr α}

theorem fanOut_clients_ne {ids : List Bytes} (c : Coordinator) {id : Bytes} (absent : id ∉ ids) :
    (c.fanOut rpc ids).1.clients[id]? = c.clients[id]? := by
  induction ids generalizing c with
  | nil => rfl
  | cons first rest ih =>
      obtain ⟨ne, later⟩ := List.ne_and_not_mem_of_not_mem_cons absent
      simp only [fanOut, ih _ later, callReplica_clients, if_neg (Ne.symm ne)]

/-- Each node of a fan-out to distinct nodes gets one call. -/
theorem fanOut_clients {ids : List Bytes} (distinct : ids.Nodup) (c : Coordinator) {id : Bytes}
    (member : id ∈ ids) :
    (c.fanOut rpc ids).1.clients[id]? = (c.clients[id]?).map fun n => (rpc id n).1 := by
  induction ids generalizing c with
  | nil => exact absurd member List.not_mem_nil
  | cons first rest ih =>
      obtain ⟨alone, distinct⟩ := List.nodup_cons.mp distinct
      simp only [fanOut]
      rcases List.mem_cons.mp member with rfl | later
      · rw [fanOut_clients_ne _ alone, callReplica_clients, if_pos rfl]
      · have ne : first ≠ id := fun same => alone (same ▸ later)
        rw [ih distinct _ later, callReplica_clients, if_neg ne]

theorem callReplica_code (c : Coordinator) (id : Bytes) (rpc : StorageNode → StorageNode × StatusOr α) :
    (c.callReplica id rpc).2 = .ok ↔ ∃ n, c.clients[id]? = some n ∧ codeOf (rpc n).2 = .ok := by
  unfold callReplica
  split
  · next missing => simp [missing]
  · next n found => simp [found]

/-- The acknowledgements are the nodes that answer Ok. -/
theorem mem_ackedOf_fanOut {ids : List Bytes} (distinct : ids.Nodup) (c : Coordinator) (id : Bytes) :
    id ∈ ackedOf (c.fanOut rpc ids).2 ↔
      id ∈ ids ∧ ∃ n, c.clients[id]? = some n ∧ codeOf (rpc id n).2 = .ok := by
  induction ids generalizing c with
  | nil => simp [fanOut, ackedOf]
  | cons first rest ih =>
      obtain ⟨alone, distinct⟩ := List.nodup_cons.mp distinct
      have split : id ∈ ackedOf (c.fanOut rpc (first :: rest)).2 ↔
          (id = first ∧ (c.callReplica first (rpc first)).2 = .ok) ∨
            id ∈ ackedOf ((c.callReplica first (rpc first)).1.fanOut rpc rest).2 := by
        simp only [fanOut, ackedOf, List.filter_cons]
        by_cases ok : (c.callReplica first (rpc first)).2 = .ok
        · simp [ok]
        · simp [ok]
      rw [split, ih distinct, callReplica_code, List.mem_cons, callReplica_clients]
      by_cases same : first = id
      · subst same
        simp [alone]
      · simp [same, Ne.symm same]

end FanOut

section Success
variable {requests : List ConditionalRequest} {c : Coordinator} {req : ConditionalRequest}
  {net : Bytes → Delivery} {now : Int} {row : ObjectMetadata}

/-- A success registers the nodes that acknowledged it. -/
theorem submit_ok (ok : (c.submit req net now).2 = .ok row) :
    ∃ acked, (c.submit req net now).1.metadata = (c.metadata.registerObject
        ⟨req.key, increment req.expectedVersion, sha256Hex req.data, req.data.length, false, acked⟩).1 ∧
      (c.submit req net now).1.clients = (c.fannedOut req net now).1.clients ∧
      acked = ackedOf (c.fannedOut req net now).2 := by
  unfold submit putConditional at ok ⊢
  simp only at ok ⊢
  split at ok
  · cases ok
  · next large =>
      rw [if_neg large]
      split at ok
      · next quorum =>
          rw [if_pos quorum]
          obtain ⟨metadata, _, clients⟩ := fannedOut_frame
            (fun id n => n.putConditional (net id) req.key req.data req.expectedVersion req.requestId now)
            (c.metadata.placementFor req.key c.opts.replicationFactor) c
            (fun code => if code = .ok ∨ code = .conflict then .healthy else .lagging)
            (c.fannedOut req net now).2
          refine ⟨_, ?_, clients, rfl⟩
          exact congrArg (fun m : MetadataRepository => (m.registerObject _).1) metadata
      · split at ok <;> cases ok

/-- What an acknowledging node answers to `Get` once it can be reached. -/
theorem answer_acknowledged (stores : c.Stores (StoreSigned requests)) (identified : Identified requests)
    (legible : Legible requests) (member : req ∈ requests) {acked : Coordinator}
    (clients : acked.clients = (c.fannedOut req net now).1.clients) {id : Bytes}
    (placed : id ∈ c.metadata.placementFor req.key c.opts.replicationFactor)
    (acknowledges : c.Acknowledges req net now id) :
    (c.Buried req id → acked.allReachable.answer req.key id = none) ∧
      (¬c.Buried req id → acked.allReachable.answer req.key id = some req.data) := by
  obtain ⟨n, found, ok⟩ := acknowledges
  have distinct : (c.metadata.placementFor req.key c.opts.replicationFactor).Nodup :=
    c.metadata.cluster.placementFor_nodup _ _
  obtain ⟨served, stored⟩ := n.call_ok (net id) (text "Put") _ ok
  have after : acked.allReachable.clients[id]? = some
      { (n.putConditional (net id) req.key req.data req.expectedVersion req.requestId now).1 with
        fault := none } := by
    rw [allReachable, (withFaults_frame ..).2, clients, fannedOut, fanOut_clients distinct c placed, found]
    rfl
  have answered : acked.allReachable.answer req.key id = ((n.store.putConditional req.key req.data
      req.expectedVersion req.requestId now).1.get req.key).toOption := by
    simp only [answer, after, Option.bind_some, StorageNode.get]
    exact congrArg (fun store : LocalObjectStore => (store.get req.key).toOption) served
  obtain ⟨gone, kept⟩ := (stores id n found).get_acknowledged identified legible member stored
  rw [answered]
  refine ⟨fun buried => ?_, fun above => ?_⟩
  · obtain ⟨m, here, both⟩ := buried
    cases found.symm.trans here
    exact gone both
  · exact kept fun both => above ⟨n, found, both⟩

/-- The first answer of a list whose members answer one thing or nothing. -/
theorem findSome_eq_some_iff {ids : List Bytes} {answer : Bytes → Option Bytes} {data : Bytes} {silent : Bytes → Prop}
    (quiet : ∀ id ∈ ids, silent id → answer id = none) (loud : ∀ id ∈ ids, ¬silent id → answer id = some data) :
    ids.findSome? answer = some data ↔ ∃ id ∈ ids, ¬silent id := by
  induction ids with
  | nil => simp
  | cons first rest ih =>
      obtain ⟨firstQuiet, restQuiet⟩ := List.forall_mem_cons.mp quiet
      obtain ⟨firstLoud, restLoud⟩ := List.forall_mem_cons.mp loud
      by_cases hushed : silent first
      · simp [firstQuiet hushed, hushed, ih restQuiet restLoud]
      · simp [firstLoud hushed, hushed]

end Success

/-- In every state that calls one after another lead to: a conditional write that
returned Ok reads back with its bytes, version and checksum exactly if one of
the nodes that acknowledged it holds no tombstone of it. -/
theorem conditional_readable_iff (vnodes : ℕ) (members : List Bytes) (opts : Options)
    {acts : List ClusterAction} (sequential : ∀ act ∈ acts, act.sequential = true) {req : ConditionalRequest}
    (separate : Separate (req :: acts.filterMap ClusterAction.request))
    (identified : Identified (req :: acts.filterMap ClusterAction.request))
    (legible : Legible (req :: acts.filterMap ClusterAction.request)) {net : Bytes → Delivery} {now : Int}
    {row : ObjectMetadata} (ok : ((run vnodes members opts acts).submit req net now).2 = .ok row) :
    ((((run vnodes members opts acts).submit req net now).1.allReachable.get req.key).2 = .ok req.data ∧
      ∃ head, ((run vnodes members opts acts).submit req net now).1.allReachable.head req.key = .ok head ∧
        head.version = increment req.expectedVersion ∧ head.checksum = sha256Hex req.data) ↔
    ∃ id ∈ (run vnodes members opts acts).metadata.placementFor req.key
        (run vnodes members opts acts).opts.replicationFactor,
      (run vnodes members opts acts).Acknowledges req net now id ∧
        ¬(run vnodes members opts acts).Buried req id := by
  have stores : (run vnodes members opts acts).Stores
      (StoreSigned (req :: acts.filterMap ClusterAction.request)) := by
    refine run_stores separate sequential fun act inside asked found => ?_
    exact List.mem_cons_of_mem _ (List.mem_filterMap.mpr ⟨act, inside, found⟩)
  generalize run vnodes members opts acts = c at ok stores ⊢
  obtain ⟨acked, metadata, clients, rfl⟩ := submit_ok ok
  have lookup : (c.submit req net now).1.allReachable.metadata.lookupObject req.key =
      .ok ⟨req.key, increment req.expectedVersion, sha256Hex req.data, req.data.length, false,
        ackedOf (c.fannedOut req net now).2⟩ := by
    rw [allReachable, (withFaults_frame ..).1, metadata]
    exact MetadataRepository.lookupObject_registerObject rfl
  have acknowledged (id : Bytes) : id ∈ ackedOf (c.fannedOut req net now).2 ↔
      id ∈ c.metadata.placementFor req.key c.opts.replicationFactor ∧ c.Acknowledges req net now id :=
    mem_ackedOf_fanOut (c.metadata.cluster.placementFor_nodup _ _) c id
  have answers {id : Bytes} (inside : id ∈ ackedOf (c.fannedOut req net now).2) :=
    answer_acknowledged stores identified legible List.mem_cons_self clients
      ((acknowledged id).mp inside).1 ((acknowledged id).mp inside).2
  have first : (c.submit req net now).1.allReachable.readable req.key = some req.data ↔
      ∃ id ∈ ackedOf (c.fannedOut req net now).2, ¬c.Buried req id := by
    rw [readable, lookup]
    exact findSome_eq_some_iff (fun id inside => (answers inside).1) fun id inside => (answers inside).2
  rw [get_ok_iff, first]
  constructor
  · rintro ⟨⟨id, inside, above⟩, _⟩
    exact ⟨id, ((acknowledged id).mp inside).1, ((acknowledged id).mp inside).2, above⟩
  · rintro ⟨id, placed, acknowledges, above⟩
    have shown : (c.submit req net now).1.allReachable.head req.key = .ok ⟨req.key, req.data.length,
        sha256Hex req.data, increment req.expectedVersion, 0, false, []⟩ := by rw [head, lookup]
    exact ⟨⟨id, (acknowledged id).mpr ⟨placed, acknowledges⟩, above⟩, _, shown, rfl, rfl⟩

/-! Two nodes that both have to acknowledge. -/
section Sample

def firstRequest : ConditionalRequest := ⟨sampleKey, [1], 0, text "r"⟩

def secondRequest : ConditionalRequest := ⟨sampleKey, [2], 1, text "s"⟩

/-- The first request is applied and its object deleted. -/
def appliedAndDeleted : List ClusterAction :=
  [.putConditional sampleKey [1] 0 (text "r") delivered 0, .delete sampleKey delivered]

/-- The second request writes over the tombstone. -/
def appliedAgain : List ClusterAction :=
  appliedAndDeleted ++ [.putConditional sampleKey [2] 1 (text "s") delivered 0]

def twoNodes (acts : List ClusterAction) : Coordinator := run 1 [text "a", text "b"] ⟨2, 2⟩ acts

end Sample

/-- A retry of the second request. -/
theorem conditional_readable_iff_retried :
    ((twoNodes appliedAgain).submit secondRequest delivered 0).2 =
        .ok ⟨sampleKey, 1, sha256Hex [2], 2, 0, false, text "s"⟩ ∧
      (((twoNodes appliedAgain).submit secondRequest delivered 0).1.allReachable.get sampleKey).2 = .ok [2] ∧
      ∃ head, ((twoNodes appliedAgain).submit secondRequest delivered 0).1.allReachable.head sampleKey =
        .ok head ∧ head.version = 2 ∧ head.checksum = sha256Hex [2] := by
  obtain ⟨ok, placed, acknowledges, above⟩ :
      ((twoNodes appliedAgain).submit secondRequest delivered 0).2 =
          .ok ⟨sampleKey, 1, sha256Hex [2], 2, 0, false, text "s"⟩ ∧
        text "a" ∈ (twoNodes appliedAgain).metadata.placementFor secondRequest.key
          (twoNodes appliedAgain).opts.replicationFactor ∧
        (twoNodes appliedAgain).Acknowledges secondRequest delivered 0 (text "a") ∧
        ¬(twoNodes appliedAgain).Buried secondRequest (text "a") := by decide +kernel
  unfold twoNodes at ok placed acknowledges above ⊢
  refine ⟨ok, (conditional_readable_iff 1 [text "a", text "b"] ⟨2, 2⟩ ?_ ?_ ?_ ?_ ok).mpr
    ⟨text "a", placed, acknowledges, above⟩⟩
  · simp [appliedAgain, appliedAndDeleted, ClusterAction.sequential]
  · decide +kernel
  · decide +kernel
  · decide +kernel

/-- A retry of the first request after the delete returns Ok and shows the object
in `Head`, and no node returns its bytes. -/
theorem retry_of_deleted_unreadable :
    Identified (firstRequest :: appliedAndDeleted.filterMap ClusterAction.request) ∧
      ((twoNodes appliedAndDeleted).submit firstRequest delivered 0).2 =
        .ok ⟨sampleKey, 1, sha256Hex [1], 1, 0, false, text "r"⟩ ∧
      (((twoNodes appliedAndDeleted).submit firstRequest delivered 0).1.allReachable.get sampleKey).2 =
        .error (.notFound (text "tombstoned: k")) ∧
      ((twoNodes appliedAndDeleted).submit firstRequest delivered 0).1.allReachable.head sampleKey =
        .ok ⟨sampleKey, 1, sha256Hex [1], 1, 0, false, []⟩ := by
  decide +kernel

end Coordinator
end Dos.Network
