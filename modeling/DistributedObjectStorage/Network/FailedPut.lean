import DistributedObjectStorage.Network.Coordinator
import DistributedObjectStorage.Storage.StoreSlot

/-!
# What a failed put leaves behind

A put that misses its quorum has still overwritten every replica it reached.
`Get` takes the first registered replica that answers, and outages decide which
one that is. So the bytes of the failed put stay hidden exactly when no
registered replica was overwritten with something new.
-/
namespace Dos.Network
open ControlPlane Storage Transition

/-! ## One node -/

/-- An RPC leaves the store alone or is served by it. -/
theorem StorageNode.call_store {α : Type} (n : StorageNode) (delivery : Delivery) (rpc : Bytes)
    (serve : LocalObjectStore → LocalObjectStore × StatusOr α) :
    (n.call rpc delivery serve).1.store = n.store ∨
      (n.call rpc delivery serve).1.store = (serve n.store).1 := by
  unfold call
  split
  · exact .inl rfl
  · exact .inl rfl
  · exact .inr rfl
  · exact .inr rfl

/-- An Ok comes from the store. -/
theorem StorageNode.call_ok {α : Type} (n : StorageNode) (delivery : Delivery) (rpc : Bytes)
    (serve : LocalObjectStore → LocalObjectStore × StatusOr α)
    (ok : codeOf (n.call rpc delivery serve).2 = .ok) :
    (n.call rpc delivery serve).1.store = (serve n.store).1 ∧ codeOf (serve n.store).2 = .ok := by
  unfold call at ok ⊢
  split at ok
  · exact absurd ok fun same => StatusCode.noConfusion same
  · exact absurd ok fun same => StatusCode.noConfusion same
  · exact absurd ok fun same => StatusCode.noConfusion same
  · exact ⟨rfl, ok⟩

/-- A write without a condition and an id is never refused. -/
theorem planPut_plain (d : Disk) (req : WriteRequest) (plain : req.conditional = false)
    (anonymous : req.requestId = []) (now : Int) :
    ∃ current, planPut d req now = .write (newRow req current now) := by
  unfold planPut planWrite
  cases d.metadata.peek req.key with
  | error status => exact ⟨0, by simp [plain]⟩
  | ok found => exact ⟨found.version, by simp [plain, anonymous]⟩

/-- It leaves its row and its bytes, whatever was stored before, and no trace with
keys that have other payload files. -/
theorem doPut_plain (store : LocalObjectStore) (req : WriteRequest) (plain : req.conditional = false)
    (anonymous : req.requestId = []) (now : Int) :
    ∃ current, ((store.doPut req now).1.disk.slot req.key).row = some (newRow req current now) ∧
      ((store.doPut req now).1.disk.slot req.key).file = some req.data ∧
      (store.doPut req now).2 = .ok (newRow req current now) ∧
      ∀ other, keyDigest req.key ≠ keyDigest other →
        ((store.doPut req now).1.disk.slot other).row = (store.disk.slot other).row ∧
          ((store.doPut req now).1.disk.slot other).file = (store.disk.slot other).file := by
  obtain ⟨current, plan⟩ := planPut_plain store.disk req plain anonymous now
  refine ⟨current, ?_⟩
  simp only [LocalObjectStore.doPut, plan]
  refine ⟨OrderedMap.lookup_insert_self _ _ _, OrderedMap.lookup_insert_self _ _ _, trivial, fun other ne => ?_⟩
  exact ⟨OrderedMap.lookup_insert_ne _ _ fun same => ne (congrArg keyDigest same),
    OrderedMap.lookup_insert_ne _ _ ne⟩

theorem get_doPut_plain (store : LocalObjectStore) (req : WriteRequest) (plain : req.conditional = false)
    (anonymous : req.requestId = []) (now : Int) : (store.doPut req now).1.get req.key = .ok req.data := by
  obtain ⟨_, row, file, _⟩ := doPut_plain store req plain anonymous now
  exact Disk.get_of_view (Disk.view_live row rfl file rfl)

theorem head_doPut_plain (store : LocalObjectStore) (req : WriteRequest) (plain : req.conditional = false)
    (anonymous : req.requestId = []) (now : Int) :
    ∃ row, (store.doPut req now).1.head req.key = .ok row ∧
      (req.explicitVersion ≠ 0 → row.version = req.explicitVersion) := by
  obtain ⟨current, row, _, _⟩ := doPut_plain store req plain anonymous now
  exact ⟨_, Disk.head_live row rfl, fun given => if_pos given⟩

/-- The node serves a write with a version and one without alike: version zero
leaves the number to the store. -/
theorem StorageNode.put_eq (n : StorageNode) (delivery : Delivery) (key data : Bytes) (version : ℕ) (now : Int) :
    n.put delivery key data version now = n.call (text "Put") delivery fun store =>
      if key = [] then (store, .error (.invalidArgument (text "empty key")))
      else store.doPut (.putWithVersion key data version) now := by
  unfold StorageNode.put
  congr 1
  funext store
  by_cases zero : version = 0
  · rw [if_pos zero, zero]
    rfl
  · simp only [if_neg zero, LocalObjectStore.putWithVersion]

/-- A write that the node acknowledges is stored as it was sent. -/
theorem StorageNode.put_acknowledged {n : StorageNode} {delivery : Delivery} {key data : Bytes} {version : ℕ}
    {now : Int} (ok : codeOf (n.put delivery key data version now).2 = .ok) :
    (n.put delivery key data version now).1.store.get key = .ok data ∧
      ∃ row, (n.put delivery key data version now).1.store.head key = .ok row ∧
        (version ≠ 0 → row.version = version) := by
  rw [StorageNode.put_eq] at ok ⊢
  obtain ⟨served, stored⟩ := n.call_ok delivery (text "Put") _ ok
  have named : key ≠ [] := by
    rintro rfl
    exact absurd stored fun same => StatusCode.noConfusion same
  rw [served, if_neg named]
  obtain ⟨row, head, numbered⟩ :=
    head_doPut_plain n.store (.putWithVersion key data version) rfl rfl now
  exact ⟨get_doPut_plain n.store (.putWithVersion key data version) rfl rfl now, row, head, numbered⟩

/-- A write of the key gets through to the store. -/
def StorageNode.takes (n : StorageNode) (key : Bytes) : Delivery → Bool
  | .lost _ => false
  | _ => n.fault.isNone && key ≠ []

/-- Whether the version is given or left to the node, the bytes are those of the write. -/
theorem StorageNode.put_holds (n : StorageNode) (delivery : Delivery) (key data : Bytes) (version : ℕ)
    (now : Int) : ((n.put delivery key data version now).1.store.get key).toOption =
      if n.takes key delivery then some data else (n.store.get key).toOption := by
  rw [StorageNode.put_eq]
  obtain ⟨address, store, fault⟩ := n
  cases fault with
  | some error => cases delivery <;> rfl
  | none =>
      by_cases named : key = []
      · -- the store rejects the empty key
        subst named
        cases delivery <;> simp [StorageNode.call, StorageNode.takes]
      · have served : (store.doPut (.putWithVersion key data version) now).1.get key = .ok data :=
          get_doPut_plain store (.putWithVersion key data version) rfl rfl now
        cases delivery with
        | lost error => rfl
        | unacknowledged error => simp [StorageNode.call, StorageNode.takes, served, named, Except.toOption]
        | acknowledged => simp [StorageNode.call, StorageNode.takes, served, named, Except.toOption]

theorem StorageNode.put_takes (n : StorageNode) (delivery later : Delivery) (key data : Bytes)
    (version : ℕ) (now : Int) :
    (n.put delivery key data version now).1.takes key later = n.takes key later := by
  obtain ⟨address, store, fault⟩ := n
  cases fault with
  | some error => rfl
  | none => cases delivery <;> rfl

/-! ## Reading -/

namespace Coordinator
variable (c : Coordinator) (key : Bytes)

/-- What a replica would answer to `Get`. -/
def answer (id : Bytes) : Option Bytes := (c.clients[id]?).bind fun n => (n.get key).toOption

/-- What it holds, whether or not it can be reached. -/
def holds (id : Bytes) : Option Bytes := (c.clients[id]?).bind fun n => (n.store.get key).toOption

/-- The first answer among the registered replicas. -/
def readable : Option Bytes :=
  match c.metadata.lookupObject key with
  | .ok loc => loc.replicas.findSome? (c.answer key)
  | .error _ => none

theorem getLoop_toOption (replicas : List Bytes) (last : Status) :
    (c.getLoop key replicas last).2.toOption = replicas.findSome? (c.answer key) := by
  induction replicas generalizing c last with
  | nil => rfl
  | cons id rest ih =>
      rw [getLoop, List.findSome?_cons]
      cases found : c.clients[id]? with
      | none =>
          have silent : c.answer key id = none := by simp [answer, found]
          simp only [silent]
          exact ih c last
      | some n =>
          cases result : n.get key with
          | ok data =>
              have here : c.answer key id = some data := by simp [answer, found, result, Except.toOption]
              simp only [here, delivered_apply, result]
              rfl
          | error status =>
              have silent : c.answer key id = none := by simp [answer, found, result, Except.toOption]
              simp only [silent, delivered_apply, result]
              rw [ih]
              split
              · rfl
              · split <;> rfl

/-- Reading changes the health at most. -/
theorem getLoop_frame (replicas : List Bytes) (last : Status) (net : Bytes → Delivery) :
    (c.getLoop key replicas last net).1.metadata = c.metadata ∧
      (c.getLoop key replicas last net).1.clients = c.clients := by
  induction replicas generalizing c last with
  | nil => exact ⟨rfl, rfl⟩
  | cons id rest ih =>
      rw [getLoop]
      split
      · exact ih c last
      · split
        · exact ⟨rfl, rfl⟩
        · simp only [ih]
          split
          · exact ⟨rfl, rfl⟩
          · split <;> exact ⟨rfl, rfl⟩

theorem get_frame (net : Bytes → Delivery) :
    (c.get key net).1.metadata = c.metadata ∧ (c.get key net).1.clients = c.clients := by
  unfold get
  split
  · exact ⟨rfl, rfl⟩
  · split
    · exact ⟨rfl, rfl⟩
    · exact c.getLoop_frame key _ _ net

theorem get_toOption : (c.get key).2.toOption = c.readable key := by
  unfold get readable
  cases c.metadata.lookupObject key with
  | error status => rfl
  | ok loc =>
      simp only
      split
      · next none =>
          rw [List.isEmpty_iff.mp none]
          rfl
      · exact c.getLoop_toOption key loc.replicas _

end Coordinator

/-! ## Writing -/

namespace Coordinator
section FanOut
variable (net : Bytes → Delivery) (key data : Bytes) (now : Int)

/-- A write of the key reaches the store of the node. -/
def takes (c : Coordinator) (id : Bytes) : Bool :=
  (c.clients[id]?).any fun n => n.takes key (net id)

theorem callReplica_clients {α : Type} (c : Coordinator) (id other : Bytes)
    (rpc : StorageNode → StorageNode × StatusOr α) :
    (c.callReplica id rpc).1.clients[other]? =
      if id = other then (c.clients[id]?).map (fun n => (rpc n).1) else c.clients[other]? := by
  unfold callReplica
  cases found : c.clients[id]? with
  | none =>
      by_cases same : id = other
      · subst same
        simp [found]
      · simp [same]
  | some n => simp [OrderedMap.lookup_insert]

theorem callReplica_holds (version : ℕ) (c : Coordinator) (id other : Bytes) :
    let c' := (c.callReplica id fun n => n.put (net id) key data version now).1
    c'.holds key other = (if id = other ∧ takes net key c other then some data else c.holds key other) ∧
      takes net key c' other = takes net key c other := by
  intro c'
  have lookup : c'.clients[other]? = _ := callReplica_clients c id other _
  by_cases same : id = other
  · subst same
    rw [if_pos rfl] at lookup
    cases found : c.clients[id]? with
    | none => simp [holds, takes, lookup, found]
    | some n => simp [holds, takes, lookup, found, n.put_holds, n.put_takes]
  · rw [if_neg same] at lookup
    simp [holds, takes, lookup, same]

/-- A replica that the fan-out reaches holds the new bytes, the others what they held. -/
theorem fanOut_holds (version : ℕ) (ids : List Bytes) (c : Coordinator) (other : Bytes) :
    (c.fanOut (fun id n => n.put (net id) key data version now) ids).1.holds key other =
      if other ∈ ids ∧ takes net key c other then some data else c.holds key other := by
  induction ids generalizing c with
  | nil => simp [fanOut]
  | cons id rest ih =>
      obtain ⟨held, taken⟩ := callReplica_holds net key data now version c id other
      simp only [fanOut, ih, held, taken, List.mem_cons]
      by_cases reached : takes net key c other
      · by_cases later : other ∈ rest
        · simp [reached, later]
        · simp [reached, later, eq_comm]
      · simp [reached]

theorem fanOut_frame {α : Type} (rpc : Bytes → StorageNode → StorageNode × StatusOr α)
    (ids : List Bytes) (c : Coordinator) :
    (c.fanOut rpc ids).1.metadata = c.metadata ∧ (c.fanOut rpc ids).1.opts = c.opts := by
  induction ids generalizing c with
  | nil => exact ⟨rfl, rfl⟩
  | cons id rest ih =>
      simp only [fanOut, ih]
      unfold callReplica
      split <;> exact ⟨rfl, rfl⟩

theorem markAll_frame (health : StatusCode → ReplicaHealth) (codes : List (Bytes × StatusCode))
    (c : Coordinator) :
    (c.markAll health codes).metadata = c.metadata ∧ (c.markAll health codes).opts = c.opts ∧
      (c.markAll health codes).clients = c.clients := by
  unfold markAll
  induction codes generalizing c with
  | nil => exact ⟨rfl, rfl, rfl⟩
  | cons result rest ih => exact ih (c.markHealth result.1 (health result.2))

/-- A fan-out changes the nodes and the health, nothing else. -/
theorem fannedOut_frame {α : Type} (rpc : Bytes → StorageNode → StorageNode × StatusOr α) (ids : List Bytes)
    (c : Coordinator) (health : StatusCode → ReplicaHealth) (codes : List (Bytes × StatusCode)) :
    ((c.fanOut rpc ids).1.markAll health codes).metadata = c.metadata ∧
      ((c.fanOut rpc ids).1.markAll health codes).opts = c.opts ∧
      ((c.fanOut rpc ids).1.markAll health codes).clients = (c.fanOut rpc ids).1.clients := by
  obtain ⟨metadata, opts, clients⟩ := markAll_frame health codes (c.fanOut rpc ids).1
  obtain ⟨kept, same⟩ := fanOut_frame rpc ids c
  exact ⟨metadata.trans kept, opts.trans same, clients⟩

end FanOut

/-! ## Outages -/

section Outages
variable (c : Coordinator)

/-- The cluster after nodes went down and came back, each ending up as given. -/
def withFaults (fault : Bytes → Option Bytes) : Coordinator :=
  c.clients.keys.foldl (fun c id => c.exec (.setFault id (fault id))) c

theorem updateNode_metadata (id : Bytes) (f : StorageNode → StorageNode) :
    (c.updateNode id f).metadata = c.metadata := by
  unfold updateNode
  split <;> rfl

theorem exec_setFault_clients (id other : Bytes) (fault : Option Bytes) :
    (c.exec (.setFault id fault)).clients[other]? =
      (c.clients[other]?).map fun n => if id = other then { n with fault := fault } else n := by
  simp only [exec, updateNode]
  split
  · next missing =>
      by_cases same : id = other
      · subst same
        simp [missing]
      · simp [same]
  · next n found =>
      simp only [OrderedMap.lookup_insert]
      by_cases same : id = other
      · subst same
        simp [found]
      · simp [same]

theorem setFaults_frame (fault : Bytes → Option Bytes) (ids : List Bytes) :
    (ids.foldl (fun c id => c.exec (.setFault id (fault id))) c).metadata = c.metadata ∧ ∀ id : Bytes,
      (ids.foldl (fun c id => c.exec (.setFault id (fault id))) c).clients[id]? =
        (c.clients[id]?).map fun n => if id ∈ ids then { n with fault := fault id } else n := by
  induction ids generalizing c with
  | nil => simp
  | cons first rest ih =>
      obtain ⟨metadata, clients⟩ := ih (c.exec (.setFault first (fault first)))
      refine ⟨metadata.trans (c.updateNode_metadata first _), fun id => ?_⟩
      rw [List.foldl_cons, clients id, exec_setFault_clients, Option.map_map]
      congr 1
      funext n
      by_cases same : first = id
      · subst same
        simp
      · simp [same, Ne.symm same]

theorem withFaults_frame (fault : Bytes → Option Bytes) :
    (c.withFaults fault).metadata = c.metadata ∧ ∀ id : Bytes,
      (c.withFaults fault).clients[id]? = (c.clients[id]?).map fun n => { n with fault := fault id } := by
  obtain ⟨metadata, clients⟩ := c.setFaults_frame fault c.clients.keys
  refine ⟨metadata, fun id => (clients id).trans ?_⟩
  cases found : c.clients[id]? with
  | none => rfl
  | some n =>
      have listed : id ∈ c.clients.keys := by
        rw [Std.ExtTreeMap.mem_keys]
        exact Std.ExtTreeMap.mem_iff_isSome_getElem?.mpr (by rw [found]; rfl)
      simp [listed]

theorem withFaults_answer (fault : Bytes → Option Bytes) (key id : Bytes) :
    (c.withFaults fault).answer key id = if fault id = none then c.holds key id else none := by
  rw [answer, (c.withFaults_frame fault).2 id, holds, Option.bind_map]
  cases c.clients[id]? with
  | none => simp
  | some n =>
      cases down : fault id with
      | none => simp [StorageNode.get]
      | some error => simp [StorageNode.get, Except.toOption]

theorem withFaults_readable (fault : Bytes → Option Bytes) (key : Bytes) :
    (c.withFaults fault).readable key =
      match c.metadata.lookupObject key with
      | .ok loc => loc.replicas.findSome? fun id => if fault id = none then c.holds key id else none
      | .error _ => none := by
  have answers : (c.withFaults fault).answer key = _ := funext (c.withFaults_answer fault key)
  rw [readable, (c.withFaults_frame fault).1, answers]

end Outages

/-! ## A failed put -/

section Failed
variable (c : Coordinator) (key data : Bytes) (net : Bytes → Delivery) (now : Int)

/-- The replicas whose stores a put of the key overwrites. -/
def overwrites (id : Bytes) : Bool :=
  let replicas := c.metadata.placementFor key c.opts.replicationFactor
  c.opts.writeQuorum ≤ replicas.length && id ∈ replicas && takes net key c id

/-- A registered replica is overwritten with other bytes than it holds. -/
def exposes : Bool :=
  match c.metadata.lookupObject key with
  | .ok loc => loc.replicas.any fun id => c.overwrites key net id && c.holds key id ≠ some data
  | .error _ => false

theorem findSome_alone {ids : List Bytes} {id : Bytes} (member : id ∈ ids) (f : Bytes → Option Bytes) :
    ids.findSome? (fun other =>
      if (if other = id then none else some ([] : Bytes)) = none then f other else none) = f id := by
  induction ids with
  | nil => cases member
  | cons first rest ih =>
      by_cases here : first = id
      · subst here
        cases found : f first with
        | some bytes => simp [found]
        | none =>
            rw [List.findSome?_eq_none_iff]
            intro other _
            by_cases same : other = first
            · simp [same, found]
            · simp [same]
      · have later := (List.mem_cons.mp member).resolve_left (Ne.symm here)
        simpa [here] using ih later

/-- A failed put registers nothing, but the stores it reached keep its bytes. -/
theorem put_failed {status : Status} (failed : (c.put key data net now).2 = .error status) :
    (c.put key data net now).1.metadata = c.metadata ∧ ∀ id,
      (c.put key data net now).1.holds key id =
        if c.overwrites key net id then some data else c.holds key id := by
  have written := fanOut_holds net key data now (c.nextVersion key)
    (c.metadata.placementFor key c.opts.replicationFactor) c
  unfold put at failed ⊢
  simp only at failed ⊢
  split at failed
  · next small =>
      rw [if_pos small]
      refine ⟨rfl, fun id => ?_⟩
      have none : c.overwrites key net id = false := by simp [overwrites, Nat.not_le_of_lt small]
      rw [none]
      rfl
  · next large =>
      rw [if_neg large]
      split at failed
      · next missed =>
          rw [if_pos missed]
          refine ⟨(fannedOut_frame _ _ c _ _).1, fun id => ?_⟩
          have same : c.overwrites key net id =
              decide (id ∈ c.metadata.placementFor key c.opts.replicationFactor ∧
                takes net key c id) := by
            simp [overwrites, Nat.le_of_not_lt large]
          rw [holds, (fannedOut_frame _ _ c _ _).2.2, same]
          simpa [holds] using written id
      · cases failed

theorem get_ok_iff (bytes : Bytes) : (c.get key).2 = .ok bytes ↔ c.readable key = some bytes := by
  rw [← c.get_toOption key]
  cases (c.get key).2 with
  | error status => simp [Except.toOption]
  | ok found => simp [Except.toOption]

/-- After a failed put every `Get`, whichever nodes are down by then, returns what
it would have returned before the put with the same nodes down, or fails, exactly
when the put gave no registered replica new bytes. -/
theorem failedPut_hidden_iff {status : Status} (failed : (c.put key data net now).2 = .error status) :
    (∀ fault bytes, (((c.put key data net now).1.withFaults fault).get key).2 = .ok bytes →
        ((c.withFaults fault).get key).2 = .ok bytes) ↔
      c.exposes key data net = false := by
  obtain ⟨metadata, held⟩ := c.put_failed key data net now failed
  simp only [get_ok_iff, withFaults_readable, metadata, held, exposes]
  cases c.metadata.lookupObject key with
  | error status => simp
  | ok loc =>
      simp only [List.any_eq_false, Bool.and_eq_true, decide_eq_true_eq, not_and, not_not]
      constructor
      · -- with only this replica up, `Get` returns what it holds
        intro hidden id member overwritten
        have shown := hidden (fun other => if other = id then none else some []) data
        simp only [findSome_alone member, if_pos overwritten] at shown
        exact shown trivial
      · intro kept fault bytes read
        rw [← read]
        rw [← List.head?_filterMap, ← List.head?_filterMap]
        congr 1
        refine List.filterMap_congr fun id member => ?_
        by_cases overwritten : c.overwrites key net id = true
        · rw [if_pos overwritten, kept id member overwritten]
        · rw [if_neg overwritten]

end Failed

/-! Three nodes with two acknowledgements required; the key is stored on all. -/
section Sample

def trio : Coordinator := .fresh 1 [text "a", text "b", text "c"] ⟨3, 2⟩

def sampleKey : Bytes := text "k"

def storedTrio : Coordinator := trio.exec (.put sampleKey [1] delivered 0)

/-- Two registered replicas without the third. -/
def storedPair : Coordinator :=
  trio.exec (.put sampleKey [1] (fun id => if id = text "c" then .lost [] else .acknowledged) 0)

/-- Only the third node gets the write. -/
def onlyC (id : Bytes) : Delivery := if id = text "c" then .acknowledged else .lost []

def quorumMissed : Status := .unavailable (text "write quorum not met: 1/2 acks")

/-- The cluster after two of the three nodes went down. -/
def onlyAUp : Coordinator :=
  (storedTrio.exec (.setFault (text "b") (some []))).exec (.setFault (text "c") (some []))

end Sample

theorem failedPut_hidden_iff_onlyC :
    (storedPair.put sampleKey [2] onlyC 0).2 = .error quorumMissed ∧
      ∀ fault bytes, (((storedPair.put sampleKey [2] onlyC 0).1.withFaults fault).get sampleKey).2 = .ok bytes →
        ((storedPair.withFaults fault).get sampleKey).2 = .ok bytes := by
  obtain ⟨failed, hidden⟩ : (storedPair.put sampleKey [2] onlyC 0).2 = .error quorumMissed ∧
      storedPair.exposes sampleKey [2] onlyC = false := by decide +kernel
  exact ⟨failed, (failedPut_hidden_iff storedPair sampleKey [2] onlyC 0 failed).mpr hidden⟩

theorem failedPut_shows :
    (system 1 [text "a", text "b", text "c"] ⟨3, 2⟩).Reachable onlyAUp ∧
      (onlyAUp.get sampleKey).2 = .ok [1] ∧
      (onlyAUp.put sampleKey [2] delivered 0).2 = .error quorumMissed ∧
      ((onlyAUp.put sampleKey [2] delivered 0).1.get sampleKey).2 = .ok [2] := by
  refine ⟨?_, by decide +kernel⟩
  exact .next (.next (.next (.start rfl) ⟨_, trivial, rfl⟩) ⟨_, trivial, rfl⟩) ⟨_, trivial, rfl⟩

end Coordinator
end Dos.Network
