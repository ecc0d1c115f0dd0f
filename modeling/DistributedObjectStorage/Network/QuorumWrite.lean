import DistributedObjectStorage.Network.ReadableWrite

/-!
# What a quorum write guarantees

A write that returned Ok is on every node it registers, and a read needs only
one of them: the checks of the others' stores keep a damaged copy from being
served.
-/
namespace Dos.Network
open ControlPlane Storage

/-- What may befall a node that stores an object. -/
inductive Damage where
  | unreachable (error : Bytes)
  | overwritten (bytes : Bytes)
  | missing
  deriving DecidableEq, Repr

/-- The payload file no longer has the digest of the object. -/
def Damage.Corrupts (data : Bytes) : Damage → Prop
  | .overwritten bytes => sha256Hex bytes ≠ sha256Hex data
  | _ => True

instance (data : Bytes) (damage : Damage) : Decidable (damage.Corrupts data) :=
  match damage with
  | .overwritten bytes => inferInstanceAs (Decidable (sha256Hex bytes ≠ sha256Hex data))
  | .unreachable _ | .missing => isTrue trivial

namespace StorageNode

def suffer (key : Bytes) (n : StorageNode) : Damage → StorageNode
  | .unreachable error => { n with fault := some error }
  | .overwritten bytes => { n with store.disk.files := n.store.disk.files.insert (keyDigest key) bytes }
  | .missing => { n with store.disk.files := n.store.disk.files.erase (keyDigest key) }

/-- The row is the object's and the payload file, if it is there, holds the
object or something that fails the check. -/
structure Guards (key data : Bytes) (n : StorageNode) : Prop where
  row : ∃ row, n.store.disk.head key = .ok row ∧ row.checksum = sha256Hex data
  file : ∀ bytes, n.store.disk.files[keyDigest key]? = some bytes →
    bytes = data ∨ sha256Hex bytes ≠ sha256Hex data

section Guards
variable {key data : Bytes} {n : StorageNode}

theorem Guards.of_get (stored : n.store.get key = .ok data) : n.Guards key data := by
  obtain ⟨row, head, file, same⟩ := Disk.get_ok_iff.mp stored
  refine ⟨⟨row, head, same.symm⟩, ?_⟩
  intro bytes found
  exact .inl (Option.some.inj (found.symm.trans file))

theorem Guards.suffer (guards : n.Guards key data) {damage : Damage} (corrupts : damage.Corrupts data) :
    (n.suffer key damage).Guards key data := by
  cases damage with
  | unreachable error => exact ⟨guards.row, guards.file⟩
  | overwritten bytes =>
      refine ⟨guards.row, ?_⟩
      intro other found
      cases (OrderedMap.lookup_insert_self _ _ _).symm.trans found
      exact .inr corrupts
  | missing =>
      refine ⟨guards.row, ?_⟩
      intro bytes found
      have gone : (n.store.disk.files.erase (keyDigest key))[keyDigest key]? = none :=
        Std.ExtTreeMap.getElem?_erase_self
      cases gone.symm.trans found

/-- A node that guards the object serves it or nothing. -/
theorem Guards.get_eq {bytes : Bytes} (guards : n.Guards key data) (served : n.get key = .ok bytes) :
    bytes = data := by
  have stored : n.store.get key = .ok bytes := by
    cases down : n.fault with
    | some error => simp [StorageNode.get, down] at served
    | none => simpa [StorageNode.get, down] using served
  obtain ⟨row, head, file, same⟩ := Disk.get_ok_iff.mp stored
  obtain ⟨own, there, checksum⟩ := guards.row
  cases head.symm.trans there
  rcases guards.file bytes file with right | wrong
  · exact right
  · exact absurd (same.trans checksum) wrong

theorem put_reachable {delivery : Delivery} {version : ℕ} {now : Int}
    (ok : codeOf (n.put delivery key data version now).2 = .ok) :
    (n.put delivery key data version now).1.fault = none := by
  unfold StorageNode.put call at ok ⊢
  split at ok
  · cases ok
  · cases ok
  · cases ok
  · next reachable => exact reachable

end Guards
end StorageNode

namespace Coordinator
variable {c : Coordinator} {key data : Bytes} {net : Bytes → Delivery} {now : Int} {row : ObjectMetadata}

def suffer (key : Bytes) (c : Coordinator) (harm : Bytes × Damage) : Coordinator :=
  c.updateNode harm.1 fun n => n.suffer key harm.2

/-- The node stores the bytes at the version. -/
def Keeps (c : Coordinator) (key data : Bytes) (version : ℕ) (id : Bytes) : Prop :=
  ∃ n, c.clients[id]? = some n ∧ n.store.get key = .ok data ∧
    ∃ row, n.store.head key = .ok row ∧ row.version = version

/-- The writes of a put, before it counts the answers. -/
def putFanOut (c : Coordinator) (key data : Bytes) (net : Bytes → Delivery) (now : Int) :
    Coordinator × List (Bytes × StatusCode) :=
  c.fanOut (fun id n => n.put (net id) key data (c.nextVersion key) now)
    (c.metadata.placementFor key c.opts.replicationFactor)

/-- What a put that reaches its quorum registers. -/
def putLocation (c : Coordinator) (key data : Bytes) (net : Bytes → Delivery) (now : Int) : ObjectLocation :=
  ⟨key, c.nextVersion key, sha256Hex data, data.length, false, ackedOf (c.putFanOut key data net now).2⟩

theorem put_ok (ok : (c.put key data net now).2 = .ok row) :
    row.version = c.nextVersion key ∧
      c.opts.writeQuorum ≤ (c.putLocation key data net now).replicas.length ∧
      (c.put key data net now).1.clients = (c.putFanOut key data net now).1.clients ∧
      (c.put key data net now).1.metadata =
        (c.metadata.registerObject (c.putLocation key data net now)).1 := by
  obtain ⟨metadata, opts, clients⟩ := fannedOut_frame
    (fun id n => n.put (net id) key data (c.nextVersion key) now)
    (c.metadata.placementFor key c.opts.replicationFactor) c
    (fun code => if code = .ok then .healthy else .lagging) (c.putFanOut key data net now).2
  simp only [putFanOut] at metadata opts clients
  unfold put at ok ⊢
  simp only at ok ⊢
  split at ok
  · cases ok
  · next large =>
      rw [if_neg large]
      split at ok
      · cases ok
      · next enough =>
          rw [if_neg enough]
          rw [opts] at enough
          cases ok
          refine ⟨rfl, Nat.not_lt.mp enough, clients, ?_⟩
          exact congrArg (fun m : MetadataRepository => (m.registerObject _).1) metadata

theorem ackedOf_fanOut_sublist {α : Type} (rpc : Bytes → StorageNode → StorageNode × StatusOr α)
    (ids : List Bytes) (c : Coordinator) : (ackedOf (c.fanOut rpc ids).2).Sublist ids := by
  induction ids generalizing c with
  | nil => exact .slnil
  | cons first rest ih =>
      have later := ih (c.callReplica first (rpc first)).1
      simp only [fanOut, ackedOf, List.filter_cons]
      split
      · exact later.cons_cons first
      · exact later.cons first

/-- Each node that a put registers stores it and can be reached. -/
theorem put_acked (ok : (c.put key data net now).2 = .ok row) {id : Bytes}
    (acked : id ∈ (c.putLocation key data net now).replicas) :
    ∃ n, (c.put key data net now).1.clients[id]? = some n ∧ n.get key = .ok data ∧
      n.store.get key = .ok data ∧ ∃ m, n.store.head key = .ok m ∧
        (row.version ≠ 0 → m.version = row.version) := by
  obtain ⟨version, -, clients, -⟩ := put_ok ok
  have distinct : (c.metadata.placementFor key c.opts.replicationFactor).Nodup :=
    ClusterMap.placementFor_nodup _ key _
  obtain ⟨member, n, found, answered⟩ := (mem_ackedOf_fanOut distinct c id).mp acked
  obtain ⟨stored, m, head, same⟩ := StorageNode.put_acknowledged answered
  refine ⟨_, ?_, ?_, stored, m, head, version ▸ same⟩
  · rw [clients, putFanOut, fanOut_clients distinct c member, found]
    rfl
  · simpa [StorageNode.get, StorageNode.put_reachable answered] using stored

section Harm
variable {harms : List (Bytes × Damage)}

theorem suffer_metadata (harms : List (Bytes × Damage)) (c : Coordinator) :
    (harms.foldl (suffer key) c).metadata = c.metadata := by
  induction harms generalizing c with
  | nil => rfl
  | cons harm harms ih =>
      rw [List.foldl_cons, ih]
      unfold suffer updateNode
      split <;> rfl

theorem suffer_clients (c : Coordinator) (harm : Bytes × Damage) (id : Bytes) :
    (c.suffer key harm).clients[id]? =
      if harm.1 = id then (c.clients[id]?).map fun n => n.suffer key harm.2 else c.clients[id]? := by
  unfold suffer updateNode
  split
  · next missing =>
      split
      · next same => simp [← same, missing]
      · rfl
  · next n found =>
      rw [OrderedMap.lookup_insert]
      split
      · next same => simp [← same, found]
      · rfl

theorem suffer_untouched {id : Bytes} (spared : ∀ harm ∈ harms, harm.1 ≠ id) (c : Coordinator) :
    (harms.foldl (suffer key) c).clients[id]? = c.clients[id]? := by
  induction harms generalizing c with
  | nil => rfl
  | cons harm harms ih =>
      obtain ⟨first, rest⟩ := List.forall_mem_cons.mp spared
      rw [List.foldl_cons, ih rest, suffer_clients, if_neg first]

theorem suffer_guards (corrupts : ∀ harm ∈ harms, harm.2.Corrupts data) {c : Coordinator} {id : Bytes}
    (guards : ∀ n, c.clients[id]? = some n → n.Guards key data) :
    ∀ n, (harms.foldl (suffer key) c).clients[id]? = some n → n.Guards key data := by
  induction harms generalizing c with
  | nil => exact guards
  | cons harm harms ih =>
      obtain ⟨first, rest⟩ := List.forall_mem_cons.mp corrupts
      apply ih rest
      intro n found
      rw [suffer_clients] at found
      split at found
      · obtain ⟨before, known, rfl⟩ := Option.map_eq_some_iff.mp found
        exact (guards before known).suffer first
      · exact guards n found

/-- A read among nodes that guard the object, one of them unharmed. -/
theorem findSome_suffered {ids : List Bytes} (corrupts : ∀ harm ∈ harms, harm.2.Corrupts data)
    (stored : ∀ id ∈ ids, ∃ n, c.clients[id]? = some n ∧ n.get key = .ok data ∧ n.store.get key = .ok data)
    {id : Bytes} (member : id ∈ ids) (spared : ∀ harm ∈ harms, harm.1 ≠ id) :
    ids.findSome? ((harms.foldl (suffer key) c).answer key) = some data := by
  have right (other : Bytes) (listed : other ∈ ids)
      (loud : (harms.foldl (suffer key) c).answer key other ≠ none) :
      (harms.foldl (suffer key) c).answer key other = some data := by
    obtain ⟨n, known, -, kept⟩ := stored other listed
    have before : ∀ m, c.clients[other]? = some m → m.Guards key data := by
      intro m found
      cases known.symm.trans found
      exact .of_get kept
    obtain ⟨bytes, answered⟩ := Option.ne_none_iff_exists'.mp loud
    obtain ⟨m, found, served⟩ := Option.bind_eq_some_iff.mp answered
    cases outcome : m.get key with
    | error status =>
        rw [outcome] at served
        cases served
    | ok got =>
        rw [outcome] at served
        cases served
        rw [answered, (suffer_guards corrupts before m found).get_eq outcome]
  apply (findSome_eq_some_iff (fun _ _ quiet => quiet) right).mpr
  refine ⟨id, member, ?_⟩
  obtain ⟨n, known, served, -⟩ := stored id member
  rw [answer, suffer_untouched spared, known, Option.bind_some, served]
  exact Option.some_ne_none data

end Harm

/-- A put that returned Ok is registered on at least a write quorum of distinct
nodes in placement order, each of which stores it, at the returned version unless
that has wrapped to zero; as long as one of them is spared a read returns the
bytes. -/
theorem put_durable (ok : (c.put key data net now).2 = .ok row) :
    ∃ loc, (c.put key data net now).1.metadata.lookupObject key = .ok loc ∧
      loc.version = row.version ∧
      loc.replicas.Sublist (c.metadata.placementFor key c.opts.replicationFactor) ∧
      loc.replicas.Nodup ∧ c.opts.writeQuorum ≤ loc.replicas.length ∧
      (∀ id ∈ loc.replicas, ∃ version, (c.put key data net now).1.Keeps key data version id ∧
        (row.version ≠ 0 → version = row.version)) ∧
      ∀ harms : List (Bytes × Damage), (∀ harm ∈ harms, harm.2.Corrupts data) →
        (∃ id ∈ loc.replicas, ∀ harm ∈ harms, harm.1 ≠ id) →
        ((harms.foldl (suffer key) (c.put key data net now).1).get key).2 = .ok data := by
  obtain ⟨version, quorum, -, metadata⟩ := put_ok ok
  have found : (c.put key data net now).1.metadata.lookupObject key =
      .ok (c.putLocation key data net now) := by
    rw [metadata]
    exact MetadataRepository.lookupObject_registerObject rfl
  have inOrder : (c.putLocation key data net now).replicas.Sublist
      (c.metadata.placementFor key c.opts.replicationFactor) := ackedOf_fanOut_sublist _ _ c
  have distinct := inOrder.nodup (ClusterMap.placementFor_nodup _ key _)
  refine ⟨_, found, version.symm, inOrder, distinct, quorum, ?_, ?_⟩
  · intro id acked
    obtain ⟨n, here, -, stored, m, head, numbered⟩ := put_acked ok acked
    exact ⟨m.version, ⟨n, here, stored, m, head, rfl⟩, numbered⟩
  · intro harms corrupts spared
    obtain ⟨id, member, untouched⟩ := spared
    rw [get_ok_iff, readable, suffer_metadata, found]
    apply findSome_suffered corrupts _ member untouched
    intro other acked
    obtain ⟨n, here, served, stored, -⟩ := put_acked ok acked
    exact ⟨n, here, served, stored⟩

/-- The write to one of three nodes is lost. -/
def missesC (id : Bytes) : Delivery := if id = text "c" then .lost [] else .acknowledged

theorem put_durable_missesC :
    ∃ loc, (trio.put sampleKey [1] missesC 0).1.metadata.lookupObject sampleKey = .ok loc ∧
      2 ≤ loc.replicas.length ∧
      (∀ id ∈ loc.replicas, (trio.put sampleKey [1] missesC 0).1.Keeps sampleKey [1] 1 id) ∧
      ∀ harms : List (Bytes × Damage), (∀ harm ∈ harms, harm.2.Corrupts [1]) →
        (∃ id ∈ loc.replicas, ∀ harm ∈ harms, harm.1 ≠ id) →
        ((harms.foldl (suffer sampleKey) (trio.put sampleKey [1] missesC 0).1).get sampleKey).2 = .ok [1] := by
  have ok : (trio.put sampleKey [1] missesC 0).2 = .ok ⟨sampleKey, 1, sha256Hex [1], 1, 0, false, []⟩ := by
    decide +kernel
  obtain ⟨loc, found, -, -, -, quorum, kept, read⟩ := put_durable ok
  refine ⟨loc, found, quorum, ?_, read⟩
  intro id member
  obtain ⟨version, keeps, numbered⟩ := kept id member
  obtain rfl : version = 1 := numbered Nat.one_ne_zero
  exact keeps

/-- A repeated request id carries any expected version past the check of the
nodes, so two calls register the largest version. -/
def atLimit : Coordinator :=
  ((trio.putConditional sampleKey [1] 0 (text "r") delivered 0).1.putConditional sampleKey [1] (2 ^ 64 - 2)
    (text "r") delivered 0).1

/-- The next put returns version zero, and the nodes number the copy themselves. -/
theorem put_wraps_to_zero :
    (atLimit.put sampleKey [2] delivered 0).2 = .ok ⟨sampleKey, 1, sha256Hex [2], 0, 0, false, []⟩ ∧
      ∃ loc, (atLimit.put sampleKey [2] delivered 0).1.metadata.lookupObject sampleKey = .ok loc ∧
        ∃ id ∈ loc.replicas, ¬(atLimit.put sampleKey [2] delivered 0).1.Keeps sampleKey [2] 0 id := by
  obtain ⟨ok, listed, numbered⟩ :
      (atLimit.put sampleKey [2] delivered 0).2 = .ok ⟨sampleKey, 1, sha256Hex [2], 0, 0, false, []⟩ ∧
        text "a" ∈ (atLimit.putLocation sampleKey [2] delivered 0).replicas ∧
        ∀ n ∈ (atLimit.put sampleKey [2] delivered 0).1.clients[text "a"]?,
          ∀ row ∈ (n.store.head sampleKey).toOption, row.version = 2 := by decide +kernel
  obtain ⟨-, -, -, metadata⟩ := put_ok ok
  refine ⟨ok, atLimit.putLocation sampleKey [2] delivered 0, ?_, text "a", listed, ?_⟩
  · rw [metadata]
    exact MetadataRepository.lookupObject_registerObject rfl
  · rintro ⟨n, found, -, row, head, zero⟩
    have two := numbered n found row (by rw [head]; rfl)
    rw [zero] at two
    cases two

end Coordinator
end Dos.Network
