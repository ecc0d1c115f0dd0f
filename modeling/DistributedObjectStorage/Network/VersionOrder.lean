import DistributedObjectStorage.Network.FailedPut

/-!
# The order of versions

The version of a plain write is one above what `LookupObject` answers, and a
lookup that fails for any reason counts as a new key. Versions of a key rise
along a run as long as the control plane keeps what it once knew and the
counter does not wrap.
-/
namespace Dos.Network
open ControlPlane Storage Transition

namespace Coordinator

/-- A key that was never written, a tombstone and a control plane that cannot
be reached all lead to version one. -/
def versionAfter : StatusOr ObjectLocation → ℕ
  | .ok loc => increment loc.version
  | .error _ => 1

/-- `Put`, given what its `LookupObject` answers. -/
def putAfter (c : Coordinator) (answer : StatusOr ObjectLocation) (key data : Bytes)
    (net : Bytes → Delivery) (now : Int) : Coordinator × StatusOr ObjectMetadata :=
  let replicas := c.metadata.placementFor key c.opts.replicationFactor
  if replicas.length < c.opts.writeQuorum then (c, .error tooSmall)
  else
    let version := versionAfter answer
    let (c, codes) := c.fanOut (fun id n => n.put (net id) key data version now) replicas
    let c := c.markAll (fun code => if code = .ok then .healthy else .lagging) codes
    let acked := ackedOf codes
    if acked.length < c.opts.writeQuorum then
      (c, .error (.unavailable (text "write quorum not met: " ++ text (toString acked.length) ++
        text "/" ++ text (toString c.opts.writeQuorum) ++ text " acks")))
    else c.register ⟨key, data.length, sha256Hex data, version, 0, false, []⟩ acked

theorem put_eq_putAfter (c : Coordinator) (key data : Bytes) (net : Bytes → Delivery) (now : Int) :
    c.put key data net now = c.putAfter (c.metadata.lookupObject key) key data net now := by
  unfold put putAfter
  have same : c.nextVersion key = versionAfter (c.metadata.lookupObject key) := by
    unfold nextVersion versionAfter
    split <;> simp_all
  rw [same]

/-- What a write of a key does to the control plane: nothing when it fails, and
one registration at its version when it succeeds. -/
inductive Registered (c c' : Coordinator) (key : Bytes) (version : ℕ) :
    StatusOr ObjectMetadata → Prop
  | failed {status} : c'.metadata = c.metadata → Registered c c' key version (.error status)
  | stored {row acked} : row.key = key → row.version = version →
      c'.metadata = (c.metadata.registerObject
        ⟨key, version, row.checksum, row.size, false, acked⟩).1 →
      Registered c c' key version (.ok row)

theorem register_registered {c c' : Coordinator} (kept : c'.metadata = c.metadata)
    (row : ObjectMetadata) (acked : List Bytes) :
    Registered c (c'.register row acked).1 row.key row.version (c'.register row acked).2 :=
  .stored rfl rfl (congrArg (fun metadata : MetadataRepository =>
    (metadata.registerObject ⟨row.key, row.version, row.checksum, row.size, false, acked⟩).1) kept)

section Effects
variable (c : Coordinator) (key data : Bytes) (net : Bytes → Delivery) (now : Int)

theorem putAfter_registered (answer : StatusOr ObjectLocation) :
    Registered c (c.putAfter answer key data net now).1 key (versionAfter answer)
      (c.putAfter answer key data net now).2 := by
  unfold putAfter
  simp only
  split
  · exact .failed rfl
  · split
    · exact .failed (fannedOut_frame _ _ c _ _).1
    · exact register_registered (fannedOut_frame _ _ c _ _).1 _ _

theorem putConditional_registered (expectedVersion : ℕ) (requestId : Bytes) :
    Registered c (c.putConditional key data expectedVersion requestId net now).1 key
      (increment expectedVersion) (c.putConditional key data expectedVersion requestId net now).2 := by
  unfold putConditional
  simp only
  split
  · exact .failed rfl
  · split
    · exact register_registered (fannedOut_frame _ _ c _ _).1 _ _
    · split
      · exact .failed (fannedOut_frame _ _ c _ _).1
      · exact .failed (fannedOut_frame _ _ c _ _).1

theorem delete_metadata :
    (c.delete key net).1.metadata = c.metadata ∨
      (c.delete key net).1.metadata = (c.metadata.removeObject key).1 := by
  unfold delete
  simp only
  split
  · exact .inl (fannedOut_frame _ _ c _ _).1
  · right
    simp only [(fannedOut_frame _ _ c _ _).1]

end Effects
end Coordinator

/-! ## Runs of one key -/

/-- Calls on one key, one after another, between changes of what the nodes can
do. The outage of a put is the message with which its lookup fails. -/
inductive KeyAction where
  | put (data : Bytes) (outage : Option Bytes) (net : Bytes → Delivery) (now : Int)
  | putConditional (data : Bytes) (expectedVersion : ℕ) (requestId : Bytes)
      (net : Bytes → Delivery) (now : Int)
  | delete (net : Bytes → Delivery)
  | setFault (id : Bytes) (fault : Option Bytes)
  | restart (id : Bytes) (now : Int)

/-- `returned` is written and never read: the versions of the writes so far that
succeeded. -/
structure KeyRun where
  coordinator : Coordinator
  returned : List ℕ

namespace KeyRun

/-- The registered version of the key, tombstones included. -/
def registered (s : KeyRun) (key : Bytes) : Option ℕ :=
  (s.coordinator.metadata.objects[key]?).map (·.version)

def lookup (s : KeyRun) (key : Bytes) : Option Bytes → StatusOr ObjectLocation
  | some message => .error (.unavailable message)
  | none => s.coordinator.metadata.lookupObject key

def note (s : KeyRun) : Coordinator × StatusOr ObjectMetadata → KeyRun
  | (c, .ok row) => ⟨c, row.version :: s.returned⟩
  | (c, .error _) => { s with coordinator := c }

def exec (key : Bytes) (s : KeyRun) : KeyAction → KeyRun
  | .put data outage net now =>
      s.note (s.coordinator.putAfter (s.lookup key outage) key data net now)
  | .putConditional data expectedVersion requestId net now =>
      s.note (s.coordinator.putConditional key data expectedVersion requestId net now)
  | .delete net => { s with coordinator := (s.coordinator.delete key net).1 }
  | .setFault id fault => { s with coordinator := s.coordinator.exec (.setFault id fault) }
  | .restart id now => { s with coordinator := s.coordinator.exec (.restart id now) }

/-- A plain write that succeeds found the registration of a key that has one, at
a version with a successor; a conditional write that succeeds does not go below
the registration. -/
def Remembers (key : Bytes) (s : KeyRun) : KeyAction → Prop
  | .put data outage net now =>
      codeOf (s.coordinator.putAfter (s.lookup key outage) key data net now).2 = .ok →
        ∀ version ∈ s.registered key, codeOf (s.lookup key outage) = .ok ∧ version + 1 < 2 ^ 64
  | .putConditional data expectedVersion requestId net now =>
      codeOf (s.coordinator.putConditional key data expectedVersion requestId net now).2 = .ok →
        ∀ version ∈ s.registered key, version ≤ increment expectedVersion
  | _ => True

/-- The runs from any state of the cluster. -/
def system (key : Bytes) (c : Coordinator) (allowed : KeyRun → KeyAction → Prop) : System KeyRun :=
  .guarded (exec key) allowed ⟨c, []⟩

/-- Nothing returned is above what is registered. -/
def Ok (key : Bytes) (s : KeyRun) : Prop :=
  ∀ v ∈ s.returned, ∃ version ∈ s.registered key, v ≤ version

section Steps
variable {key : Bytes} {s : KeyRun}

theorem registered_congr {s' : KeyRun}
    (same : s'.coordinator.metadata = s.coordinator.metadata) :
    s'.registered key = s.registered key := by
  unfold registered
  rw [same]

theorem registered_of_lookup {outage : Option Bytes} {loc : ObjectLocation}
    (found : s.lookup key outage = .ok loc) : s.registered key = some loc.version := by
  cases outage with
  | some message => cases found
  | none =>
      obtain ⟨entry, _⟩ := MetadataRepository.lookupObject_ok.mp found
      simp [registered, entry]

/-- A lookup fails with a code other than Ok. -/
theorem ok_of_lookup {outage : Option Bytes} (answered : codeOf (s.lookup key outage) = .ok) :
    ∃ loc, s.lookup key outage = .ok loc := by
  cases outage with
  | some message => cases answered
  | none =>
      by_contra missing
      push Not at missing
      rw [lookup, MetadataRepository.lookupObject_error missing] at answered
      cases answered

/-- The version of a plain write is above the registered one. -/
theorem Remembers.lt_versionAfter {data : Bytes} {outage : Option Bytes} {net : Bytes → Delivery}
    {now : Int} (remembers : Remembers key s (.put data outage net now))
    (stored : codeOf (s.coordinator.putAfter (s.lookup key outage) key data net now).2 = .ok) :
    ∀ version ∈ s.registered key, version < Coordinator.versionAfter (s.lookup key outage) := by
  intro version known
  obtain ⟨answered, room⟩ := remembers stored version known
  obtain ⟨loc, found⟩ := ok_of_lookup answered
  rw [registered_of_lookup found] at known
  cases known
  rw [found]
  exact lt_increment room

theorem Ok.note (ok : s.Ok key) {version : ℕ} {c' : Coordinator} {result : StatusOr ObjectMetadata}
    (written : Coordinator.Registered s.coordinator c' key version result)
    (above : codeOf result = .ok → ∀ old ∈ s.registered key, old ≤ version) : (s.note (c', result)).Ok key := by
  cases written with
  | failed same =>
      intro v returned
      rw [registered_congr (s := s) same]
      exact ok v returned
  | @stored row acked _ number registration =>
      have now : (s.note (c', .ok row)).registered key = some version := by
        simp [registered, KeyRun.note, registration, MetadataRepository.registerObject]
      intro v returned
      rw [now]
      refine ⟨version, rfl, ?_⟩
      rcases List.mem_cons.mp returned with rfl | earlier
      · exact number.le
      · obtain ⟨old, known, below⟩ := ok v earlier
        exact below.trans (above rfl old known)

theorem registered_removeObject (r : MetadataRepository) (key other : Bytes) :
    ((r.removeObject key).1.objects[other]?).map (·.version) =
      (r.objects[other]?).map (·.version) := by
  rw [MetadataRepository.removeObject_objects]
  by_cases same : key = other
  · subst same
    rw [if_pos rfl, Option.map_map]
    congr 1
    funext loc
    simp only [Function.comp_apply]
    split <;> rfl
  · rw [if_neg same]

theorem Ok.exec (ok : s.Ok key) {act : KeyAction} (remembers : Remembers key s act) :
    (s.exec key act).Ok key := by
  cases act with
  | put data outage net now =>
      exact ok.note (Coordinator.putAfter_registered _ _ _ _ _ _)
        (fun stored old known => (remembers.lt_versionAfter stored old known).le)
  | putConditional data expectedVersion requestId net now =>
      exact ok.note (Coordinator.putConditional_registered _ _ _ _ _ _ _) remembers
  | delete net =>
      have same : (s.exec key (.delete net)).registered key = s.registered key := by
        unfold registered
        rcases Coordinator.delete_metadata s.coordinator key net with kept | removed
        · simp only [KeyRun.exec, kept]
        · simp only [KeyRun.exec, removed]
          exact registered_removeObject _ _ _
      intro v returned
      rw [same]
      exact ok v returned
  | setFault id fault =>
      intro v returned
      rw [registered_congr (s := s) (Coordinator.updateNode_metadata _ _ _)]
      exact ok v returned
  | restart id now =>
      intro v returned
      rw [registered_congr (s := s) (Coordinator.updateNode_metadata _ _ _)]
      exact ok v returned

theorem reachable_ok {c : Coordinator} (reachable : (system key c (Remembers key)).Reachable s) :
    s.Ok key := by
  refine reachable.invariant ?_ ?_
  · rintro _ rfl v returned
    cases returned
  · rintro s _ _ ok ⟨act, remembers, rfl⟩
    exact ok.exec remembers

/-- In a run that remembers what was registered, a plain write that succeeds
returns a version above all that were returned before. -/
theorem put_version_above {c : Coordinator}
    (reachable : (system key c (Remembers key)).Reachable s) {data : Bytes}
    {outage : Option Bytes} {net : Bytes → Delivery} {now : Int}
    (remembers : Remembers key s (.put data outage net now)) {row : ObjectMetadata}
    (stored : (s.coordinator.putAfter (s.lookup key outage) key data net now).2 = .ok row) :
    ∀ v ∈ s.returned, v < row.version := by
  intro v returned
  obtain ⟨old, known, below⟩ := reachable_ok reachable v returned
  have written := s.coordinator.putAfter_registered key data net now (s.lookup key outage)
  rw [stored] at written
  cases written with
  | stored _ number _ =>
      rw [number]
      exact below.trans_lt (remembers.lt_versionAfter (by rw [stored]; rfl) old known)

end Steps

/-! One node; a key is written twice and removed. -/
section Sample
open Coordinator (sampleKey)

def solo : Coordinator := .fresh 1 [text "a"] ⟨1, 1⟩

def plainPut (data : Bytes) : KeyAction := .put data none (fun _ => .acknowledged) 0

def once : KeyRun := exec sampleKey ⟨solo, []⟩ (plainPut [1])

def twice : KeyRun := once.exec sampleKey (plainPut [2])

def removed : KeyRun := twice.exec sampleKey (.delete fun _ => .acknowledged)

def rowOf (data : Bytes) (version : ℕ) : ObjectMetadata :=
  ⟨sampleKey, data.length, sha256Hex data, version, 0, false, []⟩

/-- The answer of a further plain write. -/
def further (s : KeyRun) (outage : Option Bytes) : StatusOr ObjectMetadata :=
  (s.coordinator.putAfter (s.lookup sampleKey outage) sampleKey [3] (fun _ => .acknowledged) 0).2

theorem put_version_above_twice :
    twice.further none = .ok (rowOf [3] 3) ∧ twice.returned = [2, 1] ∧
      ∀ v ∈ twice.returned, v < 3 := by
  obtain ⟨unknown, known, still, stored, returned⟩ :
      KeyRun.registered ⟨solo, []⟩ sampleKey = none ∧
        (∀ version ∈ once.registered sampleKey,
          codeOf (once.lookup sampleKey none) = .ok ∧ version + 1 < 2 ^ 64) ∧
        (∀ version ∈ twice.registered sampleKey,
          codeOf (twice.lookup sampleKey none) = .ok ∧ version + 1 < 2 ^ 64) ∧
        twice.further none = .ok (rowOf [3] 3) ∧ twice.returned = [2, 1] := by decide +kernel
  have first : Remembers sampleKey ⟨solo, []⟩ (plainPut [1]) := by
    intro _ version old
    rw [unknown] at old
    cases old
  have reachable : (system sampleKey solo (Remembers sampleKey)).Reachable twice :=
    .next (.next (.start rfl) ⟨plainPut [1], first, rfl⟩) ⟨plainPut [2], fun _ => known, rfl⟩
  have remembers : Remembers sampleKey twice (.put [3] none (fun _ => .acknowledged) 0) := fun _ => still
  exact ⟨stored, returned, put_version_above reachable remembers stored⟩

/-- A write after a removal starts over, and so does one whose lookup fails. -/
theorem version_starts_over :
    (system sampleKey solo fun _ _ => True).Reachable removed ∧
      removed.returned = [2, 1] ∧ removed.further none = .ok (rowOf [3] 1) ∧
      twice.returned = [2, 1] ∧ twice.further (some []) = .ok (rowOf [3] 1) := by
  refine ⟨?_, by decide +kernel⟩
  exact .next (.next (.next (.start rfl) ⟨plainPut [1], trivial, rfl⟩) ⟨plainPut [2], trivial, rfl⟩)
    ⟨.delete fun _ => .acknowledged, trivial, rfl⟩

end Sample
end KeyRun
end Dos.Network
