import Mathlib.Data.List.Perm.Basic
import DistributedObjectStorage.Cluster.Placement
import DistributedObjectStorage.Network.FailedPut
import DistributedObjectStorage.Network.Interleaving

/-!
# Replica agreement

A put picks its version, writes the replicas and registers the location in
separate rounds. While no two puts of a key are between their lookup and their
return and the registered version has a successor, the registered location and
the replicas agree.
-/
namespace Dos.Network
open ControlPlane Storage Transition

/-- The call is about to look up its version. -/
def Call.waits : Call → Bool
  | .lookup .. => true
  | _ => false

/-- The call has taken its version and not returned. -/
def Call.active : Call → Bool
  | .write .. | .publish .. => true
  | _ => false

namespace Traffic

/-- The versions that successful puts of the key have returned. -/
def okVersions (s : Traffic) (key : Bytes) : List ℕ :=
  s.replies.filterMap fun
    | .put k (.ok row) => if k = key then some row.version else none
    | _ => none

/-- The node stores the bytes for the key at the version. -/
def Stores (s : Traffic) (key id : Bytes) (version : ℕ) (data : Bytes) : Prop :=
  ∃ n, s.nodes[id]? = some n ∧ n.store.get key = .ok data ∧
    ∃ row, n.store.head key = .ok row ∧ row.version = version

/-- Every registered replica stores bytes of the registered checksum at the
registered version. -/
def Agree (s : Traffic) (key : Bytes) : Prop :=
  ∀ loc, s.metadata.lookupObject key = .ok loc → ∀ id ∈ loc.replicas,
    ∃ data, sha256Hex data = loc.checksum ∧ s.Stores key id loc.version data

def Up (s : Traffic) (id : Bytes) : Prop := ∃ n, s.nodes[id]? = some n ∧ n.fault = none

/-- All nodes that the key may be placed on are reachable. -/
def AllUp (s : Traffic) (key : Bytes) : Prop :=
  ∀ rf, ∀ id ∈ s.metadata.placementFor key rf, s.Up id

/-- Puts of one key, by coordinators that reach all its nodes. -/
def PutsOf (key : Bytes) (s : Traffic) : TrafficAction → Prop
  | .put caller k _ =>
      k = key ∧ ∀ id ∈ s.metadata.placementFor key caller.opts.replicationFactor, id ∈ caller.clients
  | .step _ _ delivery _ => delivery = .acknowledged
  | _ => False

/-- The registered version of the key has a successor. -/
def Room (s : Traffic) (key : Bytes) : Prop :=
  ∀ loc ∈ (s.metadata.lookupObject key).toOption, loc.version + 1 < 2 ^ 64

/-- A put looks its version up while no other put is between its lookup and its
return, and the version it finds has a successor. -/
def OneAtATime (key : Bytes) (s : Traffic) : TrafficAction → Prop
  | .step t _ _ _ =>
      s.calls[t]?.any Call.waits = true → (∀ other ∈ s.calls, other.active = false) ∧ s.Room key
  | _ => True

/-! ## The invariant -/

/-- The version was computed from the location that is registered now. -/
def Stamp (s : Traffic) (key : Bytes) (version : ℕ) : Prop := version = s.nextVersion key ∧ s.Room key

/-- How far a put of the key came. -/
def Sound (s : Traffic) (key : Bytes) : Call → Prop
  | .lookup caller k _ replicas =>
      k = key ∧ caller.opts.writeQuorum ≤ replicas.length ∧ ∀ id ∈ replicas, id ∈ caller.clients ∧ s.Up id
  | .write caller k data version futures =>
      k = key ∧ s.Stamp key version ∧ caller.opts.writeQuorum ≤ futures.length ∧
        (∀ f ∈ futures, f.1 ∈ caller.clients ∧ s.Up f.1) ∧
        (key ≠ [] → ∀ f ∈ futures, ∀ code ∈ f.2, code = .ok ∧ s.Stores key f.1 version data) ∧
        (key = [] → s.Agree key ∧ ∀ f ∈ futures, f.2 ≠ some .ok)
  | .publish k data version acked =>
      k = key ∧ s.Stamp key version ∧ ∀ id ∈ acked, s.Stores key id version data
  | _ => False

structure Serial (key : Bytes) (s : Traffic) : Prop where
  up : s.AllUp key
  below : s.Room key → ∀ version ∈ s.okVersions key, version < s.nextVersion key
  distinct : (s.okVersions key).Nodup
  single : (s.calls.filter Call.active).length ≤ 1
  sound : ∀ call ∈ s.calls, s.Sound key call
  quiet : (∀ call ∈ s.calls, call.active = false) → s.Agree key

section Steps
variable {key : Bytes} {s s' : Traffic} {call : Call} {calls : List Call}

/-- The calls and replies do not matter. -/
theorem Sound.congr (sound : s.Sound key call) (metadata : s'.metadata = s.metadata)
    (nodes : s'.nodes = s.nodes) : s'.Sound key call := by
  obtain ⟨_, _, _, _, _⟩ := s
  obtain ⟨_, _, _, _, _⟩ := s'
  cases metadata
  cases nodes
  cases call <;> exact sound

theorem Serial.perm (serial : Serial key s) (same : s.calls.Perm calls) :
    Serial key { s with calls := calls } where
  up := serial.up
  below := serial.below
  distinct := serial.distinct
  single := by
    rw [← (same.filter Call.active).length_eq]
    exact serial.single
  sound := fun call member => (serial.sound call (same.mem_iff.mpr member)).congr rfl rfl
  quiet := fun idle => serial.quiet fun call member => idle call (same.mem_iff.mp member)

/-- A put that has not looked up its version needs no more than its nodes. -/
theorem Sound.idle (sound : s.Sound key call) (waiting : call.active = false)
    (up : ∀ id, s.Up id → s'.Up id) : s'.Sound key call := by
  cases call with
  | lookup caller k data replicas =>
      obtain ⟨named, quorum, known⟩ := sound
      exact ⟨named, quorum, fun id member => ⟨(known id member).1, up id (known id member).2⟩⟩
  | write caller k data version futures => cases waiting
  | publish k data version acked => cases waiting
  | remove caller k rest acks => exact sound.elim
  | unpublish k => exact sound.elim

/-- The call that looked up its version goes on, or it returns. -/
theorem Serial.resume {rest : List Call} {next : Option Call} (up : s'.AllUp key)
    (below : s'.Room key → ∀ version ∈ s'.okVersions key, version < s'.nextVersion key)
    (distinct : (s'.okVersions key).Nodup) (idle : ∀ other ∈ rest, other.active = false)
    (sound : ∀ other ∈ rest, s'.Sound key other)
    (goesOn : ∀ call, next = some call → call.active = true ∧ s'.Sound key call)
    (returns : next = none → s'.Agree key) :
    Serial key { s' with calls := next.toList ++ rest } := by
  have none : rest.filter Call.active = [] := by
    simpa [List.filter_eq_nil_iff] using idle
  cases next with
  | none =>
      refine ⟨up, below, distinct, ?_, fun call member => (sound call member).congr rfl rfl,
        fun _ => returns rfl⟩
      simp [none]
  | some call =>
      obtain ⟨active, own⟩ := goesOn call rfl
      refine ⟨up, below, distinct, ?_, fun other member => ?_, fun quiet => ?_⟩
      · simp [active, none]
      · rcases List.mem_cons.mp member with rfl | old
        · exact own.congr rfl rfl
        · exact (sound other old).congr rfl rfl
      · have inactive := quiet call List.mem_cons_self
        rw [active] at inactive
        cases inactive

/-! ### One write to a node -/

section Node
variable (data : Bytes) {n : StorageNode} {version : ℕ}

theorem put_stored (named : key ≠ []) (up : n.fault = none) (positive : version ≠ 0) (now : Int) :
    codeOf (n.put .acknowledged key data version now).2 = .ok ∧
      (n.put .acknowledged key data version now).1.fault = none ∧
      (n.put .acknowledged key data version now).1.store.get key = .ok data ∧
      ∃ row, (n.put .acknowledged key data version now).1.store.head key = .ok row ∧
        row.version = version := by
  obtain ⟨current, _, _, result, _⟩ := doPut_plain n.store (.putWithVersion key data version) rfl rfl now
  have served : n.put .acknowledged key data version now =
      ({ n with store := (n.store.doPut (.putWithVersion key data version) now).1 },
        .ok (newRow (.putWithVersion key data version) current now)) := by
    simp [StorageNode.put_eq, StorageNode.call, up, named, result]
  have ok : codeOf (n.put .acknowledged key data version now).2 = .ok := by
    rw [served]
    rfl
  obtain ⟨stored, row, head, numbered⟩ := StorageNode.put_acknowledged ok
  exact ⟨ok, by rw [served]; exact up, stored, row, head, numbered positive⟩

/-- The store refuses the empty key. -/
theorem put_unnamed (up : n.fault = none) (now : Int) :
    (n.put .acknowledged [] data version now).1 = n ∧
      codeOf (n.put .acknowledged [] data version now).2 ≠ .ok := by
  obtain ⟨address, store, fault⟩ := n
  subst up
  have served : StorageNode.put ⟨address, store, none⟩ .acknowledged [] data version now =
      (⟨address, store, none⟩, .error (.invalidArgument (text "empty key"))) := by
    simp [StorageNode.put_eq, StorageNode.call]
  rw [served]
  exact ⟨rfl, by simp [codeOf, Status.invalidArgument]⟩

end Node

section Insert
variable {id : Bytes} {n : StorageNode}

theorem Up.insert {other : Bytes} (up : s.Up other) (id : Bytes) (fine : n.fault = none) :
    ({ s with nodes := s.nodes.insert id n } : Traffic).Up other := by
  by_cases same : id = other
  · subst same
    exact ⟨n, OrderedMap.lookup_insert_self _ _ _, fine⟩
  · obtain ⟨old, found, still⟩ := up
    exact ⟨old, (OrderedMap.lookup_insert_ne _ _ same).trans found, still⟩

theorem Stores.insert {other : Bytes} {version : ℕ} {data : Bytes} (stores : s.Stores key other version data)
    (fine : n.store.get key = .ok data ∧ ∃ row, n.store.head key = .ok row ∧ row.version = version) :
    ({ s with nodes := s.nodes.insert id n } : Traffic).Stores key other version data := by
  by_cases same : id = other
  · subst same
    exact ⟨n, OrderedMap.lookup_insert_self _ _ _, fine⟩
  · obtain ⟨old, found, still⟩ := stores
    exact ⟨old, (OrderedMap.lookup_insert_ne _ _ same).trans found, still⟩

end Insert

variable {rest : List Call} {caller : Caller} {k data : Bytes} {version : ℕ}
  {futures : List (Bytes × Option StatusCode)} {acked : List Bytes}

theorem Stamp.pos (stamp : s.Stamp key version) : version ≠ 0 := by
  obtain ⟨rfl, room⟩ := stamp
  unfold nextVersion
  split
  · next loc found =>
      have := lt_increment (room loc (by simp [found, Except.toOption]))
      omega
  · exact Nat.one_ne_zero

section Moves
variable (serial : Serial key s) (sound : ∀ other ∈ rest, s.Sound key other)
  (idle : ∀ other ∈ rest, other.active = false)
include serial sound idle

theorem Serial.lookup {replicas : List Bytes} (own : s.Sound key (.lookup caller k data replicas))
    (room : s.Room key) (agree : s.Agree key) :
    Serial key { s with calls := (some (Call.write caller k data (s.nextVersion k)
      (replicas.map (·, none)))).toList ++ rest } := by
  obtain ⟨rfl, quorum, known⟩ := own
  refine Serial.resume serial.up serial.below serial.distinct idle sound ?_ (by rintro ⟨⟩)
  rintro _ ⟨⟩
  refine ⟨rfl, rfl, ⟨rfl, room⟩, by simpa using quorum, ?_, ?_, fun _ => ⟨agree, ?_⟩⟩
  · simpa using known
  · simp
  · simp

/-- A future finishes. -/
theorem Serial.future (own : s.Sound key (.write caller k data version futures))
    {i : ℕ} {id : Bytes} (found : futures[i]? = some (id, none)) (now : Int) :
    let after := s.callNode caller.clients id fun n => n.put .acknowledged k data version now
    Serial key { after.1 with calls := (some (Call.write caller k data version
      (futures.set i (id, some after.2)))).toList ++ rest } := by
  intro after
  obtain ⟨rfl, stamp, quorum, known, written, unnamed⟩ := own
  have inside := List.mem_of_getElem? found
  obtain ⟨client, n, here, up⟩ := known _ inside
  have positive : version ≠ 0 := stamp.pos
  have result : after = ({ s with nodes := s.nodes.insert id (n.put .acknowledged k data version now).1 },
      codeOf (n.put .acknowledged k data version now).2) := by
    simp [after, callNode, client, here]
  rw [result]
  have length : caller.opts.writeQuorum ≤ (futures.set i (id, some
      (codeOf (n.put .acknowledged k data version now).2))).length := by simpa using quorum
  by_cases empty : k = []
  · -- the node answers an error and keeps its store
    subst empty
    obtain ⟨same, refused⟩ := put_unnamed data up now
    rw [same]
    have unchanged : s.nodes.insert id n = s.nodes := OrderedMap.insert_found here
    rw [unchanged]
    obtain ⟨agree, errors⟩ := unnamed rfl
    refine Serial.resume serial.up serial.below serial.distinct idle sound ?_ (by rintro ⟨⟩)
    rintro _ ⟨⟩
    refine ⟨rfl, rfl, stamp, length, fun f member => ?_, fun named => absurd rfl named,
      fun _ => ⟨agree, fun f member => ?_⟩⟩
    · rcases List.mem_or_eq_of_mem_set member with old | rfl
      · exact known f old
      · exact ⟨client, n, here, up⟩
    · rcases List.mem_or_eq_of_mem_set member with old | rfl
      · exact errors f old
      · exact fun ok => refused (Option.some.inj ok)
  · obtain ⟨code, fault, bytes, head⟩ := put_stored data empty up positive now
    have fine (other : Bytes) (old : s.Up other) := old.insert id fault
    refine Serial.resume (fun rf other placed => fine other (serial.up rf other placed)) serial.below
      serial.distinct idle (fun other member => (sound other member).idle (idle other member) fine) ?_
      (by rintro ⟨⟩)
    rintro _ ⟨⟩
    refine ⟨rfl, rfl, stamp, length, fun f member => ?_, fun _ f member c done => ?_, fun none => absurd none empty⟩
    · rcases List.mem_or_eq_of_mem_set member with old | rfl
      · exact ⟨(known f old).1, fine f.1 (known f old).2⟩
      · exact ⟨client, fine id ⟨n, here, up⟩⟩
    · rcases List.mem_or_eq_of_mem_set member with old | rfl
      · obtain ⟨ok, stores⟩ := written empty f old c done
        exact ⟨ok, stores.insert ⟨bytes, head⟩⟩
      · cases done
        exact ⟨code, _, OrderedMap.lookup_insert_self _ _ _, bytes, head⟩

/-- All futures are done: the quorum is there, unless the key is empty. -/
theorem Serial.join (own : s.Sound key (.write caller k data version futures))
    (finished : futures.all (·.2.isSome) = true) :
    (¬(ackedFutures futures).length < caller.opts.writeQuorum →
      Serial key { s with calls := (some (Call.publish k data version (ackedFutures futures))).toList ++ rest }) ∧
      ((ackedFutures futures).length < caller.opts.writeQuorum → s.Agree key) := by
  obtain ⟨rfl, stamp, quorum, known, written, unnamed⟩ := own
  have done (f : Bytes × Option StatusCode) (member : f ∈ futures) : ∃ code, f.2 = some code :=
    Option.isSome_iff_exists.mp (List.all_eq_true.mp finished f member)
  constructor
  · intro _
    refine Serial.resume serial.up serial.below serial.distinct idle sound ?_ (by rintro ⟨⟩)
    rintro _ ⟨⟩
    refine ⟨rfl, rfl, stamp, fun id member => ?_⟩
    obtain ⟨f, inside, rfl⟩ := List.mem_map.mp member
    obtain ⟨inside, ok⟩ := List.mem_filter.mp inside
    have ok : f.2 = some .ok := by simpa using ok
    by_cases empty : k = []
    · exact absurd ok ((unnamed empty).2 f inside)
    · exact (written empty f inside .ok ok).2
  · intro missed
    by_cases empty : k = []
    · exact (unnamed empty).1
    · -- every node acknowledged
      have all : ackedFutures futures = futures.map (·.1) := by
        unfold ackedFutures
        rw [List.filter_eq_self.mpr]
        intro f member
        obtain ⟨code, same⟩ := done f member
        rw [same, (written empty f member code same).1]
        rfl
      rw [all, List.length_map] at missed
      omega

/-- The registration returns the put. -/
theorem Serial.publish (own : s.Sound key (.publish k data version acked)) :
    let loc : ObjectLocation := ⟨k, version, sha256Hex data, data.length, false, acked⟩
    let row : ObjectMetadata := ⟨k, data.length, sha256Hex data, version, 0, false, []⟩
    Serial key { ({ s with metadata := (s.metadata.registerObject loc).1 } : Traffic).reply (.put k (.ok row)) with
      calls := rest } := by
  intro loc row
  obtain ⟨rfl, stamp, stored⟩ := own
  let s' := ({ s with metadata := (s.metadata.registerObject loc).1 } : Traffic).reply (.put k (.ok row))
  have found : s'.metadata.lookupObject k = .ok loc := MetadataRepository.lookupObject_registerObject rfl
  have versions : s'.okVersions k = s.okVersions k ++ [version] := by
    simp [s', okVersions, reply, row]
  have newest (old : ℕ) (member : old ∈ s.okVersions k) : old < version :=
    stamp.1 ▸ serial.below stamp.2 old member
  have resumed : Serial k { s' with calls := (none : Option Call).toList ++ rest } := by
    refine Serial.resume serial.up ?_ ?_ idle
      (fun other member => (sound other member).idle (idle other member) fun _ up => up)
      (by rintro _ ⟨⟩) fun _ => ?_
    · intro room old member
      have next : version < s'.nextVersion k := by
        simpa only [nextVersion, found] using lt_increment (room loc (by simp [found, Except.toOption]))
      rw [versions, List.mem_append, List.mem_singleton] at member
      rcases member with earlier | rfl
      · exact (newest old earlier).trans next
      · exact next
    · rw [versions]
      refine List.nodup_append.mpr ⟨serial.distinct, List.pairwise_singleton _ _, ?_⟩
      intro old member new single
      obtain rfl := List.mem_singleton.mp single
      exact (newest old member).ne
    · intro current lookup id member
      obtain rfl : loc = current := Except.ok.inj (found.symm.trans lookup)
      exact ⟨data, rfl, stored id member⟩
  exact resumed

end Moves

theorem okVersions_refused (s : Traffic) (key k : Bytes) (e : Status) :
    (s.reply (.put k (.error e))).okVersions key = s.okVersions key := by
  simp [okVersions, reply]

/-- The step lemma, for the call that moves. -/
theorem Serial.stepCall (serial : Serial key s) (order : s.calls.Perm (call :: rest))
    (alone : call.waits = true → (∀ other ∈ rest, other.active = false) ∧ s.Room key) (i : ℕ) (now : Int) :
    Serial key { (s.stepCall i .acknowledged now call).1 with
      calls := (s.stepCall i .acknowledged now call).2.toList ++ rest } := by
  have own := serial.sound call (order.mem_iff.mpr List.mem_cons_self)
  have sound (other : Call) (member : other ∈ rest) : s.Sound key other :=
    serial.sound other (order.mem_iff.mpr (List.mem_cons_of_mem _ member))
  have idle (active : call.active = true) : ∀ other ∈ rest, other.active = false := by
    have single := serial.single
    rw [(order.filter Call.active).length_eq, List.filter_cons_of_pos active, List.length_cons] at single
    have none : rest.filter Call.active = [] := List.eq_nil_of_length_eq_zero (by omega)
    simpa [List.filter_eq_nil_iff] using none
  cases call with
  | lookup caller k data replicas =>
      obtain ⟨quiet, room⟩ := alone rfl
      refine serial.lookup sound quiet own room (serial.quiet fun other member => ?_)
      rcases List.mem_cons.mp (order.mem_iff.mp member) with rfl | later
      · rfl
      · exact quiet other later
  | write caller k data version futures =>
      simp only [Traffic.stepCall]
      split
      · next finished =>
          obtain ⟨published, failed⟩ := serial.join sound (idle rfl) own finished
          split
          · next missed =>
              refine Serial.resume serial.up ?_ ?_ (idle rfl)
                (fun other member => (sound other member).idle (idle rfl other member) fun _ up => up)
                (by rintro _ ⟨⟩) fun _ => failed missed
              · rw [okVersions_refused]
                exact serial.below
              · rw [okVersions_refused]
                exact serial.distinct
          · next enough => exact published enough
      · split
        · next id found => exact serial.future sound (idle rfl) own found now
        · exact serial.perm order
  | publish k data version acked => exact serial.publish sound (idle rfl) own
  | remove caller k todo acks => exact own.elim
  | unpublish k => exact own.elim

theorem Serial.exec (serial : Serial key s) {act : TrafficAction} (puts : PutsOf key s act)
    (alone : OneAtATime key s act) : Serial key (s.exec act) := by
  cases act with
  | put caller k data =>
      obtain ⟨rfl, known⟩ := puts
      simp only [Traffic.exec, startPut]
      split
      · refine ⟨serial.up, ?_, ?_, serial.single,
          fun call member => (serial.sound call member).congr rfl rfl, serial.quiet⟩
        · rw [okVersions_refused]
          exact serial.below
        · rw [okVersions_refused]
          exact serial.distinct
      · next enough =>
          refine ⟨serial.up, serial.below, serial.distinct, ?_, fun call member => ?_, fun idle => ?_⟩
          · simpa [Call.active] using serial.single
          · rcases List.mem_append.mp member with old | new
            · exact (serial.sound call old).congr rfl rfl
            · obtain rfl := List.mem_singleton.mp new
              exact ⟨rfl, by omega, fun id placed => ⟨known id placed, serial.up _ id placed⟩⟩
          · exact serial.quiet fun call member => idle call (List.mem_append_left _ member)
  | step t i delivery now =>
      obtain rfl : delivery = .acknowledged := puts
      cases found : s.calls[t]? with
      | none => simpa only [Traffic.exec, found, Option.elim] using serial
      | some call =>
          obtain ⟨inside, rfl⟩ := List.getElem?_eq_some_iff.mp found
          have order := (List.getElem_cons_eraseIdx_perm inside).symm
          have stepped := serial.stepCall order (fun waits =>
            (alone (by rw [found]; exact waits)).imp_left fun quiet other later =>
              quiet other (List.mem_of_mem_eraseIdx later)) i now
          simpa only [Traffic.exec, found, Option.elim, advance] using stepped
  | delete caller k => exact puts.elim
  | repair repairer target => exact puts.elim
  | repairStep delivery now => exact puts.elim
  | setFault id fault => exact puts.elim

end Steps

/-- Puts of one key that look up their versions one at a time: their versions
differ, and when they have all returned the replicas agree. -/
theorem puts_agree (metadata : MetadataRepository) (nodes : OrderedMap Bytes StorageNode) (key : Bytes)
    (up : (start metadata nodes).AllUp key) (agree : (start metadata nodes).Agree key) {s : Traffic}
    (reachable : (system metadata nodes fun s act => PutsOf key s act ∧ OneAtATime key s act).Reachable s) :
    (s.okVersions key).Nodup ∧ (s.calls = [] → s.Agree key) := by
  have serial : Serial key s := by
    apply reachable.invariant
    · rintro _ rfl
      refine ⟨up, fun _ _ none => absurd none List.not_mem_nil, List.nodup_nil, Nat.zero_le 1,
        List.forall_mem_nil _, fun _ => agree⟩
    · rintro before _ _ serial ⟨act, ⟨puts, alone⟩, rfl⟩
      exact serial.exec puts alone
  refine ⟨serial.distinct, fun quiet => serial.quiet ?_⟩
  rw [quiet]
  exact List.forall_mem_nil _

instance (key : Bytes) (s : Traffic) : (act : TrafficAction) → Decidable (PutsOf key s act)
  | .put _ _ _ => inferInstanceAs (Decidable (_ ∧ ∀ id ∈ _, _))
  | .step _ _ _ _ => inferInstanceAs (Decidable (_ = _))
  | .delete _ _ | .repair _ _ | .repairStep _ _ | .setFault _ _ => inferInstanceAs (Decidable False)

instance (key : Bytes) (s : Traffic) : (act : TrafficAction) → Decidable (OneAtATime key s act)
  | .step _ _ _ _ => inferInstanceAs (Decidable (_ → (∀ other ∈ _, _) ∧ ∀ loc ∈ Except.toOption _, _))
  | .put _ _ _ | .delete _ _ | .repair _ _ | .repairStep _ _ | .setFault _ _ =>
      inferInstanceAs (Decidable True)

/-! Two coordinators put `k` on the nodes `a` and `b`. -/
section Sample
def toBoth : Caller := ⟨[text "a", text "b"], ⟨2, 2⟩⟩

/-- The first put returns before the second looks up its version. -/
def inTurn : List TrafficAction :=
  [.put toBoth objectKey [1], .put toBoth objectKey [2], next 0 0, next 0 0, next 0 1, next 0 0, next 0 0,
    next 0 0, next 0 0, next 0 1, next 0 0, next 0 0]

/-- Both look up their versions first, and reach the nodes in opposite orders. -/
def crossed : List TrafficAction :=
  [.put toBoth objectKey [1], .put toBoth objectKey [2], next 0 0, next 1 0, next 1 0, next 1 0, next 0 1,
    next 1 1, next 0 0, next 0 0, next 0 0, next 0 0]

theorem pair_up : (start pair.1 pair.2).AllUp objectKey := by
  have up : ∀ id ∈ pair.1.cluster.ring.owners, (pair.2[id]?.any fun n => n.fault = none) = true := by
    decide +kernel
  intro rf id placed
  have found := up id (pair.1.placementFor_subset objectKey rf id placed)
  obtain ⟨n, here, fine⟩ := (Option.any_eq_true ..).mp found
  exact ⟨n, here, by simpa using fine⟩

theorem pair_agree : (start pair.1 pair.2).Agree objectKey := by
  have missing : codeOf (pair.1.lookupObject objectKey) = .notFound := by decide +kernel
  intro loc found
  have found : pair.1.lookupObject objectKey = .ok loc := found
  rw [found] at missing
  cases missing

theorem puts_agree_inTurn :
    (after inTurn).okVersions objectKey = [1, 2] ∧ ((after inTurn).okVersions objectKey).Nodup ∧
      (after inTurn).Agree objectKey := by
  obtain ⟨along, quiet, versions⟩ :
      Along exec (fun s act => PutsOf objectKey s act ∧ OneAtATime objectKey s act) (start pair.1 pair.2) inTurn ∧
        (after inTurn).calls = [] ∧ (after inTurn).okVersions objectKey = [1, 2] := by decide +kernel
  have begun : (system pair.1 pair.2 fun s act => PutsOf objectKey s act ∧ OneAtATime objectKey s act).Reachable
      (start pair.1 pair.2) := .start rfl
  obtain ⟨distinct, agree⟩ := puts_agree pair.1 pair.2 objectKey pair_up pair_agree (begun.along along)
  exact ⟨versions, distinct, agree quiet⟩

/-- Two overlapping puts return one version, and the replicas hold different bytes. -/
theorem crossed_disagree :
    (start pair.1 pair.2).AllUp objectKey ∧ (start pair.1 pair.2).Agree objectKey ∧
      (system pair.1 pair.2 (PutsOf objectKey)).Reachable (after crossed) ∧ (after crossed).calls = [] ∧
      (after crossed).okVersions objectKey = [1, 1] ∧ ¬(after crossed).Agree objectKey := by
  obtain ⟨along, quiet, versions, location, bytes, differ⟩ :
      Along exec (PutsOf objectKey) (start pair.1 pair.2) crossed ∧ (after crossed).calls = [] ∧
        (after crossed).okVersions objectKey = [1, 1] ∧
        ((after crossed).metadata.lookupObject objectKey).toOption.any (fun loc =>
          loc.checksum = sha256Hex [2] ∧ text "b" ∈ loc.replicas) = true ∧
        ((after crossed).nodes[text "b"]?.any fun n => n.store.get objectKey = .ok [1]) = true ∧
        sha256Hex [1] ≠ sha256Hex [2] := by decide +kernel
  have begun : (system pair.1 pair.2 (PutsOf objectKey)).Reachable (start pair.1 pair.2) := .start rfl
  refine ⟨pair_up, pair_agree, begun.along along, quiet, versions, fun agree => ?_⟩
  obtain ⟨loc, found, facts⟩ := (Option.any_eq_true ..).mp location
  obtain ⟨sum, listed⟩ : loc.checksum = sha256Hex [2] ∧ text "b" ∈ loc.replicas := by simpa using facts
  obtain ⟨n, here, read⟩ := (Option.any_eq_true ..).mp bytes
  have read : n.store.get objectKey = .ok [1] := by simpa using read
  have lookup : (after crossed).metadata.lookupObject objectKey = .ok loc := by
    cases result : (after crossed).metadata.lookupObject objectKey with
    | error status =>
        rw [result] at found
        cases found
    | ok current =>
        rw [result] at found
        cases found
        rfl
  obtain ⟨data, digest, m, there, same, _⟩ := agree loc lookup _ listed
  obtain rfl : n = m := Option.some.inj (here.symm.trans there)
  obtain rfl : [1] = data := Except.ok.inj (read.symm.trans same)
  exact differ (digest.trans sum)

end Sample
end Traffic
end Dos.Network
