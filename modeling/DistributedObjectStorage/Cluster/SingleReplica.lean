import DistributedObjectStorage.Cluster.RaftMetadataSafety

/-!
# The replicated control plane on one node

A node without peers is a majority by itself: what it proposes is committed
and applied before `Propose` returns. So both control planes go through the
same states, and a call answers the same unless it asks the log for an answer
that only applying the command could give.
-/
namespace Dos.Consensus

/-- A leader without peers that has applied its whole log. -/
structure RaftNode.LeadsAlone (n : RaftNode) : Prop where
  peers : n.config.peers = []
  role : n.role = .leader
  indexed : Indexed n.log
  commitIndex : n.commitIndex = n.log.length
  lastApplied : n.lastApplied = n.log.length

namespace RaftNode
variable {n : RaftNode}

def nextEntry (n : RaftNode) (command : Bytes) : LogEntry :=
  ⟨n.currentTerm, n.log.length + 1, command⟩

/-- The node after it has appended, committed and applied one command. -/
def settle (n : RaftNode) (command : Bytes) : RaftNode :=
  { n with
    log := n.log ++ [n.nextEntry command]
    storage := n.storage.appendEntry (n.nextEntry command)
    commitIndex := n.log.length + 1
    lastApplied := n.log.length + 1
    applied := n.applied ++ [n.nextEntry command] }

theorem termAt_nextEntry (n : RaftNode) (command : Bytes) :
    termAt (n.log ++ [n.nextEntry command]) (n.log.length + 1) = n.currentTerm :=
  termAt_succ (List.getElem?_concat_length)

theorem LeadsAlone.settle (alone : n.LeadsAlone) (command : Bytes) :
    (n.settle command).LeadsAlone where
  peers := alone.peers
  role := alone.role
  indexed := alone.indexed.grow rfl
  commitIndex := by simp [RaftNode.settle]
  lastApplied := by simp [RaftNode.settle]

theorem LeadsAlone.propose_eq (alone : n.LeadsAlone) (command : Bytes) :
    n.propose command = (n.settle command, .ok (n.log.length + 1)) := by
  obtain ⟨peers, role, indexed, commit, last⟩ := alone
  have grown : Indexed (n.log ++ [n.nextEntry command]) := indexed.grow rfl
  have length : lastLogIndex (n.log ++ [n.nextEntry command]) = n.log.length + 1 := by
    rw [lastLogIndex_eq grown, List.length_append, List.length_singleton]
  have entry : (⟨n.currentTerm, n.lastLogIndexLocked + 1, command⟩ : LogEntry) = n.nextEntry command := by
    rw [lastLogIndexLocked, lastLogIndex_eq indexed]
    rfl
  let appended : RaftNode :=
    { n with
      log := n.log ++ [n.nextEntry command]
      storage := n.storage.appendEntry (n.nextEntry command) }
  have start : appended.lastLogIndexLocked = n.log.length + 1 := length
  have current : appended.termAtLocked (n.log.length + 1) = appended.currentTerm :=
    termAt_nextEntry n command
  -- the search commits at the first index it looks at
  have advanced : appended.advanceCommitLocked =
      applyCommittedLocked { appended with commitIndex := n.log.length + 1 } := by
    rw [advanceCommitLocked, start, advanceLoop, if_pos, if_neg (not_not.mpr current), if_pos]
    · simp [majorityLocked, replicaCount, appended, peers]
    · simp only [appended]
      omega
  unfold propose
  rw [if_neg (not_not.mpr role), entry]
  change (appended.advanceCommitLocked, _) = _
  rw [advanced, applyCommittedLocked_eq]
  · have whole : (n.log ++ [n.nextEntry command]).take (n.log.length + 1) = n.log ++ [n.nextEntry command] :=
      List.take_of_length_le (by simp)
    simp only [appended, last, whole, List.drop_left]
    rfl
  · simp only [appended, last]
    omega
  · simp [appended]

theorem settle_waitApplied (n : RaftNode) (command : Bytes) :
    (n.settle command).waitApplied (n.log.length + 1) n.currentTerm = some .success := by
  have current : (n.settle command).termAtLocked (n.log.length + 1) = n.currentTerm :=
    termAt_nextEntry n command
  have applied : ¬(n.settle command).lastApplied < n.log.length + 1 := Nat.lt_irrefl _
  rw [waitApplied, if_neg applied, if_neg (not_not.mpr current)]

end RaftNode
end Dos.Consensus

namespace Dos.ControlPlane
open Consensus Transition

/-- The sections of a call, and the deadline, with no other action in between. -/
theorem Service.run_uninterrupted (g : Group) (s : Service) (boot : MetadataRepository) {n : Bytes}
    (member : n ∈ g.members) (command : Bytes) :
    let k := s.calls.length
    let after := [.readTerm n command, .propose k, .wait k, .timeout k].foldl (exec g) s
    let whole := (⟨boot, some (s.cluster.nodes n).node⟩ : RaftMetadataRepository).proposeAndWait command
    whole.1.raft = some (after.cluster.nodes n).node ∧
      after.calls = s.calls ++ [⟨n, command, .returned whole.2⟩] := by
  intro k after whole
  cases proposed : ((s.cluster.nodes n).node.propose command).2 with
  | error status =>
      simp [after, whole, k, exec, readTerm, propose, wait, timeout, setPhase, member,
        RaftMetadataRepository.proposeAndWait, proposed, Cluster.exec, Cluster.propose,
        Cluster.setNode, Cluster.setProcess]
  | ok index =>
      cases waited : ((s.cluster.nodes n).node.propose command).1.waitApplied index
        (s.cluster.nodes n).node.currentTerm with
      | none =>
          simp [after, whole, k, exec, readTerm, propose, wait, timeout, setPhase, member,
            RaftMetadataRepository.proposeAndWait, proposed, waited, Cluster.exec, Cluster.propose,
            Cluster.setNode, Cluster.setProcess]
      | some status =>
          by_cases ok : status.isOk = true <;>
            simp [after, whole, k, exec, readTerm, propose, wait, timeout, setPhase, member,
              RaftMetadataRepository.proposeAndWait, proposed, waited, ok, Cluster.exec,
              Cluster.propose, Cluster.setNode, Cluster.setProcess]

/-- What the control planes answer from: the objects, the ring and the ids of
the nodes. The log does not carry the rest of a node's record. -/
structure MetadataRepository.Agree (r r' : MetadataRepository) : Prop where
  objects : r.objects = r'.objects
  ring : r.cluster.ring = r'.cluster.ring
  ids : r.cluster.nodes.map (·.id) = r'.cluster.nodes.map (·.id)

namespace MetadataRepository.Agree
variable {r r' : MetadataRepository}

theorem refl (r : MetadataRepository) : Agree r r := ⟨rfl, rfl, rfl⟩

theorem addNode (agree : Agree r r') (node node' : NodeInfo) (same : node.id = node'.id) :
    Agree (r.addNode node) (r'.addNode node') := by
  have known : (r.cluster.nodes.any (·.id = node.id) = true) ↔
      (r'.cluster.nodes.any (·.id = node'.id) = true) := by
    rw [ClusterMap.any_id, ClusterMap.any_id, agree.ids, same]
  unfold MetadataRepository.addNode ClusterMap.addOrUpdateNode
  by_cases old : r.cluster.nodes.any (·.id = node.id) = true
  · rw [if_pos old, if_pos (known.mp old)]
    refine ⟨agree.objects, agree.ring, ?_⟩
    rw [ClusterMap.map_replaceNode, ClusterMap.map_replaceNode, agree.ids]
  · rw [if_neg old, if_neg (fun new => old (known.mpr new))]
    refine ⟨agree.objects, ?_, ?_⟩
    · rw [agree.ring, same]
    · rw [List.map_append, List.map_append, agree.ids, List.map_singleton, List.map_singleton, same]

theorem registerObject (agree : Agree r r') (loc : ObjectLocation) :
    Agree (r.registerObject loc).1 (r'.registerObject loc).1 :=
  ⟨congrArg (·.insert loc.key loc) agree.objects, agree.ring, agree.ids⟩

theorem removeObject (agree : Agree r r') (key : Bytes) :
    Agree (r.removeObject key).1 (r'.removeObject key).1 := by
  unfold MetadataRepository.removeObject
  rw [agree.objects]
  split
  · exact agree
  · split
    · exact agree
    · exact ⟨rfl, agree.ring, agree.ids⟩

theorem lookupObject (agree : Agree r r') (key : Bytes) : r.lookupObject key = r'.lookupObject key := by
  unfold MetadataRepository.lookupObject
  rw [agree.objects]

theorem listObjects (agree : Agree r r') (pre : Bytes) : r.listObjects pre = r'.listObjects pre := by
  unfold MetadataRepository.listObjects
  rw [agree.objects]

theorem placementFor (agree : Agree r r') (key : Bytes) (rf : ℕ) :
    r.placementFor key rf = r'.placementFor key rf := by
  unfold MetadataRepository.placementFor ClusterMap.placementFor
  rw [agree.ring]

end MetadataRepository.Agree

/-- The command that a call puts into the log. -/
def ControlRequest.command : ControlRequest → Option MetadataCommand
  | .addNode node => some (.addNode node.id node.address)
  | .registerObject loc => some (.registerObject loc)
  | .removeObject key => some (.removeObject key)
  | .lookupObject _ | .listObjects _ | .placementFor _ _ => none

/-- A removal finds an object to remove. -/
def MetadataRepository.Hits (r : MetadataRepository) : ControlRequest → Prop
  | .removeObject key => (r.lookupObject key).isOk = true
  | _ => True

instance (r : MetadataRepository) (req : ControlRequest) : Decidable (r.Hits req) :=
  match req with
  | .removeObject key => inferInstanceAs (Decidable ((r.lookupObject key).isOk = true))
  | .addNode _ | .registerObject _ | .lookupObject _ | .listObjects _ | .placementFor _ _ =>
      isTrue trivial

theorem MetadataRepository.removeObject_status (r : MetadataRepository) (key : Bytes) :
    Status.success = (r.removeObject key).2 ↔ r.Hits (.removeObject key) := by
  unfold Hits removeObject lookupObject
  cases found : r.objects[key]? with
  | none => simp [found, Except.isOk, Except.toBool, noMetadata, Status.notFound, Status.success]
  | some loc =>
      cases dead : loc.deleted <;>
        simp [found, dead, Except.isOk, Except.toBool, noMetadata, Status.notFound, Status.success]

namespace RaftMetadataRepository
variable {codec : CommandCodec} {s : RaftMetadataRepository} {r : MetadataRepository}

/-- The replicated control plane with its log applied, beside the plain one. -/
structure InStep (codec : CommandCodec) (s : RaftMetadataRepository) (r : MetadataRepository) : Prop where
  node : ∃ node, s.raft = some node ∧ node.LeadsAlone
  agree : (s.inner codec).Agree r

/-- A command that parses back is performed before the call returns Ok. -/
theorem InStep.proposeAndWait (inStep : InStep codec s r) {cmd : MetadataCommand}
    (parses : codec.parse (codec.serialize cmd) = some cmd) {r' : MetadataRepository}
    (agree : (cmd.perform (s.inner codec)).Agree r') :
    InStep codec (s.proposeAndWait (codec.serialize cmd)).1 r' ∧
      (s.proposeAndWait (codec.serialize cmd)).2 = .success := by
  obtain ⟨node, attached, alone⟩ := inStep.node
  have whole : s.proposeAndWait (codec.serialize cmd) =
      ({ s with raft := some (node.settle (codec.serialize cmd)) }, .success) := by
    simp only [RaftMetadataRepository.proposeAndWait, attached, alone.propose_eq,
      RaftNode.settle_waitApplied, Option.getD_some]
  rw [whole]
  refine ⟨⟨⟨_, rfl, alone.settle _⟩, ?_⟩, rfl⟩
  have applied : (⟨s.boot, some (node.settle (codec.serialize cmd))⟩ : RaftMetadataRepository).inner codec =
      cmd.perform (s.inner codec) := by
    simp [inner, attached, repository, RaftNode.settle, RaftNode.nextEntry, apply, parses]
  rw [applied]
  exact agree

theorem InStep.serve (inStep : InStep codec s r) {req : ControlRequest}
    (parses : ∀ cmd ∈ req.command, codec.parse (codec.serialize cmd) = some cmd) :
    InStep codec (s.serve codec req).1 (r.serve req).1 := by
  cases req with
  | addNode node => exact (inStep.proposeAndWait (parses _ rfl) (inStep.agree.addNode _ node rfl)).1
  | registerObject loc => exact (inStep.proposeAndWait (parses _ rfl) (inStep.agree.registerObject loc)).1
  | removeObject key => exact (inStep.proposeAndWait (parses _ rfl) (inStep.agree.removeObject key)).1
  | lookupObject key => exact inStep
  | listObjects pre => exact inStep
  | placementFor key rf => exact inStep

/-- The answer to a removal is Ok whatever applying it found. -/
theorem InStep.answer_iff (inStep : InStep codec s r) {req : ControlRequest}
    (parses : ∀ cmd ∈ req.command, codec.parse (codec.serialize cmd) = some cmd) :
    (s.serve codec req).2 = (r.serve req).2 ↔ r.Hits req := by
  cases req with
  | addNode node => exact iff_of_true rfl trivial
  | registerObject loc =>
      apply iff_of_true _ trivial
      exact congrArg _ (inStep.proposeAndWait (parses _ rfl) (inStep.agree.registerObject loc)).2
  | removeObject key =>
      have ok := (inStep.proposeAndWait (parses _ rfl) (inStep.agree.removeObject key)).2
      rw [← MetadataRepository.removeObject_status, ← ok]
      exact ControlAnswer.status.injEq _ _ ▸ Iff.rfl
  | lookupObject key => exact iff_of_true (congrArg _ (inStep.agree.lookupObject key)) trivial
  | listObjects pre => exact iff_of_true (congrArg _ (inStep.agree.listObjects pre)) trivial
  | placementFor key rf => exact iff_of_true (congrArg _ (inStep.agree.placementFor key rf)) trivial

/-- On a new node that leads alone the replicated control plane answers as the
plain one exactly if every removal finds an object to remove. -/
theorem answers_eq_iff_removals_hit (codec : CommandCodec) (virtualNodesPerNode : ℕ) {node : RaftNode}
    (alone : node.LeadsAlone) (new : node.applied = []) (reqs : List ControlRequest)
    (parses : ∀ req ∈ reqs, ∀ cmd ∈ req.command, codec.parse (codec.serialize cmd) = some cmd) :
    outputs (serve codec) ⟨.create virtualNodesPerNode, some node⟩ reqs =
        outputs MetadataRepository.serve (.create virtualNodesPerNode) reqs ↔
      Along (fun r req => (r.serve req).1) MetadataRepository.Hits (.create virtualNodesPerNode) reqs := by
  have begins : InStep codec ⟨.create virtualNodesPerNode, some node⟩ (.create virtualNodesPerNode) := by
    refine ⟨⟨node, rfl, alone⟩, ?_⟩
    simpa [inner, repository, new] using MetadataRepository.Agree.refl (.create virtualNodesPerNode)
  apply outputs_eq_iff (InStep codec) MetadataRepository.Hits _ _ begins
  · intro req member s r inStep
    exact inStep.serve (parses req member)
  · intro req member s r inStep
    exact inStep.answer_iff (parses req member)

/-- A new node that has elected itself. -/
def soleLeader : RaftNode := (RaftNode.create ⟨text "m", []⟩ .empty).becomeCandidate.becomeLeaderLocked

theorem soleLeader_leadsAlone : soleLeader.LeadsAlone := ⟨rfl, rfl, Indexed.nil, rfl, rfl⟩

/-- The proto3 encoding of the command that removes the sample key. -/
def removalBytes : Bytes := [0x12, 0x01, 0x6b]

/-- Protobuf on the commands that register and remove the sample key. -/
def removalCodec : CommandCodec where
  serialize := fun cmd =>
    if cmd = .registerObject sampleLocation then sampleBytes
    else if cmd = .removeObject (text "k") then removalBytes
    else []
  parse := fun bytes =>
    if bytes = sampleBytes then some (.registerObject sampleLocation)
    else if bytes = removalBytes then some (.removeObject (text "k"))
    else if bytes = [] then some .notSet
    else none

def registerThenRemove : List ControlRequest :=
  [.registerObject sampleLocation, .removeObject (text "k"), .lookupObject (text "k"), .listObjects []]

theorem answers_eq_iff_removals_hit_registered :
    outputs (serve removalCodec) ⟨.create 1, some soleLeader⟩ registerThenRemove =
      outputs MetadataRepository.serve (.create 1) registerThenRemove := by
  obtain ⟨parses, hits⟩ :
      (∀ req ∈ registerThenRemove, ∀ cmd ∈ req.command,
        removalCodec.parse (removalCodec.serialize cmd) = some cmd) ∧
      Along (fun r req => (r.serve req).1) MetadataRepository.Hits (.create 1) registerThenRemove := by
    decide +kernel
  exact (answers_eq_iff_removals_hit removalCodec 1 soleLeader_leadsAlone rfl registerThenRemove
    parses).mpr hits

/-- A removal of a key that was never registered: Ok from the log, NotFound from
the repository. -/
theorem removal_of_nothing_answered_ok :
    (soleLeader.LeadsAlone ∧ soleLeader.applied = []) ∧
      removalCodec.parse (removalCodec.serialize (.removeObject (text "k"))) =
        some (.removeObject (text "k")) ∧
      outputs (serve removalCodec) ⟨.create 1, some soleLeader⟩ [.removeObject (text "k")] =
        [.status .success] ∧
      outputs MetadataRepository.serve (.create 1) [.removeObject (text "k")] =
        [.status (MetadataRepository.noMetadata (text "k"))] :=
  ⟨⟨soleLeader_leadsAlone, rfl⟩, by decide +kernel⟩

end RaftMetadataRepository
end Dos.ControlPlane
