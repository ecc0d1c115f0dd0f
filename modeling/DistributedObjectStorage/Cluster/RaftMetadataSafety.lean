import DistributedObjectStorage.Cluster.RaftMetadataRepository
import DistributedObjectStorage.Consensus.RaftHistory

/-!
# What an acknowledged metadata mutation is worth

The calls are followed through the simulation of the group: a proposal stays
where its leader put it in that leader's log, whatever the node does next.
-/
namespace Dos.ControlPlane
open Consensus Transition
open ReplicatedLog (Extends take_le)

variable {g : Group} {s : Service} {a : Spec} {n : Bytes}

/-- The entry that a `Propose` appended. -/
abbrev entryOf (ranIn index : ℕ) (command : Bytes) : LogEntry := ⟨ranIn, index, command⟩

/-- The proposal stands in the log of the leader that made it. -/
structure Placed (a : Spec) (history : List Event) (n command : Bytes) (ranIn index : ℕ) : Prop where
  first : 1 ≤ index
  held : (a.leaderLog ranIn)[index - 1]? = some (entryOf ranIn index command)
  led : ∃ log, Event.becameLeader n ranIn log ∈ history

/-- The acknowledged entry is committed, provided the call read the term in
which it proposed. -/
structure AckOk (g : Group) (a : Spec) (ack : Ack) : Prop where
  first : 1 ≤ ack.index
  led : ∃ log, Event.becameLeader ack.node ack.ranIn log ∈ ack.history
  committed : ack.ranIn = ack.term → ∃ t P, SpecCommitted g a t P ∧
    P[ack.index - 1]? = some (entryOf ack.ranIn ack.index ack.command)

structure ServiceOk (g : Group) (s : Service) (a : Spec) : Prop where
  reachable : Cluster.Reachable g s.cluster
  related : Refines g s.cluster a
  member : ∀ call ∈ s.calls, call.node ∈ g.members
  placed : ∀ call ∈ s.calls, ∀ term ranIn index, call.phase = .proposed term ranIn index →
    Placed a s.cluster.history call.node call.command ranIn index
  acks : ∀ ack ∈ s.acks, AckOk g a ack
  seen : ∀ ack ∈ s.acks, ∀ e ∈ ack.history, e ∈ s.cluster.history

theorem Placed.extends {a' : Spec} {history history' : List Event} {command : Bytes}
    {ranIn index : ℕ} (h : Placed a history n command ranIn index) (ext : Extends a a')
    (grows : ∀ e ∈ history, e ∈ history') : Placed a' history' n command ranIn index := by
  obtain ⟨log, event⟩ := h.led
  obtain ⟨inside, here⟩ := List.getElem?_eq_some_iff.mp h.held
  refine ⟨h.first, ?_, log, grows _ event⟩
  rw [← here]
  exact List.prefix_iff_getElem?.mp (ext.leaderLog ranIn) _ inside

theorem AckOk.extends {a' : Spec} {ack : Ack} (h : AckOk g a ack) (ext : Extends a a') :
    AckOk g a' ack := by
  refine ⟨h.first, h.led, fun same => ?_⟩
  obtain ⟨t, P, committed, held⟩ := h.committed same
  exact ⟨t, P, committed.extends ext (Nat.le_refl _), held⟩

theorem exec_grows (c : Cluster) (act : Action) : ∀ e ∈ c.history, e ∈ (c.exec g act).history := by
  rcases Cluster.exec_allowed g c act with same | step
  · rw [same]
    exact fun e he => he
  · exact history_grows step

/-- Whatever the group does, running calls and earlier answers keep their facts. -/
theorem ServiceOk.raft (h : ServiceOk g s a) (reach : g.spec.Reachable a) (act : Action) :
    ∃ a', Relation.ReflTransGen g.spec.step a a' ∧
      ServiceOk g { s with cluster := s.cluster.exec g act } a' := by
  have reachable := h.reachable.exec act
  have grows := exec_grows (g := g) s.cluster act
  have moved : ∃ a', Relation.ReflTransGen g.spec.step a a' ∧ Refines g (s.cluster.exec g act) a' := by
    rcases Cluster.exec_allowed g s.cluster act with same | step
    · rw [same]
      exact ⟨a, .refl, h.related⟩
    · exact h.related.next reach step
  obtain ⟨a', steps, related⟩ := moved
  have ext := ReplicatedLog.reachable_extends reach steps
  exact ⟨a', steps, reachable, related, h.member,
    fun call hc term ranIn index phase => (h.placed call hc term ranIn index phase).extends ext grows,
    fun ack ha => (h.acks ack ha).extends ext, fun ack ha e he => grows e (h.seen ack ha e he)⟩

/-- Replacing one call by one that is not waiting for its entry. -/
theorem ServiceOk.setPhase {k : ℕ} {call : Call} {phase : CallPhase} (h : ServiceOk g s a)
    (member : call.node ∈ g.members)
    (placed : ∀ term ranIn index, phase = .proposed term ranIn index →
      Placed a s.cluster.history call.node call.command ranIn index) :
    ServiceOk g (s.setPhase k call phase) a := by
  refine ⟨h.reachable, h.related, fun other ho => ?_, fun other ho => ?_, h.acks,
    h.seen⟩
  · rcases List.mem_or_eq_of_mem_set ho with old | rfl
    · exact h.member other old
    · exact member
  · rcases List.mem_or_eq_of_mem_set ho with old | rfl
    · exact h.placed other old
    · exact placed

theorem ServiceOk.crash (h : ServiceOk g s a) (n : Bytes) :
    ServiceOk g { s with calls := s.calls.map (Call.crash n) } a := by
  have kept : ∀ call : Call, (call.crash n).node = call.node ∧
      (call.crash n).command = call.command ∧
      ((call.crash n).phase = call.phase ∨ (call.crash n).phase = .lost) := by
    intro call
    unfold Call.crash
    split
    · exact ⟨rfl, rfl, .inl rfl⟩
    · split
      · exact ⟨rfl, rfl, .inr rfl⟩
      · exact ⟨rfl, rfl, .inl rfl⟩
  refine ⟨h.reachable, h.related, fun other ho => ?_,
    fun other ho term ranIn index phase => ?_, h.acks, h.seen⟩
  · obtain ⟨call, hc, rfl⟩ := List.mem_map.mp ho
    rw [(kept call).1]
    exact h.member call hc
  · obtain ⟨call, hc, rfl⟩ := List.mem_map.mp ho
    obtain ⟨node, command, same | lost⟩ := kept call
    · rw [node, command]
      exact h.placed call hc term ranIn index (same ▸ phase)
    · rw [lost] at phase
      cases phase

/-! ## Propose -/

/-- A successful `Propose` appends exactly one entry, in the current term. -/
theorem propose_appends {r : RaftNode} {command : Bytes} {index : ℕ}
    (ok : (r.propose command).2 = .ok index) :
    r.role = .leader ∧ index = r.lastLogIndexLocked + 1 ∧
      (r.propose command).1.log = r.log ++ [entryOf r.currentTerm index command] := by
  unfold RaftNode.propose at ok ⊢
  by_cases other : r.role ≠ .leader
  · rw [if_pos other] at ok
    cases ok
  rw [if_neg other] at ok ⊢
  cases ok
  refine ⟨not_not.mp other, rfl, ?_⟩
  exact (advance_frame _).2.2

theorem ServiceOk.propose {k : ℕ} {call : Call} (h : ServiceOk g s a) (reach : g.spec.Reachable a)
    (running : call ∈ s.calls) :
    ∃ a', Relation.ReflTransGen g.spec.step a a' ∧ ServiceOk g (s.propose g k call) a' := by
  unfold Service.propose
  split
  case h_2 => exact ⟨a, .refl, h⟩
  rename_i term phase
  have member := h.member call running
  obtain ⟨a', steps, next⟩ := h.raft reach (.propose call.node call.command)
  dsimp only
  split
  · exact ⟨a', steps, next.setPhase member nofun⟩
  · rename_i index ok
    refine ⟨a', steps, next.setPhase member ?_⟩
    rintro _ _ _ ⟨⟩
    obtain ⟨lead, number, appended⟩ := propose_appends ok
    have before := (h.related.nodes call.node member).node
    have sound : Sound g a' := ⟨reach.many steps, next.related.indexed⟩
    have after := (next.related.nodes call.node member).node
    have frame := propose_frame (s.cluster.nodes call.node).node call.command
    have ran : ((s.cluster.exec g (.propose call.node call.command)).nodes call.node).node =
        ((s.cluster.nodes call.node).node.propose call.command).1 := by
      simp [Cluster.exec, member, Cluster.propose, Cluster.setNode, Cluster.setProcess]
    dsimp only at after
    rw [ran] at after
    have holds := leader_holds sound after (frame.1.trans lead)
    rw [frame.2, appended] at holds
    obtain ⟨log, event⟩ := (reachable_accounted h.reachable).leader call.node member lead
    refine ⟨by omega, ?_, log, exec_grows _ _ _ event⟩
    rw [RaftNode.lastLogIndexLocked, lastLogIndex_eq before.indexed] at number
    have place : index - 1 = (s.cluster.nodes call.node).node.log.length := by omega
    rw [← holds, place]
    exact List.getElem?_concat_length

/-! ## WaitApplied -/

theorem waitApplied_ok {r : RaftNode} {index term : ℕ} {status : Status}
    (done : r.waitApplied index term = some status) (ok : status.isOk = true) :
    index ≤ r.lastApplied ∧ termAt r.log index = term := by
  unfold RaftNode.waitApplied at done
  split at done
  · split at done
    · cases done
      cases ok
    · split at done
      · cases done
        cases ok
      · cases done
  · split at done
    · cases done
      cases ok
    · rename_i applied same
      exact ⟨Nat.le_of_not_lt applied, not_not.mp same⟩

/-- Whatever entry of the proposal's term stands at its index is the proposal. -/
theorem Placed.applied {history : List Event} {m command : Bytes} {ranIn index : ℕ} {r : RaftNode}
    (h : Placed a history m command ranIn index) (sound : Sound g a) (node : NodeOk g a n r)
    (done : index ≤ r.lastApplied) (same : termAt r.log index = ranIn) :
    r.applied[index - 1]? = some (entryOf ranIn index command) := by
  obtain ⟨k, rfl⟩ : ∃ k, index = k + 1 := ⟨index - 1, by have := h.first; omega⟩
  rw [node.lastApplied] at done
  have inside : k < r.log.length := by
    have := node.commit
    omega
  have here : r.log[k]? = some r.log[k] := List.getElem?_eq_getElem inside
  rw [termAt_succ here] at same
  have coherent := sound.invariant.logs.log n
  rw [node.log] at coherent
  have upTo : r.log.take k ++ [r.log[k]] <+: r.log := by
    have whole : r.log.take (k + 1) = r.log.take k ++ [r.log[k]] := by simp
    exact whole ▸ take_le _ _
  have led := coherent _ _ upTo
  have copied : (a.leaderLog r.log[k].term)[k]? = some r.log[k] := by
    have found := List.prefix_iff_getElem?.mp led k (by simp; omega)
    simpa [Nat.min_eq_left inside.le] using found
  have held := h.held
  rw [Nat.add_sub_cancel] at held ⊢
  rw [same, held] at copied
  rw [node.applied, List.getElem?_take_of_lt (by omega), here]
  exact copied.symm

theorem ServiceOk.wait {k : ℕ} {call : Call} (h : ServiceOk g s a) (reach : g.spec.Reachable a)
    (running : call ∈ s.calls) : ServiceOk g (s.wait k call) a := by
  unfold Service.wait
  split
  case h_2 => exact h
  rename_i term ranIn index phase
  have member := h.member call running
  split
  · exact h
  · rename_i status done
    have next : ServiceOk g (s.setPhase k call (.returned status)) a := h.setPhase member nofun
    split
    · rename_i ok
      refine { next with acks := fun ack ha => ?_, seen := fun ack ha => ?_ }
      case refine_2 =>
        rcases List.mem_cons.mp ha with rfl | old
        · exact fun e he => he
        · exact next.seen ack old
      rcases List.mem_cons.mp ha with rfl | old
      · have placed := h.placed call running term ranIn index phase
        have node := (h.related.nodes call.node member).node
        refine ⟨placed.first, placed.led, fun same => ?_⟩
        obtain ⟨applied, here⟩ := waitApplied_ok done ok
        refine ⟨_, _, node.committed, ?_⟩
        rw [← node.applied]
        exact placed.applied ⟨reach, h.related.indexed⟩ node applied (here.trans same.symm)
      · exact next.acks ack old
    · exact next

theorem ServiceOk.timeout {k : ℕ} {call : Call} (h : ServiceOk g s a) (running : call ∈ s.calls) :
    ServiceOk g (s.timeout k call) a := by
  unfold Service.timeout
  split
  · exact h.setPhase (h.member call running) nofun
  · exact h

/-! ## Every run -/

theorem ServiceOk.next (h : ServiceOk g s a) (reach : g.spec.Reachable a) (act : ServiceAction) :
    ∃ a', Relation.ReflTransGen g.spec.step a a' ∧ ServiceOk g (s.exec g act) a' := by
  have pick : ∀ (k : ℕ) (f : Call → Service),
      (∀ call ∈ s.calls, ∃ a', Relation.ReflTransGen g.spec.step a a' ∧ ServiceOk g (f call) a') →
      ∃ a', Relation.ReflTransGen g.spec.step a a' ∧ ServiceOk g ((s.calls[k]?).elim s f) a' := by
    intro k f each
    cases found : s.calls[k]? with
    | none => exact ⟨a, .refl, h⟩
    | some call => exact each call (List.mem_of_getElem? found)
  cases act with
  | raft act =>
      obtain ⟨a', steps, next⟩ := h.raft reach act
      refine ⟨a', steps, ?_⟩
      cases act with
      | restart n => exact next.crash n
      | _ => exact next
  | readTerm n command =>
      refine ⟨a, .refl, ?_⟩
      change ServiceOk g (s.readTerm g n command) a
      unfold Service.readTerm
      split
      · rename_i member
        refine { h with member := fun call hc => ?_, placed := fun call hc => ?_ }
        · rcases List.mem_append.mp hc with old | new
          · exact h.member call old
          · exact List.mem_singleton.mp new ▸ member
        · rcases List.mem_append.mp hc with old | new
          · exact h.placed call old
          · rw [List.mem_singleton.mp new]
            exact nofun
      · exact h
  | propose k => exact pick k _ (fun call running => h.propose reach running)
  | wait k => exact pick k _ (fun call running => ⟨a, .refl, h.wait reach running⟩)
  | timeout k => exact pick k _ (fun call running => ⟨a, .refl, h.timeout running⟩)

theorem service_simulates (g : Group) : (Service.system g).Simulates g.spec (ServiceOk g) where
  start := by
    rintro _ rfl
    exact ⟨_, rfl, .start rfl, Refines.initial g, nofun, nofun, nofun, nofun⟩
  next := by
    rintro s _ a reach related ⟨act, rfl⟩
    exact related.next reach act

theorem reachable_service (reachable : Service.Reachable g s) :
    ∃ a, Sound g a ∧ ServiceOk g s a := by
  obtain ⟨a, reached, ok⟩ := (service_simulates g).reachable reachable
  exact ⟨a, ⟨reached, ok.related.indexed⟩, ok⟩

/-! ## An answered call -/

def raftRun (acts : List Action) : List ServiceAction := acts.map .raft

/-- `alpha` leads, a call proposes, `beta` stores the entry and `alpha` commits. -/
def plainCall (command : Bytes) : List ServiceAction :=
  raftRun (campaign alpha 0 gamma) ++ .readTerm alpha command :: .propose 0 ::
    raftRun (ship alpha beta 1)

/-- Once the node has applied an entry of the term read at the call's index, it is
the entry that this call appended exactly if the call proposed in that term. -/
theorem proposal_applied_iff (reachable : Service.Reachable g s) {call : Call} {term ranIn index : ℕ}
    (running : call ∈ s.calls) (phase : call.phase = .proposed term ranIn index)
    (done : index ≤ (s.cluster.nodes call.node).node.lastApplied)
    (here : termAt (s.cluster.nodes call.node).node.log index = term) :
    (Committed s.cluster index (entryOf ranIn index call.command) ∧
      (s.cluster.nodes call.node).node.applied[index - 1]? =
        some (entryOf ranIn index call.command)) ↔ ranIn = term := by
  obtain ⟨a, sound, related⟩ := reachable_service reachable
  have member := related.member call running
  have node := (related.related.nodes call.node member).node
  have placed := related.placed call running term ranIn index phase
  constructor
  · rintro ⟨-, applied⟩
    obtain ⟨k, rfl⟩ : ∃ k, index = k + 1 := ⟨index - 1, by have := placed.first; omega⟩
    rw [Nat.add_sub_cancel, node.applied] at applied
    have held : (s.cluster.nodes call.node).node.log[k]? =
        some (entryOf ranIn (k + 1) call.command) := by
      rw [List.getElem?_take_of_lt (by rw [node.lastApplied] at done; omega)] at applied
      exact applied
    rw [termAt_succ held] at here
    exact here
  · intro same
    have applied := placed.applied sound node done (here.trans same.symm)
    exact ⟨applied_committed related.reachable member placed.first applied, applied⟩

/-- When a pass of `WaitApplied` answers Ok, the entry that this call appended
is committed and applied here exactly if the term read is the term proposed in. -/
theorem proposeAndWait_ok_iff (reachable : Service.Reachable g s) {call : Call}
    {term ranIn index : ℕ} (running : call ∈ s.calls)
    (phase : call.phase = .proposed term ranIn index)
    (ok : (s.cluster.nodes call.node).node.waitApplied index term = some .success) :
    (Committed s.cluster index (entryOf ranIn index call.command) ∧
      (s.cluster.nodes call.node).node.applied[index - 1]? =
        some (entryOf ranIn index call.command)) ↔ ranIn = term := by
  obtain ⟨done, here⟩ := waitApplied_ok ok rfl
  exact proposal_applied_iff reachable running phase done here

theorem proposeAndWait_ok_iff_plainCall :
    Committed (Service.run trio (plainCall [120])).cluster 1 ⟨1, 1, [120]⟩ ∧
      ((Service.run trio (plainCall [120])).cluster.nodes alpha).node.applied[0]? =
        some ⟨1, 1, [120]⟩ := by
  have running : (⟨alpha, [120], .proposed 1 1 1⟩ : Call) ∈
      (Service.run trio (plainCall [120])).calls := by decide +kernel
  exact (proposeAndWait_ok_iff (Service.run_reachable trio (plainCall [120])) running rfl
    (by decide +kernel)).mpr rfl

/-- The term is read before an election and a re-election. `beta` has an entry
of term 1 that nobody else holds; `alpha` reads term 1, is elected in term 2 and
proposes; `beta` is elected in term 3 and its entries replace the proposal. -/
def lostProposal : List ServiceAction :=
  raftRun (campaign beta 1 alpha ++ ship beta alpha 1 ++ [.propose beta [121]]) ++
    .readTerm alpha [120] :: raftRun (campaign alpha 1 beta) ++
    .propose 0 :: raftRun (.deliverVote 0 true :: campaign beta 1 alpha ++
      .propose beta [122] :: ship beta gamma 3 ++ ship beta gamma 3 ++ ship beta alpha 3 ++
      ship beta alpha 3)

/-- The call answers Ok, and the command it proposed is in nobody's log. -/
theorem lostProposal_answers_ok :
    (⟨alpha, [120], .proposed 1 2 1⟩ : Call) ∈ (Service.run trio lostProposal).calls ∧
    ((Service.run trio lostProposal).exec trio (.wait 0)).calls =
      [⟨alpha, [120], .returned .success⟩] ∧
    ((Service.run trio lostProposal).cluster.nodes alpha).node.applied =
      [⟨1, 1, [121]⟩, ⟨3, 2, [122]⟩] ∧
    ∀ n ∈ trio.members, ∀ e ∈ ((Service.run trio lostProposal).cluster.nodes n).node.log,
      e.command ≠ [120] := by
  decide +kernel

/-! ## Reads at a leader -/

/-- The entry was applied, and applying it performed the command. -/
def Reflects (codec : CommandCodec) (boot : MetadataRepository) (applied : List LogEntry)
    (entry : LogEntry) (cmd : MetadataCommand) : Prop :=
  ∃ before after, applied = before ++ entry :: after ∧
    repository codec boot applied =
      after.foldl (apply codec) (cmd.perform (repository codec boot before))

theorem reflects_of_mem {codec : CommandCodec} {applied : List LogEntry} {entry : LogEntry}
    {cmd : MetadataCommand} (boot : MetadataRepository) (applies : entry ∈ applied)
    (parses : codec.parse entry.command = some cmd) : Reflects codec boot applied entry cmd := by
  obtain ⟨before, after, rfl⟩ := List.append_of_mem applies
  refine ⟨before, after, rfl, ?_⟩
  have performs : apply codec (repository codec boot before) entry =
      cmd.perform (repository codec boot before) := by
    rw [apply, parses]
  rw [← performs]
  simp only [repository, List.foldl_append, List.foldl_cons]

/-- An acknowledged entry is in the log of every leader of the highest term. -/
theorem ServiceOk.leader_has (h : ServiceOk g s a) (sound : Sound g a) (hn : n ∈ g.members)
    (lead : (s.cluster.nodes n).node.role = .leader)
    (highest : ∀ m ∈ g.members, (s.cluster.nodes m).node.currentTerm ≤
      (s.cluster.nodes n).node.currentTerm) {ack : Ack} (acked : ack ∈ s.acks)
    (same : ack.ranIn = ack.term) :
    (s.cluster.nodes n).node.log[ack.index - 1]? =
      some (entryOf ack.ranIn ack.index ack.command) := by
  have node := (h.related.nodes n hn).node
  obtain ⟨t, P, committed, held⟩ := (h.acks ack acked).committed same
  rcases committed with rfl | ⟨u, C, -, chosen, short⟩
  · simp at held
  -- a node that acknowledged the entry is in the term that chose it, or later
  obtain ⟨Q, majority, acks⟩ := chosen.quorum
  obtain ⟨v, hv⟩ : Q.Nonempty := Finset.card_pos.mp (by have := majority.card; omega)
  obtain ⟨m, -, ack⟩ := acks v hv
  have voter : v ∈ g.members := List.mem_toFinset.mp (majority.subset hv)
  have reached : u ≤ (s.cluster.nodes n).node.currentTerm := by
    have term := sound.invariant.acks.term v u m ack
    rw [(h.related.nodes v voter).node.term] at term
    exact term.trans (highest v voter)
  have whole : P <+: (s.cluster.nodes n).node.log := by
    rw [leader_holds sound node lead]
    have covered : SpecCommitted g a u P := .inr ⟨u, C, Nat.le_refl u, chosen, short⟩
    exact covered.leaderLog sound.invariant reached (by rw [node.leader lead]; rfl)
  obtain ⟨inside, here⟩ := List.getElem?_eq_some_iff.mp held
  rw [← here]
  exact List.prefix_iff_getElem?.mp whole _ inside

/-- A leader of the highest term that has applied what it inherited reflects
every command acknowledged before it was elected. -/
theorem leader_reflects_acknowledged (codec : CommandCodec) (boot : MetadataRepository)
    (reachable : Service.Reachable g s) (hn : n ∈ g.members)
    (lead : (s.cluster.nodes n).node.role = .leader)
    (highest : ∀ m ∈ g.members, (s.cluster.nodes m).node.currentTerm ≤
      (s.cluster.nodes n).node.currentTerm)
    (inherited : ∀ e ∈ (s.cluster.nodes n).node.log,
      e.term < (s.cluster.nodes n).node.currentTerm → e.index ≤ (s.cluster.nodes n).node.lastApplied)
    {ack : Ack} {cmd : MetadataCommand} (acked : ack ∈ s.acks) (same : ack.ranIn = ack.term)
    (earlier : ∀ log, Event.becameLeader n (s.cluster.nodes n).node.currentTerm log ∉ ack.history)
    (encoded : ack.command = codec.serialize cmd)
    (parses : codec.parse (codec.serialize cmd) = some cmd) :
    Reflects codec boot (s.cluster.nodes n).node.applied
      (entryOf ack.ranIn ack.index ack.command) cmd := by
  obtain ⟨a, sound, related⟩ := reachable_service reachable
  have node := (related.related.nodes n hn).node
  have ok := related.acks ack acked
  have held := related.leader_has sound hn lead highest acked same
  refine reflects_of_mem boot ?_ (by rw [encoded]; exact parses)
  have inLog := List.mem_of_getElem? held
  have bound : ack.ranIn ≤ (s.cluster.nodes n).node.currentTerm := by
    have terms := sound.invariant.logs.log_term n
    rw [node.log, node.term] at terms
    exact terms _ inLog
  -- had it been proposed in this term, its leader would be this very node
  have older : ack.ranIn ≠ (s.cluster.nodes n).node.currentTerm := by
    intro now
    obtain ⟨log, event⟩ := ok.led
    rw [now] at event
    obtain ⟨led, -⟩ := related.related.history _ (related.seen ack acked _ event)
    have leader : ack.node = n := Option.some.inj (led.symm.trans (node.leader lead))
    exact earlier log (leader ▸ event)
  have applied := inherited _ inLog (lt_of_le_of_ne bound older)
  have first := ok.first
  rw [node.applied]
  refine List.mem_of_getElem? (i := ack.index - 1) ?_
  rw [List.getElem?_take_of_lt (by rw [node.lastApplied] at applied; simp only at applied; omega)]
  exact held

def sampleLocation : ObjectLocation := ⟨text "k", 1, [], 0, false, [text "a"]⟩

/-- The proto3 encoding of the command that registers the sample location. -/
def sampleBytes : Bytes := [0x0a, 0x08, 0x0a, 0x01, 0x6b, 0x10, 0x01, 0x32, 0x01, 0x61]

/-- Protobuf on the sample command and on the empty message. -/
def sampleCodec : CommandCodec where
  serialize := fun cmd => if cmd = .registerObject sampleLocation then sampleBytes else []
  parse := fun bytes =>
    if bytes = sampleBytes then some (.registerObject sampleLocation)
    else if bytes = [] then some .notSet
    else none

/-- `alpha` answers a registration and `beta`, which stores the entry but has
not heard that it is committed, is elected in the next term. -/
def newLeader : List ServiceAction :=
  plainCall sampleBytes ++ .wait 0 :: raftRun (campaign beta 1 alpha)

/-- `newLeader`, and `beta` commits an entry of its own term. -/
def settledLeader : List ServiceAction :=
  newLeader ++ raftRun (.propose beta [] :: ship beta gamma 2 ++ ship beta gamma 2)

theorem leader_reflects_acknowledged_settled :
    Reflects sampleCodec (.create 1)
      ((Service.run trio settledLeader).cluster.nodes beta).node.applied ⟨1, 1, sampleBytes⟩
      (.registerObject sampleLocation) := by
  have acked : (⟨alpha, sampleBytes, 1, 1, 1,
      [.advancedCommit alpha 1 1 [⟨1, 1, sampleBytes⟩], .becameLeader alpha 1 []]⟩ : Ack) ∈
      (Service.run trio settledLeader).acks := by decide +kernel
  refine leader_reflects_acknowledged sampleCodec (.create 1)
    (Service.run_reachable trio settledLeader) (n := beta) (by decide) (by decide +kernel)
    (by decide +kernel) (by decide +kernel) acked rfl ?_ (by decide) (by decide)
  intro log event
  simp at event
  exact absurd event.1 (by decide)

/-- The new leader answers that the registered key does not exist. -/
theorem newLeader_misses_acknowledged :
    ((Service.run trio newLeader).calls = [⟨alpha, sampleBytes, .returned .success⟩] ∧
      (Service.run trio newLeader).acks.map (·.history) =
        [[.advancedCommit alpha 1 1 [⟨1, 1, sampleBytes⟩], .becameLeader alpha 1 []]]) ∧
    (((Service.run trio newLeader).cluster.nodes beta).node.role = .leader ∧
      ∀ m ∈ trio.members, ((Service.run trio newLeader).cluster.nodes m).node.currentTerm ≤
        ((Service.run trio newLeader).cluster.nodes beta).node.currentTerm) ∧
    (repository sampleCodec (.create 1)
      ((Service.run trio newLeader).cluster.nodes beta).node.applied).lookupObject (text "k") =
        .error (MetadataRepository.noMetadata (text "k")) := by
  refine ⟨by decide +kernel, by decide +kernel, ?_⟩
  have nothing : ((Service.run trio newLeader).cluster.nodes beta).node.applied = [] := by
    decide +kernel
  rw [nothing]
  rfl

end Dos.ControlPlane
