import DistributedObjectStorage.Consensus.LateAppend

/-!
# What a leader keeps about its peers

A follower commits up to the smaller of the leader's commit index and its own
last index, not up to the last entry of the request. That is sound because every
request carries the whole rest of the log it was cut from.
-/
namespace Dos.Consensus
open Transition
open ReplicatedLog (take_le)

/-! ## A leader has both indices of every peer -/

/-- While the node leads, neither map lacks one of the peers. -/
def Filled (peers : List Bytes) (r : RaftNode) : Prop :=
  r.role = .leader → ∀ peer ∈ peers, (∃ k, r.nextIndex peer = some k) ∧ ∃ m, r.matchIndex peer = some m

section Sections
variable {peers : List Bytes} {r r' : RaftNode}

theorem Filled.becomeLeader (r : RaftNode) : Filled r.config.peers r.becomeLeaderLocked := by
  intro _ peer hp
  exact ⟨⟨_, if_pos hp⟩, ⟨_, if_pos hp⟩⟩

variable (filled : Filled peers r)
include filled

/-- A section that leaves the maps alone and elects nobody. -/
theorem Filled.keep (leads : r'.role = .leader → r.role = .leader)
    (next : r'.nextIndex = r.nextIndex) (matched : r'.matchIndex = r.matchIndex) : Filled peers r' := by
  intro role peer hp
  rw [next, matched]
  exact filled (leads role) peer hp

theorem Filled.stepDown (t : ℕ) : Filled peers (r.stepDownIfStaleLocked t) := by
  unfold RaftNode.stepDownIfStaleLocked
  split
  · exact nofun
  · exact filled

theorem Filled.handleRequestVote (req : RequestVoteRequest) (leaderless : Bool) :
    Filled peers (r.handleRequestVote req leaderless).1 := by
  unfold RaftNode.handleRequestVote
  split
  · exact filled
  · dsimp only
    split
    · exact (filled.stepDown req.term).keep id rfl rfl
    · exact filled.stepDown req.term

theorem Filled.countVote (req : RequestVoteRequest) (resp : RequestVoteResponse) :
    Filled peers (r.countVote req resp).1 := by
  unfold RaftNode.countVote
  split
  · exact filled.stepDown resp.term
  · split <;> exact filled

theorem Filled.handleAppendEntries (req : AppendEntriesRequest) :
    Filled peers (r.handleAppendEntries req).1 := by
  intro leads
  have same := (handleAppendEntries_frame r req).1 leads
  rw [same] at leads ⊢
  exact filled leads

theorem Filled.advanceCommit : Filled peers r.advanceCommitLocked := by
  obtain ⟨next, matched⟩ := RaftNode.advanceCommitLocked_indices r
  exact filled.keep (fun leads => (advance_frame r).1 ▸ leads) next matched

theorem Filled.propose (command : Bytes) : Filled peers (r.propose command).1 := by
  unfold RaftNode.propose
  split
  · exact filled
  · apply Filled.advanceCommit
    exact filled.keep id rfl rfl

theorem Filled.replicateReply (peer : Bytes) (req : AppendEntriesRequest)
    (resp : AppendEntriesResponse) : Filled peers (r.replicateReply peer req resp) := by
  -- An updated map has the peer of the update, and what it had before.
  have update : ∀ (map : Bytes → Option ℕ) (k : ℕ) (other : Bytes), (∃ i, map other = some i) →
      ∃ i, Function.update map peer (some k) other = some i := by
    intro map k other there
    by_cases same : other = peer
    · exact ⟨k, by rw [same, Function.update_self]⟩
    · rw [Function.update_of_ne same]
      exact there
  unfold RaftNode.replicateReply
  split
  · exact filled
  · split
    · exact filled.stepDown resp.term
    · split
      · apply Filled.advanceCommit
        intro leads other hp
        obtain ⟨next, matched⟩ := filled leads other hp
        exact ⟨update _ _ other next, update _ _ other matched⟩
      · intro leads other hp
        obtain ⟨next, matched⟩ := filled leads other hp
        exact ⟨update _ _ other next, matched⟩

end Sections

namespace Cluster
variable {g : Group} {a : Spec} {c c' c₀ : Cluster} {n peer : Bytes} {call : AppendCall}

def AllFilled (g : Group) (c : Cluster) : Prop := ∀ n ∈ g.members, Filled (g.peers n) (c.nodes n).node

theorem AllFilled.step (reachable : Reachable g c) (filled : AllFilled g c) (step : Step g c c') :
    AllFilled g c' := by
  intro n hn
  have own := filled n hn
  have ran := step.ran n
  generalize (c'.nodes n).node = r' at ran ⊢
  cases ran with
  | nothing => exact own
  | restart => exact nofun
  | countVote req resp => exact own.countVote req resp
  | becomeCandidate => exact nofun
  | becomeLeader stands =>
      obtain ⟨a, -, related⟩ := reachable_refines reachable
      have config : (c.nodes n).node.config.peers = g.peers n := by
        rw [(related.nodes n hn).node.config]
        rfl
      rw [← config]
      exact .becomeLeader (c.nodes n).node
  | handleRequestVote req leaderless => exact own.handleRequestVote req leaderless
  | handleAppendEntries req => exact own.handleAppendEntries req
  | propose command => exact own.propose command
  | replicateReply peer req resp => exact own.replicateReply peer req resp

theorem reachable_filled (reachable : Reachable g c) : AllFilled g c := by
  apply System.Reachable.invariant (P := AllFilled g) _ _ reachable
  · intro c start n hn leads
    rw [start] at leads
    cases leads
  · intro c c' reached filled step
    exact filled.step reached step

/-! ## The indices of a peer -/

/-- What a leader's indices of a peer say about its own log and the peer's. -/
structure Tracks (leader follower : RaftNode) (peer : Bytes) : Prop where
  next : ∃ k, leader.nextIndex peer = some k ∧ 1 ≤ k ∧ k ≤ leader.lastLogIndexLocked + 1
  matched : ∃ m, leader.matchIndex peer = some m ∧ m ≤ leader.lastLogIndexLocked ∧
    (follower.currentTerm = leader.currentTerm → follower.log.take m = leader.log.take m)

/-- What a peer acknowledged stays in its log as long as it is in that term: only
the leader of a later term can have taken it back. -/
theorem acked_agree (sound : Sound g a) {t m : ℕ} (acked : (peer, t, m) ∈ a.acks) (same : a.term peer = t) :
    (a.log peer).take m = (a.leaderLog t).take m := by
  have inv := sound.invariant
  obtain ⟨-, inside⟩ := inv.acks.leader peer t m acked
  have length : ((a.leaderLog t).take m).length = m := by rw [List.length_take, Nat.min_eq_left inside]
  rcases inv.acks.log peer t m acked _ (take_le _ m) length.le with held | ⟨u, after, upto, -⟩
  · have front := List.prefix_iff_eq_take.mp held
    rw [length] at front
    exact front.symm
  · omega

theorem leader_tracks (reachable : Reachable g c) (hn : n ∈ g.members) (leads : (c.nodes n).node.role = .leader)
    (hp : peer ∈ g.peers n) : Tracks (c.nodes n).node (c.nodes peer).node peer := by
  obtain ⟨a, sound, related⟩ := reachable_refines reachable
  have node := (related.nodes n hn).node
  have other := (related.nodes peer ((g.mem_peers n hn peer).mp hp).1).node
  have last : (c.nodes n).node.lastLogIndexLocked = (c.nodes n).node.log.length := lastLogIndex_eq node.indexed
  have held := leader_holds sound node leads
  obtain ⟨⟨k, next⟩, ⟨m, matched⟩⟩ := reachable_filled reachable n hn leads peer hp
  have range := node.next leads peer hp k next
  refine ⟨⟨k, next, range.1, last ▸ range.2⟩, ⟨m, matched, ?_⟩⟩
  rw [last]
  rcases node.matched leads peer hp m matched with rfl | acked
  · exact ⟨Nat.zero_le _, fun _ => rfl⟩
  · constructor
    · rw [held]
      exact (sound.invariant.acks.leader peer _ m acked).2
    · intro same
      rw [held, ← other.log]
      exact acked_agree sound acked (other.term.trans same)

/-! ## The state a request was sent in -/

/-- The call was made by the section that the sender's replication thread ran in
the state `c₀`, and the run has come from there to `c`. -/
structure SentIn (g : Group) (c₀ c : Cluster) (call : AppendCall) : Prop where
  reachable : Reachable g c₀
  src : call.src ∈ g.members
  dst : call.dst ∈ g.peers call.src
  free : (c₀.nodes call.src).sending call.dst = none
  id : call.id = c₀.nextId
  made : (c₀.nodes call.src).node.replicateRequest call.dst call.req.term = some call.req
  steps : Relation.ReflTransGen (Step g) (c₀.replicate call.src call.dst call.req.term) c

/-- Only the send half of `ReplicateTo` adds a call. -/
theorem appendCalls_step (reachable : Reachable g c) (step : Step g c c') (sent : call ∈ c'.appendCalls) :
    call ∈ c.appendCalls ∨ SentIn g c c' call := by
  cases step with
  | startElection hv idle =>
      unfold startElection at sent
      dsimp only at sent
      split at sent <;> exact .inl sent
  | startVote contacted hv =>
      unfold startVote at sent
      dsimp only at sent
      split at sent <;> exact .inl sent
  | finishElection hv won =>
      unfold finishElection at sent
      dsimp only at sent
      split at sent <;> exact .inl sent
  | @replicate v peer term hv hp free =>
      cases made : (c.nodes v).node.replicateRequest peer term with
      | none =>
          simp only [replicate, made] at sent
          exact .inl sent
      | some req =>
          have now : req.term = term := by
            obtain ⟨-, -, prev, -, rfl⟩ := replicateRequest_some made
            rfl
          subst now
          have added : (c.replicate v peer req.term).appendCalls = ⟨c.nextId, v, peer, req⟩ :: c.appendCalls := by
            simp only [replicate, made]
          rw [added] at sent
          rcases List.mem_cons.mp sent with rfl | old
          · exact .inr ⟨reachable, hv, hp, free, rfl, made, .refl⟩
          · exact .inl old
  | _ => exact .inl sent

theorem exists_sentIn (reachable : Reachable g c) : ∀ call ∈ c.appendCalls, ∃ c₀, SentIn g c₀ c call := by
  apply System.Reachable.invariant (P := fun c => ∀ call ∈ c.appendCalls, ∃ c₀, SentIn g c₀ c call) _ _ reachable
  · intro c start call sent
    rw [start] at sent
    cases sent
  · intro c c' reached earlier step call sent
    rcases appendCalls_step reached step sent with old | new
    · obtain ⟨c₀, at₀⟩ := earlier call old
      exact ⟨c₀, { at₀ with steps := at₀.steps.tail step }⟩
    · exact ⟨c, new⟩

theorem SentIn.run (sent : SentIn g c₀ c call) : Relation.ReflTransGen (Step g) c₀ c :=
  .head (.replicate call.req.term sent.src sent.dst sent.free) sent.steps

theorem SentIn.builds (sent : SentIn g c₀ c call) : Builds g c₀ call.src call.req.term call.req :=
  ⟨call.dst, sent.dst, sent.made⟩

/-! ## A follower that commits -/

/-- A request that is not stale finds the node as it is after stepping down. -/
theorem handleAppendEntries_settled {f : RaftNode} {m : AppendEntriesRequest} (fresh : ¬ m.term < f.currentTerm) :
    (f.stepDownIfStaleLocked m.term).handleAppendEntries m = f.handleAppendEntries m := by
  have term : (f.stepDownIfStaleLocked m.term).currentTerm = m.term := stepDown_term fresh
  have current : ¬ m.term < (f.stepDownIfStaleLocked m.term).currentTerm := Nat.not_lt.mpr term.le
  have still : (f.stepDownIfStaleLocked m.term).stepDownIfStaleLocked m.term = f.stepDownIfStaleLocked m.term :=
    if_neg (Nat.not_lt.mpr term.ge)
  unfold RaftNode.handleAppendEntries
  rw [if_neg current, if_neg fresh, still]

/-- The node that a request of a leader finds, once it is in the leader's term. -/
theorem follows_leader (sound : Sound g a) (related : Refines g c a) (hn : n ∈ g.members) {T : ℕ}
    (fresh : ¬ T < (c.nodes n).node.currentTerm) :
    Follows (a.leaderLog T) T ((c.nodes n).node.stepDownIfStaleLocked T) := by
  have node := (related.nodes n hn).node
  have log : ((c.nodes n).node.stepDownIfStaleLocked T).log = (c.nodes n).node.log := by
    unfold RaftNode.stepDownIfStaleLocked
    split <;> rfl
  have coherent := sound.invariant.logs.log n
  rw [node.log] at coherent
  refine ⟨stepDown_term fresh, ?_, ?_⟩
  · rw [log]
    exact node.indexed
  · rw [log]
    exact coherent_matching coherent (sound.invariant.logs.leaderLog T)

/-- What a success commits is in the log that the sender had when it sent. -/
theorem SentIn.commit_agrees (sent : SentIn g c₀ c call)
    (ok : ((c.nodes call.dst).node.handleAppendEntries call.req).2.success = true)
    (raised : (c.nodes call.dst).node.commitIndex <
      ((c.nodes call.dst).node.handleAppendEntries call.req).1.commitIndex) :
    ((c.nodes call.dst).node.handleAppendEntries call.req).1.commitIndex ≤ (c₀.nodes call.src).node.log.length ∧
      ((c.nodes call.dst).node.handleAppendEntries call.req).1.log.take
          ((c.nodes call.dst).node.handleAppendEntries call.req).1.commitIndex =
        (c₀.nodes call.src).node.log.take
          ((c.nodes call.dst).node.handleAppendEntries call.req).1.commitIndex := by
  obtain ⟨a₀, sound₀, related₀⟩ := reachable_refines sent.reachable
  obtain ⟨a, sound, related, ext⟩ := refines_many sound₀ related₀ sent.run
  have cut := sent.builds.cut sent.reachable sent.src
  have held : (c₀.nodes call.src).node.log <+: a.leaderLog call.req.term := by
    rw [sent.builds.leads.1.log_eq sound₀ related₀ sent.src]
    exact ext.leaderLog call.req.term
  have hd : call.dst ∈ g.members := ((g.mem_peers call.src sent.src call.dst).mp sent.dst).1
  have fresh : ¬ call.req.term < (c.nodes call.dst).node.currentTerm := by
    intro stale
    rw [RaftNode.handleAppendEntries, if_pos stale] at ok
    cases ok
  have follows := follows_leader sound related hd fresh
  rw [← handleAppendEntries_settled fresh] at ok raised ⊢
  rw [← RaftNode.stepDownIfStaleLocked_commitIndex _ call.req.term] at raised
  generalize (c.nodes call.dst).node.stepDownIfStaleLocked call.req.term = f at follows ok raised ⊢
  rcases follows.handle_cases (sound.indexed call.req.term) held cut rfl with ⟨refused, -⟩ | ⟨-, accepted⟩
  · cases ok.symm.trans refused
  -- The commit index moved, so it is at most the leader's, which the sent log reaches.
  have told : f.commitIndex < call.req.leaderCommit := by
    by_contra reached
    have unmoved := accepted.commit
    rw [if_neg reached] at unmoved
    omega
  have commit := accepted.commit
  rw [if_pos told] at commit
  have inside : (f.handleAppendEntries call.req).1.commitIndex ≤ (c₀.nodes call.src).node.log.length := by
    have := cut.commit
    omega
  refine ⟨inside, ?_⟩
  rw [List.prefix_iff_eq_take.mp accepted.holds, List.take_take, Nat.min_eq_left inside]

/-- A leader's indices of its peers stay inside its log, and what it counts as
matched is there; every request in flight reaches at least as far as the commit
index that it carries, so a follower commits only what the sender had sent. -/
theorem leader_bookkeeping (reachable : Reachable g c) :
    (∀ n ∈ g.members, (c.nodes n).node.role = .leader → ∀ peer ∈ g.peers n,
      Tracks (c.nodes n).node (c.nodes peer).node peer) ∧
    ∀ call ∈ c.appendCalls,
      call.req.leaderCommit ≤ call.req.prevLogIndex + call.req.entries.length ∧
      (∃ c₀, SentIn g c₀ c call) ∧
      ∀ c₀, SentIn g c₀ c call →
        let f := (c.nodes call.dst).node
        let f' := (f.handleAppendEntries call.req).1
        let sent := (c₀.nodes call.src).node.log
        (f.handleAppendEntries call.req).2.success = true → f.commitIndex < f'.commitIndex →
          f'.commitIndex ≤ sent.length ∧ f'.log.take f'.commitIndex = sent.take f'.commitIndex := by
  refine ⟨fun n hn leads peer hp => leader_tracks reachable hn leads hp, ?_⟩
  intro call flying
  obtain ⟨c₀, sent⟩ := exists_sentIn reachable call flying
  have cut := sent.builds.cut sent.reachable sent.src
  refine ⟨?_, ⟨c₀, sent⟩, fun c₁ sent₁ => sent₁.commit_agrees⟩
  rw [cut.upto]
  exact cut.commit

/-- The second entry is on its way to the follower, with the first one committed. -/
def secondSent : List Action := oneEntry ++ twoEntries ++ [.replicate alpha beta 1]

theorem leader_bookkeeping_secondSent :
    let c := run trio secondSent
    let call : AppendCall := ⟨3, alpha, beta, ⟨1, alpha, 1, 1, [⟨1, 2, [121]⟩], 1⟩⟩
    let f' := ((c.nodes beta).node.handleAppendEntries call.req).1
    Tracks (c.nodes alpha).node (c.nodes beta).node beta ∧ (c.nodes beta).node.commitIndex = 0 ∧ f'.commitIndex = 1 ∧
      ∃ c₀, SentIn trio c₀ c call ∧ f'.log.take 1 = (c₀.nodes alpha).node.log.take 1 := by
  intro c call f'
  obtain ⟨tracks, requests⟩ := leader_bookkeeping (run_reachable trio secondSent)
  have before : (c.nodes beta).node.commitIndex = 0 := by decide +kernel
  have after : f'.commitIndex = 1 := by decide +kernel
  have ok : ((c.nodes beta).node.handleAppendEntries call.req).2.success = true := by decide +kernel
  have flying : call ∈ c.appendCalls := by decide +kernel
  obtain ⟨-, ⟨c₀, sent⟩, agrees⟩ := requests call flying
  have agree := (agrees c₀ sent ok (by rw [before]; exact after ▸ Nat.zero_lt_one)).2
  refine ⟨tracks alpha (by decide) (by decide +kernel) beta (by decide), before, after, c₀, sent, ?_⟩
  rw [← after]
  exact agree

end Cluster
end Dos.Consensus
