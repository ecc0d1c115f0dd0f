import DistributedObjectStorage.Consensus.RaftHandlers

/-!
# The group simulates abstract log replication

Every step of the cluster is answered by abstract steps of the node that ran
the critical section; thread and network bookkeeping answers with none.
-/
namespace Dos.Consensus
open Quorum Transition
open ReplicatedLog (Extends take_le)

variable {g : Group} {a : Spec} {c : Cluster} {n : Bytes}

/-- A restarted node has what it had saved, and has committed nothing yet. -/
theorem restart_ok {r : RaftNode} (h : NodeOk g a n r) :
    NodeOk g a n (RaftNode.create r.config r.storage) where
  config := h.config
  hardState := rfl
  stored := rfl
  term := by simp [RaftNode.create, h.hardState, h.term]
  vote := by simp [RaftNode.create, h.hardState, h.vote]
  log := by simp [RaftNode.create, h.stored, h.log]
  indexed := by simpa [RaftNode.create, h.stored] using h.indexed
  leader := nofun
  candidate := nofun
  next := nofun
  matched := nofun
  commit := Nat.zero_le _
  lastApplied := rfl
  applied := rfl
  committed := .nil _

theorem crashed_ok {r : RaftNode} (h : NodeOk g a n r) : EventOk g a (.crashed n r.applied) := by
  refine ⟨?_, r.currentTerm, ?_⟩
  · rw [h.applied]
    exact h.indexed.shorten (take_le _ _)
  · rw [h.applied]
    exact h.committed

/-- Both phases of an election open a round whose requests describe the log. -/
theorem Refines.openRound {r : RaftNode} {req : RequestVoteRequest} (h : Refines g c a)
    (sound : Sound g a) (hn : n ∈ g.members)
    (reaches : Reaches g n a fun a' => NodeOk g a' n r ∧ (req.preVote = false →
      req.candidateId = n ∧ Granted a' n n req.term ∧ (n, req.term, r.log) ∈ a'.candidacies ∧
      req.lastLogIndex = r.lastLogIndexLocked ∧ req.lastLogTerm = r.lastLogTermLocked)) :
    ∃ a', Relation.ReflTransGen g.spec.step a a' ∧ Refines g (c.openRound n r req) a' := by
  refine h.act sound rfl (reaches.bind (fun a' moves sound' post => ?_))
  obtain ⟨node, real⟩ := post
  have ext := moves.extends sound
  have peers : r.config.peers = g.peers n := by rw [node.config]; rfl
  refine .stay sound' ⟨⟨node, ?_, ?_⟩, ?_, ?_, ?_, ?_, ?_⟩
  · intro kind
    obtain ⟨candidate, self, -⟩ := real kind
    refine ⟨candidate, self, ?_, ?_, List.nodup_nil, by simp⟩
    · simp only [peers]
      exact g.peers_nodup n hn
    · simp only [peers]
      exact fun p hp => hp
  · exact sending_extends (h.nodes n hn).sending ext
  · apply recorded_append
    intro call new
    obtain ⟨peer, hp, rfl⟩ := List.mem_map.mp new
    rw [peers] at hp
    refine ⟨((g.mem_peers n hn peer).mp hp).1, fun kind => ?_⟩
    obtain ⟨candidate, -, stood, index, term⟩ := real kind
    simp only [candidate]
    refine ⟨hn, r.log, stood, ?_, ?_⟩
    · rw [index, RaftNode.lastLogIndexLocked, lastLogIndex_eq node.indexed]
    · rw [term, RaftNode.lastLogTermLocked, lastLogTerm_eq]
  all_goals exact fun _ hx => .inl hx

/-- A step of the election thread alone. -/
theorem Refines.setElection {e : Election} (h : Refines g c a) (sound : Sound g a)
    (hn : n ∈ g.members) (ok : ElectionOk g a n e) :
    ∃ a', Relation.ReflTransGen g.spec.step a a' ∧ Refines g (c.setElection n e) a' := by
  have process := h.nodes n hn
  refine h.act sound rfl (.stay sound ⟨⟨process.node, ok, process.sending⟩, ?_, ?_, ?_, ?_, ?_⟩)
  all_goals exact fun _ hx => .inl hx

/-- The bookkeeping of a round in which every counted peer has the property. -/
structure Tally (g : Group) (n : Bytes) (counts : Bytes → Prop) (round : VoteRound) : Prop where
  waiting_nodup : round.waiting.Nodup
  waiting : ∀ p ∈ round.waiting, p ∈ g.peers n
  granted_nodup : round.granted.Nodup
  granted : ∀ p ∈ round.granted, p ∈ g.peers n ∧ p ∉ round.waiting ∧ counts p

/-- A peer whose thread finishes is counted at most once. -/
theorem Tally.finish {counts : Bytes → Prop} {peer : Bytes} {round : VoteRound} (counted : Bool)
    (h : Tally g n counts round) (waiting : peer ∈ round.waiting)
    (granted : counted = true → counts peer) :
    Tally g n counts
      { round with
        waiting := round.waiting.erase peer
        granted := if counted then peer :: round.granted else round.granted } := by
  have left : ∀ p, p ∈ round.waiting.erase peer ↔ p ≠ peer ∧ p ∈ round.waiting :=
    fun p => h.waiting_nodup.mem_erase_iff
  have old : ∀ p ∈ round.granted, p ∈ g.peers n ∧ p ∉ round.waiting.erase peer ∧ counts p := by
    intro p hp
    obtain ⟨member, before, vote⟩ := h.granted p hp
    exact ⟨member, fun still => before ((left p).mp still).2, vote⟩
  have waiting' : ∀ p ∈ round.waiting.erase peer, p ∈ g.peers n :=
    fun p hp => h.waiting p ((left p).mp hp).2
  cases counted with
  | false => exact ⟨h.waiting_nodup.erase _, waiting', h.granted_nodup, old⟩
  | true =>
      have fresh : peer ∉ round.granted := fun again => (h.granted peer again).2.1 waiting
      refine ⟨h.waiting_nodup.erase _, waiting', List.nodup_cons.mpr ⟨fresh, h.granted_nodup⟩,
        fun p hp => ?_⟩
      rcases List.mem_cons.mp hp with rfl | hp
      · exact ⟨h.waiting p waiting, fun still => ((left p).mp still).1 rfl, granted rfl⟩
      · exact old p hp

theorem RoundOk.finish {peer : Bytes} {round : VoteRound} (counted : Bool)
    (h : RoundOk g a n round) (waiting : peer ∈ round.waiting)
    (granted : counted = true → Granted a peer n round.req.term) :
    RoundOk g a n
      { round with
        waiting := round.waiting.erase peer
        granted := if counted then peer :: round.granted else round.granted } := by
  have tally : Tally g n (Granted a · n round.req.term) round :=
    ⟨h.waiting_nodup, h.waiting, h.granted_nodup, h.granted⟩
  have done := tally.finish counted waiting granted
  exact ⟨h.candidate, h.self, done.waiting_nodup, done.waiting, done.granted_nodup, done.granted⟩

theorem Refines.receiveVote {peer : Bytes} {round : VoteRound} {resp : RequestVoteResponse}
    (h : Refines g c a) (sound : Sound g a) (hn : n ∈ g.members)
    (running : (c.nodes n).election = .voting round) (waiting : peer ∈ round.waiting)
    (reply : (⟨round.id, n, peer, round.req⟩, resp) ∈ c.voteReplies) :
    ∃ a', Relation.ReflTransGen g.spec.step a a' ∧
      Refines g (c.receiveVote n peer round resp) a' := by
  have process := h.nodes n hn
  have election := process.election
  rw [running] at election
  have counted := countVote_reaches sound process.node round.req resp
  refine h.act sound rfl (counted.bind (fun a' moves sound' node => ?_))
  have ext := moves.extends sound
  refine .stay sound' ⟨⟨node, ?_, sending_extends process.sending ext⟩, ?_, ?_, ?_, ?_, ?_⟩
  · intro real
    have ok := (election real).extends ext
    refine RoundOk.finish _ ok waiting (fun vote => ?_)
    have granted := h.voteReplies _ reply real (countVote_granted vote)
    simp only [ok.candidate] at granted
    exact granted.extends ext
  all_goals exact fun _ hx => .inl hx

/-- A finished round has distinct voters, so enough of them are a majority. -/
theorem finishRound_ok {round : VoteRound} (hn : n ∈ g.members) (process : ProcessOk g a n (c.nodes n))
    (running : (c.nodes n).election = .voting round) :
    ElectionOk g a n
      (if (c.nodes n).node.majorityLocked ≤ round.votes then
        if round.req.preVote then .preVoteWon round.req.term else .voteWon round.req.term
      else .idle) := by
  have election := process.election
  rw [running] at election
  split
  · rename_i enough
    split
    · trivial
    · rename_i real
      have ok := election (by simpa using real)
      have count : ((g.peers n).length + 1) / 2 + 1 ≤ 1 + round.granted.length := by
        simpa [RaftNode.majorityLocked, process.node.config, Group.config, VoteRound.votes]
          using enough
      refine ⟨_, g.majority hn ok.granted_nodup (fun p hp => (ok.granted p hp).1) count, ?_⟩
      intro v hv
      rcases Finset.mem_insert.mp hv with rfl | hv
      · exact ok.self
      · exact (ok.granted v (List.mem_toFinset.mp hv)).2.2
  · trivial

theorem Refines.next {c' : Cluster} (h : Refines g c a) (reachable : g.spec.Reachable a)
    (step : Cluster.Step g c c') :
    ∃ a', Relation.ReflTransGen g.spec.step a a' ∧ Refines g c' a' := by
  have sound : Sound g a := ⟨reachable, h.indexed⟩
  cases step with
  | @restart n hn =>
      have node := (h.nodes n hn).node
      refine h.act sound rfl (.stay sound ⟨⟨restart_ok node, trivial, nofun⟩, ?_, ?_, ?_, ?_, ?_⟩)
      case refine_5 => exact recorded_cons (crashed_ok node)
      all_goals exact fun _ hx => .inl hx
  | @startElection n hn idle =>
      simp only [Cluster.startElection]
      split
      · exact ⟨a, .refl, h⟩
      · exact h.openRound sound hn (.stay sound ⟨(h.nodes n hn).node, nofun⟩)
  | receiveVote hn running waiting reply => exact h.receiveVote sound hn running waiting reply
  | @loseVote n peer round hn running waiting =>
      have election := (h.nodes n hn).election
      rw [running] at election
      exact h.setElection sound hn
        (fun real => RoundOk.finish false (election real) waiting nofun)
  | @finishRound n round hn running done =>
      exact h.setElection sound hn (finishRound_ok hn (h.nodes n hn) running)
  | @startVote n wouldBeTerm contacted hn won =>
      simp only [Cluster.startVote]
      split
      · exact h.setElection sound hn trivial
      · refine h.openRound sound hn
          ((becomeCandidate_reaches sound hn (h.nodes n hn).node).bind
            (fun a' _ sound' post => .stay sound' ⟨post.1, fun _ => ?_⟩))
        refine ⟨?_, post.2.1, post.2.2, rfl, rfl⟩
        exact congrArg RaftConfig.id (h.nodes n hn).node.config
  | @finishElection n term hn won =>
      have process := h.nodes n hn
      have election := process.election
      rw [won] at election
      simp only [Cluster.finishElection]
      split
      · rename_i guard
        obtain ⟨cand, now⟩ := guard
        have elected := becomeLeader_reaches sound process.node cand (now ▸ election)
        refine h.act sound rfl (elected.bind (fun a' moves sound' post => .stay sound'
          ⟨⟨post.1, trivial, sending_extends process.sending (moves.extends sound)⟩,
            ?_, ?_, ?_, ?_, ?_⟩))
        case refine_5 => exact recorded_cons post.2
        all_goals exact fun _ hx => .inl hx
      · exact h.setElection sound hn trivial
  | @deliverVote call leaderless sent =>
      have ok := h.voteCalls call sent
      have process := h.nodes call.dst ok.dst
      have handled := handleRequestVote_reaches sound process.node ok leaderless
      refine h.act sound rfl (handled.bind (fun a' moves sound' post => .stay sound'
        ⟨⟨post.1, process.election.extends (moves.extends sound),
          sending_extends process.sending (moves.extends sound)⟩, ?_, ?_, ?_, ?_, ?_⟩))
      case refine_2 => exact recorded_cons post.2
      all_goals exact fun _ hx => .inl hx
  | @deliverAppend call sent =>
      obtain ⟨log, ok⟩ := h.appendCalls call sent
      have process := h.nodes call.dst ok.dst
      have handled := handleAppendEntries_reaches sound process.node ok
      refine h.act sound rfl (handled.bind (fun a' moves sound' post => .stay sound'
        ⟨⟨post.1, process.election.extends (moves.extends sound),
          sending_extends process.sending (moves.extends sound)⟩, ?_, ?_, ?_, ?_, ?_⟩))
      case refine_4 => exact recorded_cons post.2
      all_goals exact fun _ hx => .inl hx
  | @propose n command hn =>
      have process := h.nodes n hn
      have proposed := propose_reaches sound hn process.node command
      refine h.act sound rfl (proposed.bind (fun a' moves sound' post => .stay sound'
        ⟨⟨post.1, process.election.extends (moves.extends sound),
          sending_extends process.sending (moves.extends sound)⟩, ?_, ?_, ?_, ?_, ?_⟩))
      case refine_5 => exact recorded_append post.2
      all_goals exact fun _ hx => .inl hx
  | @replicate n peer term hn hp free =>
      have process := h.nodes n hn
      unfold Cluster.replicate
      cases made : (c.nodes n).node.replicateRequest peer term with
      | none =>
          simp only [made]
          exact ⟨a, .refl, h⟩
      | some req =>
          simp only [made]
          have ok := replicateRequest_ok c.nextId sound hn process.node hp made
          refine h.act sound rfl (.stay sound ⟨⟨process.node, process.election, ?_⟩,
            ?_, ?_, ?_, ?_, ?_⟩)
          case refine_1 =>
            intro p call hc
            by_cases same : p = peer
            · subst same
              simp only [Function.update_self, Option.some.injEq] at hc
              subst hc
              exact ⟨rfl, rfl, hp, _, ok⟩
            · simp only [Function.update_of_ne same] at hc
              exact process.sending p call hc
          case refine_4 => exact recorded_cons ⟨_, ok⟩
          all_goals exact fun _ hx => .inl hx
  | @receiveAppend call resp hn sending reply =>
      have process := h.nodes call.src hn
      obtain ⟨-, -, hp, log, ok⟩ := process.sending _ _ sending
      have handled := replicateReply_reaches sound hn process.node hp ok (h.appendReplies _ reply)
      refine h.act sound rfl (handled.bind (fun a' moves sound' post => .stay sound'
        ⟨⟨post.1, process.election.extends (moves.extends sound),
          sending_clear (sending_extends process.sending (moves.extends sound)) call.dst⟩,
          ?_, ?_, ?_, ?_, ?_⟩))
      case refine_5 => exact recorded_append post.2
      all_goals exact fun _ hx => .inl hx
  | @loseAppend n peer hn =>
      have process := h.nodes n hn
      refine h.act sound rfl (.stay sound ⟨⟨process.node, process.election,
        sending_clear process.sending peer⟩, ?_, ?_, ?_, ?_, ?_⟩)
      all_goals exact fun _ hx => .inl hx

/-- The Raft group refines abstract log replication. -/
theorem simulates (g : Group) : (Cluster.system g).Simulates g.spec (Refines g) where
  start := by
    rintro _ rfl
    exact ⟨_, rfl, Refines.initial g⟩
  next := fun _ _ _ reachable related step => related.next reachable step

theorem reachable_refines (reachable : Cluster.Reachable g c) :
    ∃ a, Sound g a ∧ Refines g c a := by
  obtain ⟨a, reached, related⟩ := (simulates g).reachable reachable
  exact ⟨a, ⟨reached, related.indexed⟩, related⟩

end Dos.Consensus
