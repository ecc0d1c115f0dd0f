import Mathlib.Data.Finset.Max
import DistributedObjectStorage.Consensus.RaftRounds

/-!
# Winning an election with the nodes that are left

A majority without a leader can elect its member with the best log, if the election
thread of that one runs. One thing can still be in the way: a term that the
candidate has not heard of, and a trial round tells it. The tests against the clock
are taken to find that the election window has passed.
-/
namespace Dos.Consensus
namespace Cluster

variable {g : Group} {Q : List Bytes} {c c' : Cluster} {n q m : Bytes}

/-! ## An election -/

/-- The log of the first would win against that of the second. -/
def Ahead (r q : RaftNode) : Prop :=
  q.lastLogTermLocked < r.lastLogTermLocked ∨
    q.lastLogTermLocked = r.lastLogTermLocked ∧ q.lastLogIndexLocked ≤ r.lastLogIndexLocked

theorem Ahead.upToDate {r q : RaftNode} (ahead : Ahead r q) (term : ℕ) (preVote : Bool) :
    q.upToDate (r.voteRequest term preVote) = true := by
  unfold RaftNode.upToDate
  rcases ahead with newer | ⟨same, longer⟩
  · simp [RaftNode.voteRequest, newer]
  · simp [RaftNode.voteRequest, same, longer]

theorem Ahead.log {r q r' q' : RaftNode} (ahead : Ahead r q) (same : r'.log = r.log) (same' : q'.log = q.log) :
    Ahead r' q' := by
  unfold Ahead RaftNode.lastLogTermLocked RaftNode.lastLogIndexLocked
  rw [same, same']
  exact ahead

theorem grants_trial {r q : RaftNode} (ahead : Ahead r q) (term : q.currentTerm ≤ r.currentTerm)
    (follows : q.role ≠ .leader) :
    q.handleRequestVote (r.voteRequest (r.currentTerm + 1) true) true = (q, ⟨q.currentTerm, true⟩) := by
  have current : q.currentTerm ≤ r.currentTerm + 1 := Nat.le_succ_of_le term
  have recent := ahead.upToDate (r.currentTerm + 1) true
  have trial : (r.voteRequest (r.currentTerm + 1) true).preVote = true := rfl
  rw [RaftNode.handleRequestVote, if_pos trial, recent]
  simp [RaftNode.voteRequest, current, follows]

/-- In a new term the vote is still free. -/
theorem grants_vote {q : RaftNode} {req : RequestVoteRequest} (real : req.preVote = false)
    (recent : q.upToDate req = true) (term : q.currentTerm < req.term) :
    (q.handleRequestVote req true).2 = ⟨req.term, true⟩ ∧ (q.handleRequestVote req true).1.currentTerm = req.term := by
  have down : q.stepDownIfStaleLocked req.term =
      RaftNode.persistHardStateLocked { q with currentTerm := req.term, votedFor := [], role := .follower } := by
    rw [RaftNode.stepDownIfStaleLocked, if_pos term]
  rw [RaftNode.handleRequestVote, real, if_neg Bool.false_ne_true, down]
  dsimp only
  rw [if_pos ⟨rfl, .inl rfl, recent⟩]
  exact ⟨rfl, rfl⟩

/-- The election thread sends its trial requests. -/
theorem startTrial (hn : n ∈ g.members) (member : n ∈ Q) (idle : (c.nodes n).election = .idle) (awake : c.Awake n)
    (follows : (c.nodes n).node.role ≠ .leader) :
    StepIn g Q c (c.openRound n (c.nodes n).node
      ((c.nodes n).node.voteRequest ((c.nodes n).node.currentTerm + 1) true)) := by
  have starts : c.startElection n = c.openRound n (c.nodes n).node
      ((c.nodes n).node.voteRequest ((c.nodes n).node.currentTerm + 1) true) := if_neg follows
  have step : Step g c (c.startElection n) := .startElection hn idle
  rw [starts] at step
  exact .update step member rfl rfl fun _ => .inr awake

/-- A node with a free election thread and the best log of a majority without a
leader is elected by it. -/
theorem win (reachable : Reachable g c) (quorum : Quorate g Q) (member : n ∈ Q)
    (idle : (c.nodes n).election = .idle) (awake : c.Awake n) (follow : ∀ q ∈ Q, (c.nodes q).node.role ≠ .leader)
    (terms : ∀ q ∈ Q, (c.nodes q).node.currentTerm ≤ (c.nodes n).node.currentTerm)
    (ahead : ∀ q ∈ Q, Ahead (c.nodes n).node (c.nodes q).node) :
    ∃ c', Within g Q c c' ∧ (c'.nodes n).node.role = .leader ∧
      ∀ q ∈ Q, (c'.nodes q).node.currentTerm ≤ (c'.nodes n).node.currentTerm := by
  have hn := quorum.members n member
  have config := config_eq reachable hn
  have voters := (quorum.voters member).2.1
  -- the trial round changes no node
  let pre := (c.nodes n).node.voteRequest ((c.nodes n).node.currentTerm + 1) true
  have trial : ∀ q ∈ Q.erase n, (c.nodes q).node.handleRequestVote pre true =
      ((c.nodes q).node, ⟨(c.nodes q).node.currentTerm, true⟩) := by
    intro q listed
    have inQ := (voters q listed).1
    exact grants_trial (ahead q inQ) (terms q inQ) (follow q inQ)
  obtain ⟨tried, within, won, node, voted⟩ := winRound quorum member config
    (startTrial hn member idle awake (follow n member)) (.inl rfl) (fun q listed => by
      rw [trial q listed]
      exact ⟨rfl, terms q (voters q listed).1⟩)
  have passed : (tried.nodes n).election = .preVoteWon ((c.nodes n).node.currentTerm + 1) := won
  have same : ∀ q ∈ Q.erase n, tried.nodes q = c.nodes q := by
    intro q listed
    rw [voted q listed, trial q listed]
  -- the real round
  let candidate := (c.nodes n).node.becomeCandidate
  let req := candidate.voteRequest candidate.currentTerm false
  have config' : candidate.config = g.config n := config
  have stood : StepIn g Q tried (tried.openRound n candidate req) := by
    have stands : tried.startVote n ((c.nodes n).node.currentTerm + 1) false = tried.openRound n candidate req := by
      unfold startVote
      rw [node]
      exact if_neg (by simp [follow n member])
    have step : Step g tried (tried.openRound n candidate req) := stands ▸ .startVote false hn passed
    exact .update step member rfl rfl (by simp [passed])
  have vote : ∀ q ∈ Q.erase n, ((c.nodes q).node.handleRequestVote req true).2 = ⟨candidate.currentTerm, true⟩ ∧
      ((c.nodes q).node.handleRequestVote req true).1.currentTerm = candidate.currentTerm := by
    intro q listed
    have inQ := (voters q listed).1
    have recent : Ahead candidate (c.nodes q).node := (ahead q inQ).log rfl rfl
    exact grants_vote rfl (recent.upToDate _ false) (Nat.lt_succ_of_le (terms q inQ))
  obtain ⟨elected, within', won', node', voted'⟩ := winRound quorum member config' stood (.inr ⟨rfl, rfl⟩)
    (fun q listed => by
      rw [same q listed, (vote q listed).1]
      exact ⟨rfl, Nat.le_refl _⟩)
  have stands : (elected.nodes n).node.role = .candidate ∧
      (elected.nodes n).node.currentTerm = candidate.currentTerm := by
    rw [node']
    exact ⟨rfl, rfl⟩
  have step : Step g elected (elected.finishElection n candidate.currentTerm) := .finishElection hn won'
  rw [finishElection, if_pos stands, node'] at step
  refine ⟨_, within.trans (within'.tail (.update step member rfl rfl fun _ => .inl rfl)), ?_, ?_⟩
  · simp [setProcess, RaftNode.becomeLeaderLocked]
  · intro q inQ
    by_cases self : q = n
    · rw [self]
    · have listed : q ∈ Q.erase n := quorum.distinct.mem_erase_iff.mpr ⟨self, inQ⟩
      simp only [setProcess, Function.update_self, Function.update_of_ne self]
      rw [voted' q listed, same q listed]
      exact (vote q listed).2.le

/-- A trial round tells a node of a newer term. -/
theorem catchTerm (quorum : Quorate g Q) (reachable : Reachable g c) (member : n ∈ Q) (inQ : m ∈ Q)
    (idle : (c.nodes n).election = .idle) (awake : c.Awake n) (follows : (c.nodes n).node.role ≠ .leader)
    (newer : (c.nodes n).node.currentTerm < (c.nodes m).node.currentTerm) :
    ∃ c', Within g Q c c' ∧ c'.history = c.history ∧ (c'.nodes n).election = .idle ∧
      (c'.nodes n).node.role ≠ .leader ∧ (c'.nodes n).node.currentTerm = (c.nodes m).node.currentTerm ∧
      (c'.nodes n).node.log = (c.nodes n).node.log ∧ ∀ p, p ≠ n → c'.nodes p = c.nodes p := by
  have hn := quorum.members n member
  have ne : m ≠ n := by
    rintro rfl
    exact lt_irrefl _ newer
  have isPeer : m ∈ g.peers n := (g.mem_peers n hn m).mpr ⟨quorum.members m inQ, ne⟩
  have config := config_eq reachable hn
  let pre := (c.nodes n).node.voteRequest ((c.nodes n).node.currentTerm + 1) true
  let round : VoteRound := ⟨c.nextId, pre, (c.nodes n).node.config.peers, []⟩
  let asking := c.openRound n (c.nodes n).node pre
  have started : StepIn g Q c asking := startTrial hn member idle awake follows
  have asked : Asked asking n round := Asked.openRound c n (c.nodes n).node pre
  have waits : m ∈ round.waiting := by
    change m ∈ (c.nodes n).node.config.peers
    rw [config]
    exact isPeer
  have others : ∀ p, p ≠ n → asking.nodes p = c.nodes p := by
    intro p other
    simp [asking, openRound, setProcess, other]
  have own : (asking.nodes n).node = (c.nodes n).node := by simp [asking, openRound, setProcess]
  obtain ⟨trial, answers⟩ : ((c.nodes m).node.handleRequestVote pre true).1 = (c.nodes m).node ∧
      ((c.nodes m).node.handleRequestVote pre true).2.term = (c.nodes m).node.currentTerm :=
    RaftNode.handleRequestVote_preVote rfl true
  have counted : (asking.nodes n).node.countVote round.req
      ((asking.nodes m).node.handleRequestVote round.req true).2 =
      (RaftNode.persistHardStateLocked { (c.nodes n).node with
        currentTerm := (c.nodes m).node.currentTerm, votedFor := [], role := .follower }, false) := by
    rw [others m ne, own, RaftNode.countVote, answers, if_pos newer, RaftNode.stepDownIfStaleLocked, if_pos newer]
  obtain ⟨told, polled, history, -, after, voted, rest⟩ := asked.answer hn member inQ waits ne counted
  -- one vote is not enough in a group of two or more
  obtain ⟨c', within, history', nodes⟩ := closeRound (c := told) hn member (by rw [after])
  have lost : ¬(told.nodes n).node.majorityLocked ≤
      VoteRound.votes { round with waiting := round.waiting.erase m } := by
    have some := List.length_pos_of_mem isPeer
    change ¬_ ≤ 1
    rw [after]
    simp only [RaftNode.majorityLocked, RaftNode.persistHardStateLocked, config, Group.config]
    omega
  rw [if_neg Bool.false_ne_true, if_neg lost, after] at nodes
  refine ⟨c', .head started (polled.trans within), history'.trans history, ?_, ?_, ?_, ?_, fun p other => ?_⟩
  · simp [nodes]
  · simp [nodes, RaftNode.persistHardStateLocked]
  · simp [nodes, RaftNode.persistHardStateLocked]
  · simp [nodes, RaftNode.persistHardStateLocked]
  · rw [nodes, Function.update_of_ne other]
    by_cases same : p = m
    · rw [same, voted, others m ne, trial]
    · rw [rest p other same, others p other]

/-- One of the nodes leads and none has a newer term; or none leads, and one with
the best log is in no election and has not led since its last start. -/
inductive Ready (Q : List Bytes) (c : Cluster) : Prop
  | led {n : Bytes} : n ∈ Q → (c.nodes n).node.role = .leader →
      (∀ q ∈ Q, (c.nodes q).node.currentTerm ≤ (c.nodes n).node.currentTerm) → Ready Q c
  | free {n : Bytes} : n ∈ Q → (c.nodes n).election = .idle → c.Awake n →
      (∀ q ∈ Q, (c.nodes q).node.role ≠ .leader) → (∀ q ∈ Q, Ahead (c.nodes n).node (c.nodes q).node) → Ready Q c

/-- A ready majority comes to have a leader that none of it is ahead of in term. -/
theorem Ready.elect (ready : Ready Q c) (reachable : Reachable g c) (quorum : Quorate g Q) :
    ∃ c' n, n ∈ Q ∧ Within g Q c c' ∧ (c'.nodes n).node.role = .leader ∧
      ∀ q ∈ Q, (c'.nodes q).node.currentTerm ≤ (c'.nodes n).node.currentTerm := by
  cases ready with
  | @led n member leads terms => exact ⟨c, n, member, .refl, leads, terms⟩
  | @free n member idle awake follow ahead =>
      obtain ⟨m, top, most⟩ := Finset.exists_max_image Q.toFinset (fun q => (c.nodes q).node.currentTerm)
        ⟨n, List.mem_toFinset.mpr member⟩
      have terms : ∀ q ∈ Q, (c.nodes q).node.currentTerm ≤ (c.nodes m).node.currentTerm :=
        fun q here => most q (List.mem_toFinset.mpr here)
      by_cases behind : (c.nodes n).node.currentTerm < (c.nodes m).node.currentTerm
      · obtain ⟨ready, told, history, idle', follows, term, log, others⟩ :=
          catchTerm quorum reachable member (List.mem_toFinset.mp top) idle awake (follow n member) behind
        have awake' : ready.Awake n := by
          rw [Awake, history]
          exact awake
        obtain ⟨c', won, leads, final⟩ := win (Within.reachable told reachable) quorum member idle' awake'
          (fun q inside => by
            by_cases self : q = n
            · rw [self]
              exact follows
            · rw [others q self]
              exact follow q inside)
          (fun q inside => by
            by_cases self : q = n
            · rw [self]
            · rw [others q self, term]
              exact terms q inside)
          (fun q inside => by
            by_cases self : q = n
            · rw [self]
              exact (ahead n member).log log log
            · rw [others q self]
              exact (ahead q inside).log log rfl)
        exact ⟨c', n, member, told.trans won, leads, final⟩
      · obtain ⟨c', won, leads, final⟩ := win reachable quorum member idle awake follow
          (fun q inside => (terms q inside).trans (Nat.le_of_not_lt behind)) ahead
        exact ⟨c', n, member, won, leads, final⟩

end Cluster
end Dos.Consensus
