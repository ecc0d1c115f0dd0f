import DistributedObjectStorage.Consensus.RaftHistory

/-!
# Bringing a follower up to date

A leader and one peer exchange rounds of replication with nothing lost. Either
hint of a refusal lies below the index the leader tried, and at index one there
is nothing left to refuse.
-/
namespace Dos.Consensus
open Transition

namespace RaftNode

theorem applyLoop_indices (fuel : ℕ) (n : RaftNode) :
    (applyLoop fuel n).nextIndex = n.nextIndex ∧ (applyLoop fuel n).matchIndex = n.matchIndex := by
  induction fuel generalizing n with
  | zero => exact ⟨rfl, rfl⟩
  | succ fuel ih =>
      unfold applyLoop
      split
      · exact ih _
      · exact ⟨rfl, rfl⟩

theorem advanceCommitLocked_indices (n : RaftNode) :
    n.advanceCommitLocked.nextIndex = n.nextIndex ∧
      n.advanceCommitLocked.matchIndex = n.matchIndex := by
  unfold advanceCommitLocked
  rcases advanceLoop_cases n.lastLogIndexLocked n with stay | ⟨i, -, -, -, -, moved⟩
  · rw [stay]
    exact ⟨rfl, rfl⟩
  · rw [moved]
    exact applyLoop_indices _ { n with commitIndex := i }

/-- The rest of `HandleAppendEntries` after the entries leaves the log alone. -/
theorem acceptEntries_log (n : RaftNode) (req : AppendEntriesRequest) :
    (n.acceptEntries req).log = (appendLoop n.log req.entries).1 := by
  obtain ⟨storage, outcome⟩ := acceptEntries_cases n req
  rw [outcome]
  dsimp only
  split
  · exact (applyLoop_frame _ _).2.2.2
  · rfl

/-- A request that is not stale is checked in its own term. -/
theorem handleAppendEntries_current {n : RaftNode} (req : AppendEntriesRequest)
    (current : n.currentTerm ≤ req.term) :
    ∃ m : RaftNode, m.log = n.log ∧ m.currentTerm = req.term ∧
      n.handleAppendEntries req = m.checkEntries req := by
  have fresh : ¬req.term < n.currentTerm := Nat.not_lt.mpr current
  refine ⟨{ n.stepDownIfStaleLocked req.term with role := .follower, leaderId := req.leaderId },
    ?_, stepDown_term fresh, ?_⟩
  · unfold stepDownIfStaleLocked
    split <;> rfl
  · rw [handleAppendEntries, if_neg fresh]

end RaftNode

/-- A leader and one of its peers. -/
structure Replication where
  leader : RaftNode
  follower : RaftNode

namespace Replication

/-- A round of `ReplicateTo` with nothing lost: the request, the peer's handler
and the reply. The flag is the peer's verdict. -/
def round (peer : Bytes) (s : Replication) : Replication × Bool :=
  match s.leader.replicateRequest peer s.leader.currentTerm with
  | none => (s, false)
  | some req =>
      let (follower, resp) := s.follower.handleAppendEntries req
      (⟨s.leader.replicateReply peer req resp, follower⟩, resp.success)

/-- `next_index_` of the peer, as `ReplicateTo` reads it. -/
def next (peer : Bytes) (s : Replication) : ℕ :=
  (s.leader.nextIndex peer).getD (s.leader.lastLogIndexLocked + 1)

/-- The peer's log may miss entries or hold others, but the two logs match. -/
structure Behind (peer : Bytes) (L : List LogEntry) (s : Replication) : Prop where
  leads : s.leader.role = .leader
  log : s.leader.log = L
  indexed : Indexed L
  follower : Indexed s.follower.log
  matching : Matching s.follower.log L
  term : s.follower.currentTerm ≤ s.leader.currentTerm
  first : 1 ≤ s.next peer
  last : s.next peer ≤ L.length + 1
  matched : (s.leader.matchIndex peer).getD 0 ≤ L.length

structure CaughtUp (peer : Bytes) (L : List LogEntry) (s : Replication) : Prop where
  holds : L <+: s.follower.log
  matchIndex : s.leader.matchIndex peer = some L.length
  nextIndex : s.leader.nextIndex peer = some (L.length + 1)

variable {peer : Bytes} {L : List LogEntry} {s : Replication}

def request (peer : Bytes) (s : Replication) : AppendEntriesRequest where
  term := s.leader.currentTerm
  leaderId := s.leader.config.id
  prevLogIndex := s.next peer - 1
  prevLogTerm := termAt s.leader.log (s.next peer - 1)
  entries := s.leader.log.drop (s.next peer - 1)
  leaderCommit := s.leader.commitIndex

section Rounds
variable (behind : Behind peer L s)
include behind

theorem Behind.replicateRequest_eq : s.leader.replicateRequest peer s.leader.currentTerm = some (s.request peer) := by
  have whole : s.leader.log.take s.leader.lastLogIndexLocked = s.leader.log := by
    rw [RaftNode.lastLogIndexLocked, lastLogIndex_eq (behind.log ▸ behind.indexed), List.take_length]
  unfold RaftNode.replicateRequest
  rw [if_neg (by simp [behind.leads])]
  simp only [whole]
  rfl

/-- A reply in the leader's own term. -/
theorem Behind.replicateReply_eq {resp : AppendEntriesResponse}
    (term : resp.term = s.leader.currentTerm) :
    s.leader.replicateReply peer (s.request peer) resp =
      if resp.success then
        let matched := max ((s.leader.matchIndex peer).getD 0)
          ((s.request peer).prevLogIndex + (s.request peer).entries.length)
        RaftNode.advanceCommitLocked
          { s.leader with
            matchIndex := Function.update s.leader.matchIndex peer (some matched)
            nextIndex := Function.update s.leader.nextIndex peer (some (matched + 1)) }
      else
        let next := if resp.conflictIndex = 0 then 1 else resp.conflictIndex
        { s.leader with nextIndex := Function.update s.leader.nextIndex peer (some next) } := by
  unfold RaftNode.replicateReply
  rw [if_neg (by simp [request, behind.leads]), if_neg (by omega)]

/-- Entries from the first index on which the logs agreed make the peer's log
start with the leader's. -/
theorem Behind.accepted {m : RaftNode} (log : m.log = s.follower.log)
    (reached : (s.request peer).prevLogIndex ≤ s.follower.log.length)
    (check : ¬(0 < (s.request peer).prevLogIndex ∧
      m.termAtLocked (s.request peer).prevLogIndex ≠ (s.request peer).prevLogTerm)) :
    L <+: (m.acceptEntries (s.request peer)).log := by
  obtain ⟨k, prev⟩ : ∃ k, s.next peer - 1 = k := ⟨_, rfl⟩
  simp only [RaftNode.termAtLocked, request, log, behind.log, prev] at reached check
  have inside : k ≤ L.length := by
    have := behind.last
    omega
  have start : L.take k <+: s.follower.log :=
    check_start behind.matching (List.prefix_refl L) inside reached check
  have splice := appendLoop_splice behind.follower behind.indexed behind.matching start
    (Nat.add_sub_of_le inside).le
  have whole : (L.drop k).take (L.length - k) = L.drop k :=
    List.take_of_length_le (List.length_drop.le)
  have holds := splice.holds
  rw [Nat.add_sub_of_le inside, List.take_length, whole] at holds
  rw [RaftNode.acceptEntries_log, log]
  simpa only [request, behind.log, prev] using holds

/-- What a round can do. A refusal leaves both logs and sends the leader back; after
an acceptance the peer holds the leader's log and is counted for it. -/
theorem Behind.round_cases :
    (∃ (c : ℕ) (m : RaftNode), 1 ≤ c ∧ c < s.next peer ∧ m.log = s.follower.log ∧
      m.currentTerm = s.leader.currentTerm ∧ s.round peer =
        (⟨{ s.leader with nextIndex := Function.update s.leader.nextIndex peer (some c) }, m⟩, false)) ∨
    ∃ m : RaftNode, m.currentTerm = s.leader.currentTerm ∧ L <+: (m.acceptEntries (s.request peer)).log ∧
      s.round peer = (⟨RaftNode.advanceCommitLocked
        { s.leader with
          matchIndex := Function.update s.leader.matchIndex peer (some L.length)
          nextIndex := Function.update s.leader.nextIndex peer (some (L.length + 1)) },
        m.acceptEntries (s.request peer)⟩, true) := by
  obtain ⟨m, log, term, handled⟩ :=
    RaftNode.handleAppendEntries_current (s.request peer) behind.term
  have outcome : s.round peer =
      (⟨s.leader.replicateReply peer (s.request peer) (m.checkEntries (s.request peer)).2,
        (m.checkEntries (s.request peer)).1⟩, (m.checkEntries (s.request peer)).2.success) := by
    simp only [round, behind.replicateRequest_eq, handled]
  have length : m.lastLogIndexLocked = s.follower.log.length := by
    rw [RaftNode.lastLogIndexLocked, log, lastLogIndex_eq behind.follower]
  have first := behind.first
  rw [outcome]
  unfold RaftNode.checkEntries
  by_cases short : m.lastLogIndexLocked < (s.request peer).prevLogIndex
  · -- the peer's log ends below the index that the leader tried
    rw [if_pos short]
    refine .inl ⟨m.lastLogIndexLocked + 1, m, by omega, ?_, log, term, ?_⟩
    · simp only [request] at short
      omega
    · rw [behind.replicateReply_eq term]
      rfl
  rw [if_neg short]
  by_cases differs : 0 < (s.request peer).prevLogIndex ∧
      m.termAtLocked (s.request peer).prevLogIndex ≠ (s.request peer).prevLogTerm
  · -- it holds an entry of another term there
    rw [if_pos differs]
    refine .inl ⟨(s.request peer).prevLogIndex, m, differs.1, ?_, log, term, ?_⟩
    · simp only [request]
      omega
    · rw [behind.replicateReply_eq term]
      simp only [Bool.false_eq_true, if_false, if_neg (Nat.pos_iff_ne_zero.mp differs.1)]
  rw [if_neg differs]
  have sent : (s.request peer).prevLogIndex + (s.request peer).entries.length = L.length := by
    have last := behind.last
    simp only [request, behind.log, List.length_drop]
    omega
  have all : max ((s.leader.matchIndex peer).getD 0) L.length = L.length :=
    Nat.max_eq_right behind.matched
  refine .inr ⟨m, term, behind.accepted log (by omega) differs, ?_⟩
  rw [behind.replicateReply_eq term, if_pos rfl, sent, all]

theorem Behind.fails (failed : (s.round peer).2 = false) :
    Behind peer L (s.round peer).1 ∧ (s.round peer).1.next peer < s.next peer := by
  rcases behind.round_cases with ⟨c, m, first, lower, log, term, outcome⟩ | ⟨m, -, -, outcome⟩
  · have back : (s.round peer).1.next peer = c := by
      rw [outcome]
      simp [next]
    rw [back]
    refine ⟨?_, lower⟩
    have last := behind.last
    constructor
    · rw [outcome]
      exact behind.leads
    · rw [outcome]
      exact behind.log
    · exact behind.indexed
    · rw [outcome]
      exact log ▸ behind.follower
    · rw [outcome]
      exact log ▸ behind.matching
    · rw [outcome]
      exact term.le
    · rw [back]
      exact first
    · rw [back]
      omega
    · rw [outcome]
      exact behind.matched
  · rw [outcome] at failed
    cases failed

theorem Behind.succeeds (ok : (s.round peer).2 = true) :
    CaughtUp peer L (s.round peer).1 := by
  rcases behind.round_cases with ⟨c, m, -, -, -, -, outcome⟩ | ⟨m, -, holds, outcome⟩
  · rw [outcome] at ok
    cases ok
  · rw [outcome]
    refine ⟨holds, ?_, ?_⟩
    · exact (congrFun (RaftNode.advanceCommitLocked_indices _).2 peer).trans (Function.update_self ..)
    · exact (congrFun (RaftNode.advanceCommitLocked_indices _).1 peer).trans (Function.update_self ..)

end Rounds

/-- Every refused round lowers `next_index_`, a round is accepted after at most
`next_index_` of them, and then the peer holds the leader's log. -/
theorem catchUp_converges (behind : Behind peer L s) :
    ∃ k < s.next peer,
      (∀ i < k, ((attempts (round peer) i s).round peer).2 = false ∧
        (attempts (round peer) (i + 1) s).next peer < (attempts (round peer) i s).next peer) ∧
      ((attempts (round peer) k s).round peer).2 = true ∧
      CaughtUp peer L (attempts (round peer) (k + 1) s) := by
  apply attempts_succeed (next peer) _ _ _ behind
  · intro t later failed
    exact later.fails failed
  · intro t later ok
    exact later.succeeds ok
  · intro t later
    exact later.first

/-! A peer that misses an entry and holds one that a deposed leader left. -/
section Sample

def leaderLog : List LogEntry := [⟨1, 1, text "a"⟩, ⟨1, 2, text "b"⟩, ⟨3, 3, text "c"⟩]

def strayLog : List LogEntry := [⟨1, 1, text "a"⟩, ⟨2, 2, text "x"⟩]

def stray : Replication where
  leader :=
    { RaftNode.create ⟨alpha, [beta, gamma]⟩ ⟨⟨3, alpha⟩, leaderLog⟩ with
      role := .leader, nextIndex := fun _ => some 4, matchIndex := fun _ => some 0 }
  follower := RaftNode.create ⟨beta, [alpha, gamma]⟩ ⟨⟨2, []⟩, strayLog⟩

theorem stray_behind : Behind beta leaderLog stray where
  leads := rfl
  log := rfl
  indexed := ((Indexed.nil.grow rfl).grow rfl).grow rfl
  follower := (Indexed.nil.grow rfl).grow rfl
  matching := by
    intro j e f here there same
    rcases j with _ | _ | j
    · rfl
    · cases here
      cases there
      cases same
    · cases here
  term := by decide
  first := by decide
  last := by decide
  matched := by decide

end Sample

theorem catchUp_converges_stray :
    ∃ k < 4,
      (∀ i < k, ((attempts (round beta) i stray).round beta).2 = false ∧
        (attempts (round beta) (i + 1) stray).next beta < (attempts (round beta) i stray).next beta) ∧
      ((attempts (round beta) k stray).round beta).2 = true ∧
      CaughtUp beta leaderLog (attempts (round beta) (k + 1) stray) :=
  catchUp_converges stray_behind

end Replication

/-- In a group the three steps of an exchange that nothing interrupts are one
round. -/
theorem Cluster.exec_ship (g : Group) (c : Cluster) {n peer : Bytes} (member : n ∈ g.members)
    (isPeer : peer ∈ g.peers n) (leads : (c.nodes n).node.role = .leader)
    (idle : (c.nodes n).sending peer = none) :
    let after := (ship n peer (c.nodes n).node.currentTerm).foldl (exec g) c
    let rounded := (Replication.round peer ⟨(c.nodes n).node, (c.nodes peer).node⟩).1
    (after.nodes n).node = rounded.leader ∧ (after.nodes peer).node = rounded.follower ∧
      (after.nodes n).sending peer = none := by
  intro after rounded
  have other : peer ≠ n := ((g.mem_peers n member peer).mp isPeer).2
  obtain ⟨req, sent⟩ : ∃ req, (c.nodes n).node.replicateRequest peer (c.nodes n).node.currentTerm =
      some req := by
    rw [RaftNode.replicateRequest, if_neg (by simp [leads])]
    exact ⟨_, rfl⟩
  simp [after, rounded, ship, exec, replicate, deliverAppend, acceptAppend, receiveAppend, setNode,
    setProcess, Replication.round, sent, member, isPeer, idle, other, other.symm]

end Dos.Consensus
