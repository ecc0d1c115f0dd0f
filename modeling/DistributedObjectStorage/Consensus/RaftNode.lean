import Mathlib.Logic.Function.Basic
import DistributedObjectStorage.Consensus.RaftTypes

/-!
# One Raft node

Every definition is one critical section under the node's mutex, or a helper
that runs inside one. Clocks are not modelled: the lease tests that compare
against the last leader contact are boolean arguments of the section.
-/
namespace Dos.Consensus

structure RaftNode where
  config : RaftConfig
  storage : DurableState
  currentTerm : ℕ
  votedFor : Bytes
  log : List LogEntry
  role : Role
  leaderId : Bytes
  commitIndex : ℕ
  lastApplied : ℕ
  nextIndex : Bytes → Option ℕ
  matchIndex : Bytes → Option ℕ
  /-- The entries passed to the apply callback so far, in call order. -/
  applied : List LogEntry

/-- The constructor: durable fields are reloaded, everything else starts over. -/
def RaftNode.create (config : RaftConfig) (storage : DurableState) : RaftNode where
  config := config
  storage := storage
  currentTerm := storage.hardState.currentTerm
  votedFor := storage.hardState.votedFor
  log := storage.log
  role := .follower
  leaderId := []
  commitIndex := 0
  lastApplied := 0
  nextIndex := fun _ => none
  matchIndex := fun _ => none
  applied := []

def lastLogIndex (log : List LogEntry) : ℕ :=
  match log.getLast? with
  | none => 0
  | some e => e.index

def lastLogTerm (log : List LogEntry) : ℕ :=
  match log.getLast? with
  | none => 0
  | some e => e.term

/-- Zero for index zero and beyond the end. -/
def termAt (log : List LogEntry) (index : ℕ) : ℕ :=
  if index = 0 ∨ log.length < index then 0 else (log.getD (index - 1) default).term

namespace RaftNode

def lastLogIndexLocked (n : RaftNode) : ℕ := lastLogIndex n.log
def lastLogTermLocked (n : RaftNode) : ℕ := lastLogTerm n.log
def termAtLocked (n : RaftNode) (index : ℕ) : ℕ := termAt n.log index
def majorityLocked (n : RaftNode) : ℕ := (n.config.peers.length + 1) / 2 + 1

def persistHardStateLocked (n : RaftNode) : RaftNode :=
  { n with storage := n.storage.saveHardState ⟨n.currentTerm, n.votedFor⟩ }

def stepDownIfStaleLocked (n : RaftNode) (term : ℕ) : RaftNode :=
  if n.currentTerm < term then
    persistHardStateLocked { n with currentTerm := term, votedFor := [], role := .follower }
  else n

/-- The paper's voting order, against the candidate's last index and term. -/
def upToDate (n : RaftNode) (req : RequestVoteRequest) : Bool :=
  n.lastLogTermLocked < req.lastLogTerm ||
    (req.lastLogTerm == n.lastLogTermLocked && n.lastLogIndexLocked ≤ req.lastLogIndex)

/-- `leaderless` is the outcome of the pre-vote lease test. -/
def handleRequestVote (n : RaftNode) (req : RequestVoteRequest) (leaderless : Bool) :
    RaftNode × RequestVoteResponse :=
  if req.preVote then
    (n, { term := n.currentTerm
          voteGranted := n.currentTerm ≤ req.term && n.role != .leader && n.upToDate req &&
            leaderless })
  else
    let n := n.stepDownIfStaleLocked req.term
    if req.term = n.currentTerm ∧ (n.votedFor = [] ∨ n.votedFor = req.candidateId) ∧
        n.upToDate req then
      let n := persistHardStateLocked { n with votedFor := req.candidateId }
      (n, { term := n.currentTerm, voteGranted := true })
    else (n, { term := n.currentTerm, voteGranted := false })

/-- The loop body of the append loop; the flag is `changed`. -/
def appendOne (acc : List LogEntry × Bool) (e : LogEntry) : List LogEntry × Bool :=
  if e.index ≤ lastLogIndex acc.1 then
    if termAt acc.1 e.index = e.term then acc
    else (acc.1.take (e.index - 1) ++ [e], true)
  else (acc.1 ++ [e], true)

def appendLoop (log : List LogEntry) (entries : List LogEntry) : List LogEntry × Bool :=
  entries.foldl appendOne (log, false)

/-- The loop of `ApplyCommittedLocked`, with its iteration count as fuel. -/
def applyLoop : ℕ → RaftNode → RaftNode
  | 0, n => n
  | fuel + 1, n =>
      if n.lastApplied < n.commitIndex then
        applyLoop fuel
          { n with
            lastApplied := n.lastApplied + 1
            applied := n.applied ++ [n.log.getD n.lastApplied default] }
      else n

def applyCommittedLocked (n : RaftNode) : RaftNode := applyLoop (n.commitIndex - n.lastApplied) n

/-- This leader and the peers known to hold the log up to `index`. -/
def replicaCount (n : RaftNode) (index : ℕ) : ℕ :=
  1 + n.config.peers.countP fun peer => (n.matchIndex peer).any (index ≤ ·)

/-- The downward search of `AdvanceCommitLocked`, started at the last index. -/
def advanceLoop : ℕ → RaftNode → RaftNode
  | 0, n => n
  | index + 1, n =>
      if n.commitIndex < index + 1 then
        if n.termAtLocked (index + 1) ≠ n.currentTerm then advanceLoop index n
        else if n.majorityLocked ≤ n.replicaCount (index + 1) then
          applyCommittedLocked { n with commitIndex := index + 1 }
        else advanceLoop index n
      else n

def advanceCommitLocked (n : RaftNode) : RaftNode := advanceLoop n.lastLogIndexLocked n

/-- The part of `HandleAppendEntries` after the log-consistency check. -/
def acceptEntries (n : RaftNode) (req : AppendEntriesRequest) : RaftNode :=
  let (log, changed) := appendLoop n.log req.entries
  let n := { n with log := log }
  let n := if changed then { n with storage := n.storage.rewriteLog log } else n
  if n.commitIndex < req.leaderCommit then
    applyCommittedLocked { n with commitIndex := min req.leaderCommit n.lastLogIndexLocked }
  else n

/-- `HandleAppendEntries` from the log-consistency check on. -/
def checkEntries (n : RaftNode) (req : AppendEntriesRequest) : RaftNode × AppendEntriesResponse :=
  if n.lastLogIndexLocked < req.prevLogIndex then
    (n, { term := n.currentTerm, success := false, conflictIndex := n.lastLogIndexLocked + 1 })
  else if 0 < req.prevLogIndex ∧ n.termAtLocked req.prevLogIndex ≠ req.prevLogTerm then
    (n, { term := n.currentTerm, success := false, conflictIndex := req.prevLogIndex })
  else (n.acceptEntries req, { term := n.currentTerm, success := true, conflictIndex := 0 })

def handleAppendEntries (n : RaftNode) (req : AppendEntriesRequest) :
    RaftNode × AppendEntriesResponse :=
  if req.term < n.currentTerm then
    (n, { term := n.currentTerm, success := false, conflictIndex := 0 })
  else
    let n := n.stepDownIfStaleLocked req.term
    checkEntries { n with role := .follower, leaderId := req.leaderId } req

def propose (n : RaftNode) (command : Bytes) : RaftNode × StatusOr ℕ :=
  if n.role ≠ .leader then
    (n, .error (.unavailable (text "not leader (leader=" ++ n.leaderId ++ text ")")))
  else
    let entry : LogEntry := ⟨n.currentTerm, n.lastLogIndexLocked + 1, command⟩
    let n := { n with log := n.log ++ [entry], storage := n.storage.appendEntry entry }
    (n.advanceCommitLocked, .ok entry.index)

/-- One pass of `WaitApplied` under the lock: `none` means that it blocks on
the condition variable, where the deadline may also end it. -/
def waitApplied (n : RaftNode) (index term : ℕ) : Option Status :=
  if n.lastApplied < index then
    if term < n.currentTerm then
      some (.unavailable (text "term advanced; proposal may be lost"))
    else if index ≤ n.lastLogIndexLocked ∧ n.termAtLocked index ≠ term then
      some (.unavailable (text "log entry overwritten before commit"))
    else none
  else if n.termAtLocked index ≠ term then
    some (.unavailable (text "log entry overwritten before apply"))
  else some .success

def becomeLeaderLocked (n : RaftNode) : RaftNode :=
  let next := n.lastLogIndexLocked + 1
  { n with
    role := .leader
    leaderId := n.config.id
    nextIndex := fun peer => if peer ∈ n.config.peers then some next else n.nextIndex peer
    matchIndex := fun peer => if peer ∈ n.config.peers then some 0 else n.matchIndex peer }

/-- The request of the send half of `ReplicateTo`; `none` when the node no
longer leads the term the replication loop had read. -/
def replicateRequest (n : RaftNode) (peer : Bytes) (term : ℕ) : Option AppendEntriesRequest :=
  if n.role ≠ .leader ∨ n.currentTerm ≠ term then none
  else
    let next := (n.nextIndex peer).getD (n.lastLogIndexLocked + 1)
    let prev := next - 1
    some
      { term := term
        leaderId := n.config.id
        prevLogIndex := prev
        prevLogTerm := n.termAtLocked prev
        entries := (n.log.take n.lastLogIndexLocked).drop prev
        leaderCommit := n.commitIndex }

/-- The reply half of `ReplicateTo`, run for a request made in `req.term`. -/
def replicateReply (n : RaftNode) (peer : Bytes) (req : AppendEntriesRequest)
    (resp : AppendEntriesResponse) : RaftNode :=
  if n.currentTerm ≠ req.term ∨ n.role ≠ .leader then n
  else if n.currentTerm < resp.term then n.stepDownIfStaleLocked resp.term
  else if resp.success then
    let matched := max ((n.matchIndex peer).getD 0) (req.prevLogIndex + req.entries.length)
    advanceCommitLocked
      { n with
        matchIndex := Function.update n.matchIndex peer (some matched)
        nextIndex := Function.update n.nextIndex peer (some (matched + 1)) }
  else
    let next := if resp.conflictIndex = 0 then 1 else resp.conflictIndex
    { n with nextIndex := Function.update n.nextIndex peer (some next) }

/-- The vote request of either phase of an election. -/
def voteRequest (n : RaftNode) (term : ℕ) (preVote : Bool) : RequestVoteRequest where
  term := term
  candidateId := n.config.id
  lastLogIndex := n.lastLogIndexLocked
  lastLogTerm := n.lastLogTermLocked
  preVote := preVote

/-- The state change of phase two of `StartElection`. -/
def becomeCandidate (n : RaftNode) : RaftNode :=
  persistHardStateLocked
    { n with
      currentTerm := n.currentTerm + 1
      role := .candidate
      votedFor := n.config.id
      leaderId := [] }

/-- What a request thread of `WinVoteRound` does with its reply; the flag says
whether the reply was counted as a vote. -/
def countVote (n : RaftNode) (req : RequestVoteRequest) (resp : RequestVoteResponse) :
    RaftNode × Bool :=
  if n.currentTerm < resp.term then (n.stepDownIfStaleLocked resp.term, false)
  else if !req.preVote && (n.role != .candidate || n.currentTerm != req.term) then (n, false)
  else (n, resp.voteGranted)

end RaftNode
end Dos.Consensus
