import DistributedObjectStorage.Consensus.RaftLog

/-!
# Storage calls that may fail

The handlers of a node again, with the outcome of every storage call as an
argument. No handler looks at an outcome: what it answers is the same whether
or not the state it depends on reached the disk.
-/
namespace Dos.Consensus

/-- The outcomes of the storage calls of one step, by call site. -/
structure StorageOutcomes where
  stepDown : Bool
  grant : Bool
  rewrite : Bool
  append : Bool
  deriving DecidableEq, Repr

def StorageOutcomes.fine : StorageOutcomes := ⟨true, true, true, true⟩

/-- A call that returns an error leaves the files as they were. -/
def DurableState.attempt (d : DurableState) (ok : Bool) (d' : DurableState) : DurableState :=
  if ok then d' else d

/-- The node that a restart brings up from the files. -/
def RaftNode.reopen (n : RaftNode) : RaftNode := .create n.config n.storage

namespace RaftNode.Fallible

def persistHardStateLocked (ok : Bool) (n : RaftNode) : RaftNode :=
  { n with storage := n.storage.attempt ok (n.storage.saveHardState ⟨n.currentTerm, n.votedFor⟩) }

def stepDownIfStaleLocked (ok : Bool) (n : RaftNode) (term : ℕ) : RaftNode :=
  if n.currentTerm < term then
    persistHardStateLocked ok { n with currentTerm := term, votedFor := [], role := .follower }
  else n

def handleRequestVote (io : StorageOutcomes) (n : RaftNode) (req : RequestVoteRequest)
    (leaderless : Bool) : RaftNode × RequestVoteResponse :=
  if req.preVote then
    (n, { term := n.currentTerm
          voteGranted := n.currentTerm ≤ req.term && n.role != .leader && n.upToDate req &&
            leaderless })
  else
    let n := stepDownIfStaleLocked io.stepDown n req.term
    if req.term = n.currentTerm ∧ (n.votedFor = [] ∨ n.votedFor = req.candidateId) ∧
        n.upToDate req then
      let n := persistHardStateLocked io.grant { n with votedFor := req.candidateId }
      (n, { term := n.currentTerm, voteGranted := true })
    else (n, { term := n.currentTerm, voteGranted := false })

def acceptEntries (io : StorageOutcomes) (n : RaftNode) (req : AppendEntriesRequest) : RaftNode :=
  let (log, changed) := appendLoop n.log req.entries
  let n := { n with log := log }
  let n :=
    if changed then { n with storage := n.storage.attempt io.rewrite (n.storage.rewriteLog log) }
    else n
  if n.commitIndex < req.leaderCommit then
    applyCommittedLocked { n with commitIndex := min req.leaderCommit n.lastLogIndexLocked }
  else n

def checkEntries (io : StorageOutcomes) (n : RaftNode) (req : AppendEntriesRequest) :
    RaftNode × AppendEntriesResponse :=
  if n.lastLogIndexLocked < req.prevLogIndex then
    (n, { term := n.currentTerm, success := false, conflictIndex := n.lastLogIndexLocked + 1 })
  else if 0 < req.prevLogIndex ∧ n.termAtLocked req.prevLogIndex ≠ req.prevLogTerm then
    (n, { term := n.currentTerm, success := false, conflictIndex := req.prevLogIndex })
  else (acceptEntries io n req, { term := n.currentTerm, success := true, conflictIndex := 0 })

def handleAppendEntries (io : StorageOutcomes) (n : RaftNode) (req : AppendEntriesRequest) :
    RaftNode × AppendEntriesResponse :=
  if req.term < n.currentTerm then
    (n, { term := n.currentTerm, success := false, conflictIndex := 0 })
  else
    let n := stepDownIfStaleLocked io.stepDown n req.term
    checkEntries io { n with role := .follower, leaderId := req.leaderId } req

def propose (io : StorageOutcomes) (n : RaftNode) (command : Bytes) : RaftNode × StatusOr ℕ :=
  if n.role ≠ .leader then
    (n, .error (.unavailable (text "not leader (leader=" ++ n.leaderId ++ text ")")))
  else
    let entry : LogEntry := ⟨n.currentTerm, n.lastLogIndexLocked + 1, command⟩
    let n :=
      { n with
        log := n.log ++ [entry]
        storage := n.storage.attempt io.append (n.storage.appendEntry entry) }
    (n.advanceCommitLocked, .ok entry.index)

/-- Without failures these are the handlers of `RaftNode`. -/
theorem fine_handlers (n : RaftNode) :
    (∀ req leaderless,
      handleRequestVote .fine n req leaderless = n.handleRequestVote req leaderless) ∧
      (∀ req, handleAppendEntries .fine n req = n.handleAppendEntries req) ∧
      ∀ command, propose .fine n command = n.propose command :=
  ⟨fun _ _ => rfl, fun _ => rfl, fun _ => rfl⟩

/-! ## Votes -/

section Steps
variable (io : StorageOutcomes) (n : RaftNode) (ok : Bool) (term : ℕ)

end Steps

/-! ## Entries -/

theorem applyLoop_storage (fuel : ℕ) (n : RaftNode) : (applyLoop fuel n).storage = n.storage := by
  induction fuel generalizing n with
  | zero => rfl
  | succ fuel ih =>
      rw [applyLoop]
      split
      · exact ih _
      · rfl

theorem advanceCommitLocked_storage (n : RaftNode) : n.advanceCommitLocked.storage = n.storage := by
  unfold advanceCommitLocked
  rcases advanceLoop_cases n.lastLogIndexLocked n with same | ⟨index, _, _, _, _, committed⟩
  · rw [same]
  · rw [committed]
    exact applyLoop_storage _ _

end RaftNode.Fallible

/-- The entries carry the indices after `prev`, as `ReplicateTo` sends them. -/
def Numbered (prev : ℕ) (entries : List LogEntry) : Prop :=
  ∀ k e, entries[k]? = some e → e.index = prev + k + 1

section Loop
variable {log entries : List LogEntry} {prev : ℕ} {e : LogEntry}

theorem Numbered.tail (numbered : Numbered prev (e :: entries)) : Numbered (prev + 1) entries := by
  intro k x found
  have := numbered (k + 1) x (by simpa using found)
  omega

theorem Numbered.head (numbered : Numbered prev (e :: entries)) : e.index = prev + 1 :=
  numbered 0 e rfl

theorem Indexed.numbered (indexed : Indexed log) (prev k : ℕ) :
    Numbered prev ((log.take k).drop prev) := by
  intro i x found
  rw [List.getElem?_drop] at found
  have start : log.take k <+: log := List.take_prefix k log
  have := indexed.shorten start (prev + i) x found
  omega

end Loop

/-! ## Durable before reply -/

namespace RaftNode.Fallible
section Durable
variable (io : StorageOutcomes) (n : RaftNode)

end Durable

/-! A new node of three, the request of a candidate and the first entry. -/
section Sample

def newNode : RaftNode := .create ⟨text "a", [text "b", text "c"]⟩ .empty

def newLeader : RaftNode := { newNode with role := .leader, currentTerm := 1 }

/-- Only the call that the reply depends on fails. -/
def full : StorageOutcomes := ⟨true, false, false, false⟩

end Sample

end RaftNode.Fallible
end Dos.Consensus
