import DistributedObjectStorage.Consensus.RaftFaults
import DistributedObjectStorage.Consensus.RaftSchedule
import DistributedObjectStorage.Consensus.RaftStorageDurability

/-!
# The storage calls of a critical section

A section writes to its storage before it answers, in a fixed order. What it
leaves in ideal storage is what its calls do there one after another, so a
process that dies inside the section has made some first part of them.
-/
namespace Dos.Consensus

inductive StorageCall where
  | saveHardState (hs : HardState)
  | appendEntry (e : LogEntry)
  | rewriteLog (entries : List LogEntry)
  deriving DecidableEq, Repr

def DurableState.perform (d : DurableState) : StorageCall → DurableState
  | .saveHardState hs => d.saveHardState hs
  | .appendEntry e => d.appendEntry e
  | .rewriteLog entries => d.rewriteLog entries

def RaftDir.perform (dir : RaftDir) : StorageCall → RaftDir
  | .saveHardState hs => dir.saveHardState hs
  | .appendEntry e => dir.appendEntry e
  | .rewriteLog entries => dir.rewriteLog entries

/-- The sections that write. -/
inductive Section where
  | countVote (req : RequestVoteRequest) (resp : RequestVoteResponse)
  | becomeCandidate
  | handleRequestVote (req : RequestVoteRequest) (leaderless : Bool)
  | handleAppendEntries (req : AppendEntriesRequest)
  | propose (command : Bytes)
  | replicateReply (peer : Bytes) (req : AppendEntriesRequest) (resp : AppendEntriesResponse)
  deriving DecidableEq, Repr

def Section.run (r : RaftNode) : Section → RaftNode
  | .countVote req resp => (r.countVote req resp).1
  | .becomeCandidate => r.becomeCandidate
  | .handleRequestVote req leaderless => (r.handleRequestVote req leaderless).1
  | .handleAppendEntries req => (r.handleAppendEntries req).1
  | .propose command => (r.propose command).1
  | .replicateReply peer req resp => r.replicateReply peer req resp

namespace RaftNode

def stepDownCalls (r : RaftNode) (term : ℕ) : List StorageCall :=
  if r.currentTerm < term then [.saveHardState ⟨term, []⟩] else []

/-- The vote is saved a second time, after the term. -/
def grantCalls (r : RaftNode) (req : RequestVoteRequest) : List StorageCall :=
  if req.term = r.currentTerm ∧ (r.votedFor = [] ∨ r.votedFor = req.candidateId) ∧ r.upToDate req then
    [.saveHardState ⟨r.currentTerm, req.candidateId⟩]
  else []

def acceptCalls (r : RaftNode) (req : AppendEntriesRequest) : List StorageCall :=
  if r.lastLogIndexLocked < req.prevLogIndex then []
  else if 0 < req.prevLogIndex ∧ r.termAtLocked req.prevLogIndex ≠ req.prevLogTerm then []
  else if (appendLoop r.log req.entries).2 then [.rewriteLog (appendLoop r.log req.entries).1] else []

end RaftNode

/-- The storage calls of a section, in the order in which it makes them. -/
def Section.calls (r : RaftNode) : Section → List StorageCall
  | .countVote _ resp => r.stepDownCalls resp.term
  | .becomeCandidate => [.saveHardState ⟨r.currentTerm + 1, r.config.id⟩]
  | .handleRequestVote req _ =>
      if req.preVote then []
      else r.stepDownCalls req.term ++ (r.stepDownIfStaleLocked req.term).grantCalls req
  | .handleAppendEntries req =>
      if req.term < r.currentTerm then []
      else r.stepDownCalls req.term ++ (r.stepDownIfStaleLocked req.term).acceptCalls req
  | .propose command =>
      if r.role ≠ .leader then [] else [.appendEntry ⟨r.currentTerm, r.lastLogIndexLocked + 1, command⟩]
  | .replicateReply _ req resp =>
      if r.currentTerm ≠ req.term ∨ r.role ≠ .leader then [] else r.stepDownCalls resp.term

/-! ## The calls are what happens to the storage -/

section Storage
variable {r : RaftNode}

theorem stepDown_storage (r : RaftNode) (term : ℕ) :
    (r.stepDownIfStaleLocked term).storage = (r.stepDownCalls term).foldl .perform r.storage := by
  unfold RaftNode.stepDownIfStaleLocked RaftNode.stepDownCalls
  split <;> rfl

theorem acceptEntries_storage (r : RaftNode) (req : AppendEntriesRequest) :
    (r.acceptEntries req).storage =
      if (RaftNode.appendLoop r.log req.entries).2 then
        r.storage.rewriteLog (RaftNode.appendLoop r.log req.entries).1
      else r.storage := by
  have settled (m : RaftNode) :
      (if m.commitIndex < req.leaderCommit then
        { m with commitIndex := min req.leaderCommit m.lastLogIndexLocked }.applyCommittedLocked
      else m).storage = m.storage := by
    split
    · exact RaftNode.Fallible.applyLoop_storage _ _
    · rfl
  simp only [RaftNode.acceptEntries, settled]
  split <;> rfl

theorem checkEntries_storage (r : RaftNode) (req : AppendEntriesRequest) :
    (r.checkEntries req).1.storage = (r.acceptCalls req).foldl .perform r.storage := by
  unfold RaftNode.checkEntries RaftNode.acceptCalls
  split
  · rfl
  · split
    · rfl
    · rw [acceptEntries_storage]
      split <;> rfl

theorem Section.storage (r : RaftNode) (sec : Section) :
    (sec.run r).storage = (sec.calls r).foldl .perform r.storage := by
  cases sec with
  | countVote req resp =>
      simp only [run, calls, ← stepDown_storage, RaftNode.countVote]
      split
      · rfl
      · next older =>
          rw [RaftNode.stepDownIfStaleLocked, if_neg older]
          split <;> rfl
  | becomeCandidate => rfl
  | handleRequestVote req leaderless =>
      simp only [run, calls, RaftNode.handleRequestVote]
      split
      · rfl
      · rw [List.foldl_append, ← stepDown_storage]
        unfold RaftNode.grantCalls
        split <;> rfl
  | handleAppendEntries req =>
      simp only [run, calls, RaftNode.handleAppendEntries]
      split
      · rfl
      · rw [List.foldl_append, ← stepDown_storage]
        exact checkEntries_storage
          { r.stepDownIfStaleLocked req.term with role := .follower, leaderId := req.leaderId } req
  | propose command =>
      simp only [run, calls, RaftNode.propose]
      split
      · rfl
      · exact RaftNode.Fallible.advanceCommitLocked_storage _
  | replicateReply peer req resp =>
      simp only [run, calls, RaftNode.replicateReply]
      split
      · rfl
      · rw [← stepDown_storage]
        split
        · rfl
        · next older =>
            rw [RaftNode.stepDownIfStaleLocked, if_neg older]
            split
            · exact RaftNode.Fallible.advanceCommitLocked_storage _
            · rfl

/-- Wherever a section is cut off between two calls: nothing of it is stored, or
its term alone, or all of it. -/
theorem Section.storage_cut (r : RaftNode) (sec : Section) (k : ℕ) :
    ((sec.calls r).take k).foldl .perform r.storage = r.storage ∨
      (∃ term, ((sec.calls r).take k).foldl .perform r.storage = (r.stepDownIfStaleLocked term).storage) ∨
      ((sec.calls r).take k).foldl .perform r.storage = (sec.run r).storage := by
  -- the first call of two is the one that saves the term
  have cut (term : ℕ) (rest : List StorageCall) (few : rest.length ≤ 1)
      (whole : sec.calls r = r.stepDownCalls term ++ rest) :
      ((sec.calls r).take k).foldl .perform r.storage = r.storage ∨
        (∃ term, ((sec.calls r).take k).foldl .perform r.storage = (r.stepDownIfStaleLocked term).storage) ∨
        ((sec.calls r).take k).foldl .perform r.storage = (sec.run r).storage := by
    by_cases all : (sec.calls r).length ≤ k
    · rw [List.take_of_length_le all, ← Section.storage]
      exact .inr (.inr rfl)
    · cases k with
      | zero => exact .inl rfl
      | succ k =>
          have first : (sec.calls r).take (k + 1) = r.stepDownCalls term := by
            rw [whole] at all ⊢
            unfold RaftNode.stepDownCalls at all ⊢
            split
            · next stale =>
                rw [if_pos stale] at all
                simp only [List.length_append, List.length_cons, List.length_nil] at all
                obtain rfl : k = 0 := by omega
                rfl
            · next current =>
                rw [if_neg current] at all
                simp only [List.nil_append] at all
                omega
          rw [first, ← stepDown_storage]
          exact .inr (.inl ⟨term, rfl⟩)
  have none (calls : List StorageCall) (few : calls.length ≤ 1) (whole : sec.calls r = calls) :=
    cut r.currentTerm calls few (by rw [RaftNode.stepDownCalls, if_neg (lt_irrefl _)]; exact whole)
  cases sec with
  | countVote req resp => exact cut resp.term [] (Nat.zero_le 1) (List.append_nil _).symm
  | becomeCandidate => exact none [_] (Nat.le_refl 1) rfl
  | handleRequestVote req leaderless =>
      by_cases trial : req.preVote = true
      · exact none [] (Nat.zero_le 1) (if_pos trial)
      · refine cut req.term _ ?_ (if_neg trial)
        unfold RaftNode.grantCalls
        split <;> simp
  | handleAppendEntries req =>
      by_cases stale : req.term < r.currentTerm
      · exact none [] (Nat.zero_le 1) (if_pos stale)
      · refine cut req.term _ ?_ (if_neg stale)
        unfold RaftNode.acceptCalls
        split
        · simp
        · split
          · simp
          · split <;> simp
  | propose command =>
      refine none (calls r (.propose command)) ?_ rfl
      rw [calls]
      split <;> simp
  | replicateReply peer req resp =>
      by_cases gone : r.currentTerm ≠ req.term ∨ r.role ≠ .leader
      · exact none [] (Nat.zero_le 1) (if_pos gone)
      · refine cut resp.term [] (Nat.zero_le 1) ?_
        rw [List.append_nil]
        exact if_neg gone

end Storage
end Dos.Consensus
