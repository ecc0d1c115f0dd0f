import DistributedObjectStorage.Common.Status

/-! Data of the consensus layer: log entries, durable state and peer RPCs. -/
namespace Dos.Consensus

inductive Role where
  | follower | candidate | leader
  deriving DecidableEq, Repr

/-- One replicated entry. The command is opaque to consensus. -/
structure LogEntry where
  term : ℕ
  index : ℕ
  command : Bytes
  deriving DecidableEq, Repr, Inhabited

/-- An empty `votedFor` means that no vote was cast in the term. -/
structure HardState where
  currentTerm : ℕ
  votedFor : Bytes
  deriving DecidableEq, Repr

structure RequestVoteRequest where
  term : ℕ
  candidateId : Bytes
  lastLogIndex : ℕ
  lastLogTerm : ℕ
  preVote : Bool
  deriving DecidableEq, Repr

structure RequestVoteResponse where
  term : ℕ
  voteGranted : Bool
  deriving DecidableEq, Repr

structure AppendEntriesRequest where
  term : ℕ
  leaderId : Bytes
  prevLogIndex : ℕ
  prevLogTerm : ℕ
  entries : List LogEntry
  leaderCommit : ℕ
  deriving DecidableEq, Repr

structure AppendEntriesResponse where
  term : ℕ
  success : Bool
  conflictIndex : ℕ
  deriving DecidableEq, Repr

structure RaftConfig where
  id : Bytes
  peers : List Bytes
  deriving DecidableEq, Repr

/-- Ideal durable storage: each save is atomic and reloads as written. The file
format behind it is modelled separately. -/
structure DurableState where
  hardState : HardState
  log : List LogEntry
  deriving DecidableEq, Repr

def DurableState.empty : DurableState := ⟨⟨0, []⟩, []⟩

def DurableState.saveHardState (d : DurableState) (hs : HardState) : DurableState :=
  { d with hardState := hs }

def DurableState.appendEntry (d : DurableState) (e : LogEntry) : DurableState :=
  { d with log := d.log ++ [e] }

def DurableState.rewriteLog (d : DurableState) (log : List LogEntry) : DurableState :=
  { d with log := log }

end Dos.Consensus
