import DistributedObjectStorage.Common.Wire
import DistributedObjectStorage.Consensus.RaftTypes
import DistributedObjectStorage.Library.Transition

/-!
# The files behind a Raft node

`raft-state` is replaced as a whole, `raft-log` grows by frames. A call that
does not return Ok may have left a front part of its frame, or have replaced its
file. `Open` reads what is intact and appends behind whatever else is there.
-/
namespace Dos.Consensus
open Wire Transition

def encodeEntry (e : LogEntry) : Bytes := putU64 e.term ++ (putU64 e.index ++ putStr e.command)

def decodeEntry (body : Bytes) : Option LogEntry :=
  match readU64 body with
  | none => none
  | some (term, r) =>
      match readU64 r with
      | none => none
      | some (index, r) =>
          match readStr r with
          | none => none
          | some (command, _) => some ⟨term, index, command⟩

def encodeHardState (hs : HardState) : Bytes := putU64 hs.currentTerm ++ putStr hs.votedFor

def decodeHardState (body : Bytes) : Option HardState :=
  match readU64 body with
  | none => none
  | some (term, r) =>
      match readStr r with
      | none => none
      | some (votedFor, _) => some ⟨term, votedFor⟩

/-- An absent file reads like an empty one. -/
structure RaftDir where
  raftLog : Bytes
  raftState : Bytes
  deriving DecidableEq, Repr

namespace RaftDir

def empty : RaftDir := ⟨[], []⟩

/-- The loop of `Open` stops at the first body that is no entry. -/
def decodeEntries : List Bytes → List LogEntry
  | [] => []
  | body :: bodies =>
      match decodeEntry body with
      | none => []
      | some e => e :: decodeEntries bodies

def loadedLog (dir : RaftDir) : List LogEntry := decodeEntries (readFramedRecords dir.raftLog)

/-- The last intact record wins. -/
def loadedHardState (dir : RaftDir) : HardState :=
  match (readFramedRecords dir.raftState).getLast? with
  | none => ⟨0, []⟩
  | some body => (decodeHardState body).getD ⟨0, []⟩

/-- What `Open` finds. -/
def load (dir : RaftDir) : DurableState := ⟨dir.loadedHardState, dir.loadedLog⟩

def appendEntry (dir : RaftDir) (e : LogEntry) : RaftDir :=
  { dir with raftLog := dir.raftLog ++ frame (encodeEntry e) }

/-- An `AppendEntry` that ended after `written` bytes. -/
def cutAppend (dir : RaftDir) (e : LogEntry) (written : ℕ) : RaftDir :=
  { dir with raftLog := dir.raftLog ++ (frame (encodeEntry e)).take written }

def rewriteLog (dir : RaftDir) (entries : List LogEntry) : RaftDir :=
  { dir with raftLog := (entries.map fun e => frame (encodeEntry e)).flatten }

def saveHardState (dir : RaftDir) (hs : HardState) : RaftDir :=
  { dir with raftState := frame (encodeHardState hs) }

end RaftDir

/-! ## Histories of one directory -/

/-- The `cut` calls reached their file and did not return Ok: an I/O error, such as
the reopening after the rename in `RewriteLog`, or a death, and then `crash` is next. -/
inductive StorageAction where
  | openDir
  | appendEntry (e : LogEntry)
  | rewriteLog (entries : List LogEntry)
  | saveHardState (hs : HardState)
  | cutAppend (e : LogEntry) (written : ℕ)
  | cutRewrite (entries : List LogEntry)
  | cutSave (hs : HardState)
  | crash
  deriving DecidableEq, Repr

/-- `loaded` belongs to an open storage. `acked` is written and never read: the
last saved hard state, and the entries of the last rewrite followed by those
appended since, all of calls that returned Ok. -/
structure StorageRun where
  dir : RaftDir
  loaded : Option DurableState
  acked : DurableState
  deriving DecidableEq, Repr

namespace StorageRun

def initial : StorageRun := ⟨.empty, none, .empty⟩

def exec (s : StorageRun) (act : StorageAction) : StorageRun :=
  match act, s.loaded with
  | .openDir, none => { s with loaded := some s.dir.load }
  | .appendEntry e, some _ =>
      { s with dir := s.dir.appendEntry e, acked := s.acked.appendEntry e }
  | .rewriteLog entries, some _ =>
      { s with dir := s.dir.rewriteLog entries, acked := s.acked.rewriteLog entries }
  | .saveHardState hs, some _ =>
      { s with dir := s.dir.saveHardState hs, acked := s.acked.saveHardState hs }
  | .cutAppend e written, some _ => { s with dir := s.dir.cutAppend e written }
  | .cutRewrite entries, some _ => { s with dir := s.dir.rewriteLog entries }
  | .cutSave hs, some _ => { s with dir := s.dir.saveHardState hs }
  | .crash, some _ => { s with loaded := none }
  | _, _ => s

def run (acts : List StorageAction) : StorageRun := acts.foldl exec initial

/-- The histories whose actions all meet a condition on the state before. -/
def system (allowed : StorageRun → StorageAction → Prop) : System StorageRun :=
  .guarded exec allowed initial

end StorageRun
end Dos.Consensus
