import DistributedObjectStorage.Consensus.RaftStorageDurability

/-!
# Truncated Raft files

`raft-log` is the frames of its entries, so `Open` on any front part of it
finds the entries that are there as a whole. `raft-state` gives back what was
saved, up to the four bytes of its length fields.
-/
namespace Dos.Consensus
open Wire Transition

/-- The file `raft-log` cut to its first `n` bytes. -/
def RaftDir.truncateLog (dir : RaftDir) (n : ℕ) : RaftDir := { dir with raftLog := dir.raftLog.take n }

/-- The longest prefix of `entries` whose frames end within `n` bytes. -/
structure LongestWithin (n : ℕ) (entries found : List LogEntry) : Prop where
  start : found <+: entries
  inside : (logBytes found).length ≤ n
  longest : ∀ longer, longer <+: entries → (logBytes longer).length ≤ n → longer.length ≤ found.length

/-- Every call returns Ok. -/
def StorageAction.Finished : StorageAction → Prop
  | .cutAppend _ _ | .cutRewrite _ | .cutSave _ => False
  | _ => True

instance StorageAction.Finished.decidable : ∀ act : StorageAction, Decidable act.Finished
  | .cutAppend _ _ | .cutRewrite _ | .cutSave _ => isFalse id
  | .openDir | .appendEntry _ | .rewriteLog _ | .saveHardState _ | .crash => isTrue trivial

/-! ## The log -/

/-- The log file is the frames of the acknowledged entries. -/
structure StorageRun.Framed (s : StorageRun) : Prop where
  bytes : s.dir.raftLog = logBytes s.acked.log
  fits : ∀ e ∈ s.acked.log, e.Fits

theorem StorageRun.Framed.exec {s : StorageRun} (framed : s.Framed) {act : StorageAction}
    (fits : act.Fits) (finished : act.Finished) : (s.exec act).Framed := by
  obtain ⟨dir, loaded, acked⟩ := s
  cases loaded with
  | none =>
      cases act with
      | _ => exact ⟨framed.bytes, framed.fits⟩
  | some before =>
      cases act with
      | openDir => exact ⟨framed.bytes, framed.fits⟩
      | appendEntry e =>
          constructor
          · change dir.raftLog ++ frame (encodeEntry e) = logBytes (acked.log ++ [e])
            rw [logBytes_append, framed.bytes]
          · intro other member
            rcases List.mem_append.mp member with old | new
            · exact framed.fits other old
            · rw [List.mem_singleton.mp new]
              exact fits
      | rewriteLog entries => exact ⟨rfl, fits⟩
      | saveHardState hs => exact ⟨framed.bytes, framed.fits⟩
      | crash => exact ⟨framed.bytes, framed.fits⟩
      | cutAppend | cutRewrite | cutSave => exact absurd finished id

theorem StorageRun.framed {s : StorageRun}
    (reachable : (system fun _ act => act.Fits ∧ act.Finished).Reachable s) : s.Framed := by
  apply reachable.invariant
  · rintro _ rfl
    exact ⟨rfl, List.forall_mem_nil _⟩
  · rintro before _ _ framed ⟨act, ⟨fits, finished⟩, rfl⟩
    exact framed.exec fits finished

/-- `Open` on the first bytes of a log. -/
theorem loadedLog_truncated {dir : RaftDir} {entries : List LogEntry} (fits : ∀ e ∈ entries, e.Fits)
    (bytes : dir.raftLog = logBytes entries) (n : ℕ) :
    LongestWithin n entries (dir.truncateLog n).loadedLog := by
  obtain ⟨kept, torn, start, cut, stop, longest⟩ :=
    Framing.stream_cut (fun e member => (fits e member).describable) n
  have keptFits : ∀ e ∈ kept, e.Fits := fun e member => fits e (start.subset member)
  have found : (dir.truncateLog n).loadedLog = kept := by
    have front : (dir.truncateLog n).raftLog = logBytes kept ++ torn := by
      rw [RaftDir.truncateLog, bytes]
      exact cut
    rw [RaftDir.loadedLog, front, (read_logBytes keptFits stop).1]
    exact decodeEntries_encode keptFits
  rw [found]
  refine ⟨start, ?_, longest⟩
  have size := congrArg List.length cut
  rw [List.length_append, List.length_take] at size
  change (Framing.stream (fun body => (crc32 body).toNat) encodeEntry kept).length ≤ n
  omega

/-! ## The hard state -/

theorem decodeHardState_room {body : Bytes} {hs : HardState} (decoded : decodeHardState body = some hs) :
    (encodeHardState hs).length ≤ body.length := by
  rw [encodeHardState_length]
  simp only [decodeHardState, readU64, readStr, readU32, readWord] at decoded
  split at decoded
  · contradiction
  · next term =>
      split at term
      · contradiction
      · obtain ⟨-, rfl⟩ := Prod.mk.inj (Option.some.inj term)
        split at decoded
        · contradiction
        · next votedFor =>
            split at votedFor
            · contradiction
            · next len =>
                split at len
                · contradiction
                · obtain ⟨-, rfl⟩ := Prod.mk.inj (Option.some.inj len)
                  split at votedFor
                  · contradiction
                  · obtain ⟨rfl, -⟩ := Prod.mk.inj (Option.some.inj votedFor)
                    cases decoded
                    simp only [List.length_drop, List.length_take] at *
                    omega

/-- No file makes `Open` find a vote that a length field cannot describe. -/
theorem loadedHardState_short (dir : RaftDir) : (encodeHardState dir.loadedHardState).length < 2 ^ 32 := by
  have default : (encodeHardState ⟨0, []⟩).length < 2 ^ 32 := by
    rw [encodeHardState_length, List.length_nil]
    omega
  unfold RaftDir.loadedHardState
  split
  · exact default
  · next body last =>
      cases decoded : decodeHardState body with
      | none => exact default
      | some hs =>
          have member : body ∈ readFramedRecords dir.raftState := List.mem_of_getLast? last
          exact Nat.lt_of_le_of_lt (decodeHardState_room decoded) (Framing.scan_short body member)

theorem loadedHardState_saved_iff (dir : RaftDir) {hs : HardState} (term : hs.currentTerm < 2 ^ 64) :
    (dir.saveHardState hs).loadedHardState = hs ↔ (encodeHardState hs).length < 2 ^ 32 := by
  constructor
  · intro same
    have short := loadedHardState_short (dir.saveHardState hs)
    rwa [same] at short
  · intro body
    exact loadedHardState_frame rfl ⟨term, body⟩

/-! ## Both files -/

/-- After any finished calls the log file is the frames of the entries they
left, every cut of it loads the entries that are whole, and a saved hard state
is loaded back exactly when its record is shorter than 2^32 bytes. -/
theorem truncated_files_loaded {s : StorageRun}
    (reachable : (StorageRun.system fun _ act => act.Fits ∧ act.Finished).Reachable s) :
    s.dir.raftLog = logBytes s.acked.log ∧ s.dir.loadedLog = s.acked.log ∧
      (∀ n, LongestWithin n s.acked.log (s.dir.truncateLog n).loadedLog) ∧
      ∀ hs : HardState, hs.currentTerm < 2 ^ 64 →
        ((s.dir.saveHardState hs).loadedHardState = hs ↔ (encodeHardState hs).length < 2 ^ 32) := by
  have framed := StorageRun.framed reachable
  refine ⟨framed.bytes, ?_, loadedLog_truncated framed.fits framed.bytes,
    fun hs term => loadedHardState_saved_iff s.dir term⟩
  rw [RaftDir.loadedLog, framed.bytes, ← List.append_nil (logBytes _),
    (read_logBytes framed.fits Framing.next_nil).1]
  exact decodeEntries_encode framed.fits

/-- A command that looks like a frame, a rewrite, and one more entry. -/
def framesInside : List StorageAction :=
  [.openDir, .appendEntry ⟨1, 1, frame [7]⟩, .rewriteLog [⟨1, 1, [120]⟩, ⟨2, 2, frame [7]⟩],
    .appendEntry ⟨2, 3, []⟩]

theorem truncated_files_loaded_framesInside :
    ((StorageRun.run framesInside).dir.truncateLog 75).loadedLog = [⟨1, 1, [120]⟩, ⟨2, 2, frame [7]⟩] ∧
      LongestWithin 75 (StorageRun.run framesInside).acked.log
        ((StorageRun.run framesInside).dir.truncateLog 75).loadedLog := by
  have reachable : (StorageRun.system fun _ act => act.Fits ∧ act.Finished).Reachable
      (StorageRun.run framesInside) := (System.Reachable.start rfl).along (by decide +kernel)
  obtain ⟨-, -, cut, -⟩ := truncated_files_loaded reachable
  exact ⟨by decide +kernel, cut 75⟩

def longVote (size : ℕ) : HardState := ⟨1, List.replicate size 97⟩

/-- With 2^32 - 12 bytes in the vote, the length field of the record is zero. -/
theorem longVote_not_loaded :
    (longVote (2 ^ 32 - 12)).currentTerm < 2 ^ 64 ∧
      (RaftDir.empty.saveHardState (longVote (2 ^ 32 - 12))).loadedHardState ≠ longVote (2 ^ 32 - 12) := by
  have long : ∀ size, (longVote size).currentTerm < 2 ^ 64 ∧
      (encodeHardState (longVote size)).length = 12 + size := by
    intro size
    rw [encodeHardState_length]
    exact ⟨Nat.lt_of_lt_of_le Nat.one_lt_two (Nat.le_self_pow (by omega) 2),
      congrArg (12 + ·) List.length_replicate⟩
  obtain ⟨term, length⟩ := long (2 ^ 32 - 12)
  refine ⟨term, fun same => ?_⟩
  have short := (loadedHardState_saved_iff RaftDir.empty term).mp same
  omega

end Dos.Consensus
