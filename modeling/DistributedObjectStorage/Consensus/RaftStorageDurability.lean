import DistributedObjectStorage.Consensus.RaftStorage

/-!
# The files implement durable storage, up to torn tails

A directory represents an ideal state when its log is that state's frames and a
tail that starts with no whole frame. Every operation keeps this, with one
exception: an append behind a torn tail is out of reach of every later `Open`.
A file that is replaced by a call that never returned holds what was acknowledged
only if that call wrote it again.
-/
namespace Dos.Consensus
open Wire Transition

/-- The fields fit their machine types, and the body its length field. -/
structure LogEntry.Fits (e : LogEntry) : Prop where
  term : e.term < 2 ^ 64
  index : e.index < 2 ^ 64
  body : (encodeEntry e).length < 2 ^ 32

structure HardState.Fits (hs : HardState) : Prop where
  term : hs.currentTerm < 2 ^ 64
  body : (encodeHardState hs).length < 2 ^ 32

instance LogEntry.Fits.decidable (e : LogEntry) : Decidable e.Fits :=
  decidable_of_iff (e.term < 2 ^ 64 ∧ e.index < 2 ^ 64 ∧ (encodeEntry e).length < 2 ^ 32)
    ⟨fun ⟨term, index, body⟩ => ⟨term, index, body⟩, fun fits => ⟨fits.term, fits.index, fits.body⟩⟩

instance HardState.Fits.decidable (hs : HardState) : Decidable hs.Fits :=
  decidable_of_iff (hs.currentTerm < 2 ^ 64 ∧ (encodeHardState hs).length < 2 ^ 32)
    ⟨fun ⟨term, body⟩ => ⟨term, body⟩, fun fits => ⟨fits.term, fits.body⟩⟩

/-! ## Records -/

section Records
variable {e : LogEntry} {hs : HardState}

theorem encodeEntry_length (e : LogEntry) : (encodeEntry e).length = 20 + e.command.length := by
  simp [encodeEntry, putU64, putStr, putU32]
  omega

theorem encodeHardState_length (hs : HardState) :
    (encodeHardState hs).length = 12 + hs.votedFor.length := by
  simp [encodeHardState, putU64, putStr, putU32]
  omega

theorem decodeEntry_encodeEntry (fits : e.Fits) : decodeEntry (encodeEntry e) = some e := by
  have command : e.command.length < 2 ^ 32 := by
    have := fits.body
    rw [encodeEntry_length] at this
    omega
  have last : readStr (putStr e.command) = some (e.command, []) := by
    simpa using readStr_put command []
  simp only [decodeEntry, encodeEntry, readU64_put fits.term, readU64_put fits.index, last]

theorem decodeHardState_encodeHardState (fits : hs.Fits) :
    decodeHardState (encodeHardState hs) = some hs := by
  have votedFor : hs.votedFor.length < 2 ^ 32 := by
    have := fits.body
    rw [encodeHardState_length] at this
    omega
  have last : readStr (putStr hs.votedFor) = some (hs.votedFor, []) := by
    simpa using readStr_put votedFor []
  simp only [decodeHardState, encodeHardState, readU64_put fits.term, last]

theorem LogEntry.Fits.describable (fits : e.Fits) :
    Framing.Describable (fun body => (crc32 body).toNat) (encodeEntry e) := by
  refine Wire.describable (fun none => ?_) fits.body
  have := congrArg List.length none
  rw [encodeEntry_length] at this
  simp at this

theorem HardState.Fits.describable (fits : hs.Fits) :
    Framing.Describable (fun body => (crc32 body).toNat) (encodeHardState hs) := by
  refine Wire.describable (fun none => ?_) fits.body
  have := congrArg List.length none
  rw [encodeHardState_length] at this
  simp at this

theorem decodeEntries_encode {entries : List LogEntry} (fits : ∀ e ∈ entries, e.Fits) :
    RaftDir.decodeEntries (entries.map encodeEntry) = entries := by
  induction entries with
  | nil => rfl
  | cons e entries ih =>
      obtain ⟨first, others⟩ := List.forall_mem_cons.mp fits
      simp only [List.map_cons, RaftDir.decodeEntries, decodeEntry_encodeEntry first, ih others]

end Records

/-! ## Representation -/

/-- The frames of a log. -/
def logBytes (entries : List LogEntry) : Bytes := (entries.map fun e => frame (encodeEntry e)).flatten

/-- No whole frame starts here. -/
def Stops (bytes : Bytes) : Prop := Framing.next (fun body => (crc32 body).toNat) bytes = none

structure Represents (dir : RaftDir) (d : DurableState) : Prop where
  log : ∃ torn, dir.raftLog = logBytes d.log ++ torn ∧ Stops torn
  entries : ∀ e ∈ d.log, e.Fits
  hardState : dir.raftState = [] ∧ d.hardState = ⟨0, []⟩ ∨
    dir.raftState = frame (encodeHardState d.hardState) ∧ d.hardState.Fits

section Represents
variable {dir : RaftDir} {d : DurableState}

/-- Reading a log back: its entries, and the torn tail. -/
theorem read_logBytes {entries : List LogEntry} (fits : ∀ e ∈ entries, e.Fits) {torn : Bytes}
    (stops : Stops torn) :
    readFramedRecords (logBytes entries ++ torn) = entries.map encodeEntry ∧
      tornTail (logBytes entries ++ torn) = torn := by
  have bodies : ∀ body ∈ entries.map encodeEntry,
      Framing.Describable (fun body => (crc32 body).toNat) body := by
    intro body member
    obtain ⟨e, inside, rfl⟩ := List.mem_map.mp member
    exact (fits e inside).describable
  have stream := Framing.scan_stream bodies stops
  rw [List.map_map] at stream
  exact stream

theorem logBytes_append (entries : List LogEntry) (e : LogEntry) :
    logBytes (entries ++ [e]) = logBytes entries ++ frame (encodeEntry e) := by
  simp [logBytes]

/-- A `raft-state` of one record. -/
theorem loadedHardState_frame {hs : HardState} (saved : dir.raftState = frame (encodeHardState hs))
    (fits : hs.Fits) : dir.loadedHardState = hs := by
  have single : ∀ body ∈ [encodeHardState hs],
      Framing.Describable (fun body => (crc32 body).toNat) body := by
    simpa using fits.describable
  have stream := (Framing.scan_stream single Framing.next_nil).1
  simp only [List.map_cons, List.map_nil, List.flatten_cons, List.flatten_nil,
    List.append_nil] at stream
  have one : readFramedRecords dir.raftState = [encodeHardState hs] := by
    rw [saved]
    exact stream
  simp only [RaftDir.loadedHardState, one, List.getLast?_singleton,
    decodeHardState_encodeHardState fits, Option.getD_some]

/-- `Open` finds the state that the directory represents. -/
theorem Represents.load (rep : Represents dir d) : dir.load = d := by
  obtain ⟨torn, bytes, stops⟩ := rep.log
  have log : dir.loadedLog = d.log := by
    rw [RaftDir.loadedLog, bytes, (read_logBytes rep.entries stops).1]
    exact decodeEntries_encode rep.entries
  have hardState : dir.loadedHardState = d.hardState := by
    rcases rep.hardState with ⟨absent, initial⟩ | ⟨saved, fits⟩
    · rw [RaftDir.loadedHardState, absent, initial]
      rfl
    · exact loadedHardState_frame saved fits
  rw [RaftDir.load, log, hardState]

theorem Represents.whole (rep : Represents dir d) (whole : tornTail dir.raftLog = []) :
    dir.raftLog = logBytes d.log := by
  obtain ⟨torn, bytes, stops⟩ := rep.log
  rw [bytes, (read_logBytes rep.entries stops).2] at whole
  rw [bytes, whole, List.append_nil]

theorem Represents.empty : Represents .empty .empty :=
  ⟨⟨[], rfl, Framing.next_nil⟩, List.forall_mem_nil _, .inl ⟨rfl, rfl⟩⟩

theorem Represents.appendEntry (rep : Represents dir d) (whole : tornTail dir.raftLog = [])
    {e : LogEntry} (fits : e.Fits) : Represents (dir.appendEntry e) (d.appendEntry e) := by
  refine ⟨⟨[], ?_, Framing.next_nil⟩, ?_, rep.hardState⟩
  · rw [RaftDir.appendEntry, rep.whole whole, DurableState.appendEntry, logBytes_append,
      List.append_nil]
  · intro other member
    rcases List.mem_append.mp member with old | new
    · exact rep.entries other old
    · rw [List.mem_singleton.mp new]
      exact fits

/-- A cut append leaves a torn tail, or the whole entry. -/
theorem Represents.cutAppend (rep : Represents dir d) (whole : tornTail dir.raftLog = [])
    {e : LogEntry} (fits : e.Fits) (written : ℕ) :
    Represents (dir.cutAppend e written) d ∨ Represents (dir.cutAppend e written) (d.appendEntry e) := by
  by_cases short : written < (frame (encodeEntry e)).length
  · refine .inl ⟨⟨_, ?_, Framing.next_cut fits.describable short⟩, rep.entries, rep.hardState⟩
    rw [RaftDir.cutAppend, rep.whole whole]
    rfl
  · refine .inr ?_
    have all : dir.cutAppend e written = dir.appendEntry e := by
      rw [RaftDir.cutAppend, RaftDir.appendEntry, List.take_of_length_le (Nat.le_of_not_lt short)]
    rw [all]
    exact rep.appendEntry whole fits

theorem Represents.rewriteLog (rep : Represents dir d) {entries : List LogEntry}
    (fits : ∀ e ∈ entries, e.Fits) : Represents (dir.rewriteLog entries) (d.rewriteLog entries) :=
  ⟨⟨[], (List.append_nil _).symm, Framing.next_nil⟩, fits, rep.hardState⟩

theorem Represents.saveHardState (rep : Represents dir d) {hs : HardState} (fits : hs.Fits) :
    Represents (dir.saveHardState hs) (d.saveHardState hs) :=
  ⟨rep.log, rep.entries, .inr ⟨rfl, fits⟩⟩

end Represents

/-! ## Histories -/

/-- The arguments fit their types and length fields. -/
def StorageAction.Fits : StorageAction → Prop
  | .appendEntry e | .cutAppend e _ => e.Fits
  | .rewriteLog entries | .cutRewrite entries => ∀ e ∈ entries, e.Fits
  | .saveHardState hs | .cutSave hs => hs.Fits
  | .openDir | .crash => True

/-- An append finds the log without a torn tail, and a file is replaced without
a return only by one that has everything acknowledged. -/
def StorageAction.Harmless (s : StorageRun) : StorageAction → Prop
  | .appendEntry _ | .cutAppend _ _ => tornTail s.dir.raftLog = []
  | .cutRewrite entries => s.acked.log.Sublist entries
  | .cutSave hs => s.acked.hardState = hs
  | .rewriteLog _ | .saveHardState _ | .openDir | .crash => True

instance StorageAction.Fits.decidable : ∀ act : StorageAction, Decidable act.Fits
  | .appendEntry e | .cutAppend e _ => inferInstanceAs (Decidable e.Fits)
  | .rewriteLog entries | .cutRewrite entries => inferInstanceAs (Decidable (∀ e ∈ entries, e.Fits))
  | .saveHardState hs | .cutSave hs => inferInstanceAs (Decidable hs.Fits)
  | .openDir | .crash => isTrue trivial

instance StorageAction.Harmless.decidable (s : StorageRun) :
    ∀ act : StorageAction, Decidable (act.Harmless s)
  | .appendEntry _ | .cutAppend _ _ => inferInstanceAs (Decidable (tornTail s.dir.raftLog = []))
  | .cutRewrite entries => inferInstanceAs (Decidable (s.acked.log.Sublist entries))
  | .cutSave hs => inferInstanceAs (Decidable (s.acked.hardState = hs))
  | .rewriteLog _ | .saveHardState _ | .openDir | .crash => isTrue trivial

/-- The directory represents a state that has everything acknowledged. -/
def StorageRun.Ok (s : StorageRun) : Prop :=
  ∃ d, Represents s.dir d ∧ s.acked.log.Sublist d.log ∧ s.acked.hardState = d.hardState

theorem StorageRun.Ok.exec {s : StorageRun} (ok : s.Ok) {act : StorageAction} (fits : act.Fits)
    (harmless : act.Harmless s) : (s.exec act).Ok := by
  obtain ⟨d, rep, kept, same⟩ := ok
  obtain ⟨dir, loaded, acked⟩ := s
  cases loaded with
  | none =>
      -- only `Open` runs on a closed directory, and it changes no file
      cases act with
      | _ => exact ⟨d, rep, kept, same⟩
  | some before =>
      cases act with
      | openDir => exact ⟨d, rep, kept, same⟩
      | appendEntry e =>
          exact ⟨d.appendEntry e, rep.appendEntry harmless fits, kept.append (.refl _), same⟩
      | rewriteLog entries => exact ⟨d.rewriteLog entries, rep.rewriteLog fits, .refl _, same⟩
      | saveHardState hs => exact ⟨d.saveHardState hs, rep.saveHardState fits, kept, rfl⟩
      | cutAppend e written =>
          rcases rep.cutAppend harmless fits written with lost | there
          · exact ⟨d, lost, kept, same⟩
          · exact ⟨d.appendEntry e, there, kept.trans (List.sublist_append_left _ _), same⟩
      -- nothing is acknowledged here, so the new file itself has to hold what was
      | cutRewrite entries => exact ⟨d.rewriteLog entries, rep.rewriteLog fits, harmless, same⟩
      | cutSave hs => exact ⟨d.saveHardState hs, rep.saveHardState fits, kept, harmless⟩
      | crash => exact ⟨d, rep, kept, same⟩

/-- In every history that never appends behind a torn tail and never replaces a file
by less than was acknowledged without returning, an `Open` loads all acknowledged
entries in order and the last saved hard state. -/
theorem acknowledged_loaded {s : StorageRun}
    (reachable : (StorageRun.system fun s act => act.Fits ∧ act.Harmless s).Reachable s)
    (closed : s.loaded = none) :
    ∃ found, (s.exec .openDir).loaded = some found ∧ s.acked.log.Sublist found.log ∧
      found.hardState = s.acked.hardState := by
  have ok : s.Ok := by
    apply reachable.invariant
    · rintro _ rfl
      exact ⟨.empty, .empty, .refl _, rfl⟩
    · rintro before _ _ ok ⟨act, ⟨fits, harmless⟩, rfl⟩
      exact ok.exec fits harmless
  obtain ⟨d, rep, kept, same⟩ := ok
  refine ⟨d, ?_, kept, same.symm⟩
  simp only [StorageRun.exec, closed]
  exact congrArg some rep.load

/-- An entry, an append that dies after five bytes, a rewrite that dies after its
rename, and one more entry. -/
def cutAndRewritten : List StorageAction :=
  [.openDir, .saveHardState ⟨1, [97]⟩, .appendEntry ⟨1, 1, [120]⟩, .cutAppend ⟨1, 2, [121]⟩ 5,
    .crash, .openDir, .cutRewrite [⟨1, 1, [120]⟩], .crash, .openDir, .appendEntry ⟨1, 2, [122]⟩, .crash]

theorem acknowledged_loaded_cutAndRewritten :
    ∃ found, ((StorageRun.run cutAndRewritten).exec .openDir).loaded = some found ∧
      [⟨1, 1, [120]⟩, ⟨1, 2, [122]⟩].Sublist found.log ∧ found.hardState = ⟨1, [97]⟩ := by
  have reachable : (StorageRun.system fun s act => act.Fits ∧ act.Harmless s).Reachable
      (StorageRun.run cutAndRewritten) := by
    exact (System.Reachable.start rfl).along (by decide +kernel)
  have acked : (StorageRun.run cutAndRewritten).acked =
      ⟨⟨1, [97]⟩, [⟨1, 1, [120]⟩, ⟨1, 2, [122]⟩]⟩ := by decide +kernel
  have found := acknowledged_loaded reachable (by decide +kernel)
  rw [acked] at found
  exact found

/-- One byte of a torn frame hides the entry that was appended after it. -/
def tornThenAppend : List StorageAction :=
  [.openDir, .cutAppend ⟨1, 1, [120]⟩ 1, .crash, .openDir, .appendEntry ⟨1, 1, [121]⟩, .crash]

theorem tornThenAppend_loses_entry :
    ∃ s, (StorageRun.system fun _ act => act.Fits).Reachable s ∧ s.loaded = none ∧
      s.acked.log = [⟨1, 1, [121]⟩] ∧ (s.exec .openDir).loaded = some .empty :=
  ⟨StorageRun.run tornThenAppend, (System.Reachable.start rfl).along (by decide +kernel),
    by decide +kernel, by decide +kernel, by decide +kernel⟩

end Dos.Consensus
