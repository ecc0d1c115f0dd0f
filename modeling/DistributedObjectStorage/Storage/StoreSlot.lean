import DistributedObjectStorage.Storage.StoreMachine

/-!
# One key of the store

A key reads one row, one payload file and its own open log records. What a
mutation, a crash and recovery do to a key is stated on these three, so facts
about other keys need no more than that their slots do not change.
-/
namespace Dos.Storage

structure Slot where
  row : Option ObjectMetadata
  file : Option Bytes
  opened : List WalRecord

def Disk.slot (d : Disk) (key : Bytes) : Slot where
  row := d.metadata.objects[key]?
  file := d.files[keyDigest key]?
  opened := (Wal.openRecords d.wal.records).filter (·.key = key)

def absentView (key : Bytes) : View := ⟨.error (.notFound (text "no such key: " ++ key)), none⟩

namespace Slot

/-- The version of the row, tombstones included. -/
def version (p : Slot) : ℕ := p.row.elim 0 (·.version)

/-- No row, or a tombstone. -/
def Dead (p : Slot) : Prop := ∀ row ∈ p.row, row.deleted = true

/-- A live row has its payload. -/
def Intact (p : Slot) : Prop :=
  ∀ row ∈ p.row, row.deleted = false → ∃ data, p.file = some data ∧ sha256Hex data = row.checksum

/-- Open records that recovery finds nothing to do for: what deletes of a dead
key leave behind. -/
def Leftover (p : Slot) : Prop := ∀ rec ∈ p.opened, rec.op = .delete ∧ p.Dead

/-- Recovery passes over the record. -/
def Inert (p : Slot) (rec : WalRecord) : Prop :=
  match rec.op with
  | .put =>
      (∃ row ∈ p.row, rec.version ≤ row.version) ∨
        ∀ data ∈ p.file, sha256Hex data ≠ rec.checksum
  | .delete => p.Dead

theorem live_of_not_dead {p : Slot} (alive : ¬p.Dead) : ∃ row, p.row = some row ∧ row.deleted = false := by
  unfold Dead at alive
  push Not at alive
  obtain ⟨row, found, live⟩ := alive
  exact ⟨row, found, by simpa using live⟩

end Slot

/-! ## What a key shows -/

section View
variable {d : Disk} {key : Bytes} {row : ObjectMetadata} {data : Bytes}

theorem Disk.view_absent (absent : (d.slot key).row = none) : d.view key = absentView key := by
  have lookup : d.metadata.objects[key]? = none := absent
  have missing : d.metadata.get key = .error (.notFound (text "no such key: " ++ key)) := by
    simp only [SqliteMetadataStore.get, lookup]
  simp only [Disk.view, Disk.get, Disk.head, missing]
  rfl

theorem Disk.view_dead (found : (d.slot key).row = some row) (dead : row.deleted = true) :
    d.view key = Outcome.removed.view key := by
  have lookup : d.metadata.objects[key]? = some row := found
  have missing : d.metadata.get key = .error (.notFound (text "tombstoned: " ++ key)) := by
    simp only [SqliteMetadataStore.get, lookup, dead, if_true]
  simp only [Disk.view, Disk.get, Disk.head, missing]
  rfl

/-- The checksum column survives being read as a C string: it is a digest. -/
theorem Disk.metadata_live {stored : Bytes} (found : (d.slot key).row = some row) (live : row.deleted = false)
    (sum : sha256Hex stored = row.checksum) :
    d.metadata.get key = .ok (readRow row) ∧ cString row.checksum = row.checksum := by
  have lookup : d.metadata.objects[key]? = some row := found
  constructor
  · simp [SqliteMetadataStore.get, lookup, live]
  · rw [← sum]
    exact cString_eq (sha256Hex_nonzero stored)

theorem Disk.view_live (found : (d.slot key).row = some row) (live : row.deleted = false)
    (file : (d.slot key).file = some data) (sum : sha256Hex data = row.checksum) :
    d.view key = ⟨.ok data, some (row.version, row.size, row.checksum)⟩ := by
  have payload : d.files[keyDigest key]? = some data := file
  obtain ⟨present, column⟩ := Disk.metadata_live found live sum
  have bytes : d.get key = .ok data := by
    simp [Disk.get, present, Disk.readWholeFile, payload, readRow, column, sum]
  rw [Disk.view, bytes, Disk.head, present]
  simp [readRow, column, Except.toOption]

/-- What a key shows is a function of its slot. -/
theorem Disk.get_head_congr {d' : Disk} (row : (d'.slot key).row = (d.slot key).row)
    (file : (d'.slot key).file = (d.slot key).file) : d'.get key = d.get key ∧ d'.head key = d.head key := by
  have lookup : d'.metadata.objects[key]? = d.metadata.objects[key]? := row
  have payload : d'.files[keyDigest key]? = d.files[keyDigest key]? := file
  simp only [Disk.get, Disk.head, SqliteMetadataStore.get, Disk.readWholeFile, lookup, payload, and_self]

theorem Disk.view_congr {d' : Disk} (row : (d'.slot key).row = (d.slot key).row)
    (file : (d'.slot key).file = (d.slot key).file) : d'.view key = d.view key := by
  obtain ⟨bytes, head⟩ := Disk.get_head_congr row file
  rw [Disk.view, Disk.view, bytes, head]

theorem Disk.get_of_view {view : View} (h : d.view key = view) : d.get key = view.bytes :=
  congrArg View.bytes h

/-- `Get` returns the payload file if it passes the check of the row. -/
theorem Disk.get_ok_iff : d.get key = .ok data ↔
    ∃ row, d.head key = .ok row ∧ (d.slot key).file = some data ∧ sha256Hex data = row.checksum := by
  unfold Disk.get Disk.readWholeFile Disk.head
  cases d.metadata.get key with
  | error status => simp
  | ok row =>
      change _ ↔ ∃ r, Except.ok row = Except.ok r ∧ d.files[keyDigest key]? = some data ∧ _
      cases d.files[keyDigest key]? with
      | none => simp
      | some stored =>
          by_cases same : sha256Hex stored = row.checksum
          · constructor
            · intro read
              simp only [same, ne_eq, not_true_eq_false, if_false, Except.ok.injEq] at read
              exact ⟨row, rfl, congrArg some read, read ▸ same⟩
            · rintro ⟨_, ⟨⟩, ⟨⟩, -⟩
              simp [same]
          · constructor
            · intro read
              simp [same] at read
            · rintro ⟨_, ⟨⟩, ⟨⟩, matched⟩
              exact absurd matched same

/-- What `Get` returns is in the payload file. -/
theorem Disk.get_ok_file (read : d.get key = .ok data) : (d.slot key).file = some data := by
  obtain ⟨row, -, file, -⟩ := Disk.get_ok_iff.mp read
  exact file

theorem Disk.head_ok {head : ObjectMetadata} (found : d.head key = .ok head) :
    ∃ row, (d.slot key).row = some row ∧ head.version = row.version := by
  unfold Disk.head SqliteMetadataStore.get at found
  split at found
  · cases found
  · next row lookup =>
      split at found
      · cases found
      · cases found
        exact ⟨row, lookup, rfl⟩

theorem Disk.head_live (found : (d.slot key).row = some row) (live : row.deleted = false) :
    d.head key = .ok (readRow row) := by
  have lookup : d.metadata.objects[key]? = some row := found
  simp [Disk.head, SqliteMetadataStore.get, lookup, live]

theorem Disk.get_intact (intact : (d.slot key).Intact) (message : Bytes) :
    d.get key ≠ .error (.checksumMismatch message) := by
  cases found : (d.slot key).row with
  | none =>
      rw [Disk.get_of_view (Disk.view_absent found)]
      simp [absentView, Status.notFound, Status.checksumMismatch]
  | some row =>
      cases live : row.deleted with
      | true =>
          rw [Disk.get_of_view (Disk.view_dead found live)]
          simp [Outcome.view, Status.notFound, Status.checksumMismatch]
      | false =>
          obtain ⟨data, file, sum⟩ := intact row found live
          rw [Disk.get_of_view (Disk.view_live found live file sum)]
          simp

end View

/-! ## What the disk steps do to a slot -/

section Effects
variable (d : Disk) {key other : Bytes}

theorem Disk.slot_appendBegin (whole : d.wal.torn = false) {seq : ℕ}
    (fresh : seq ∉ Wal.committed d.wal.records) (op : WalOp) (version : ℕ) (checksum : Bytes)
    (size : ℕ) :
    (d.appendBegin seq op key version checksum size).slot key =
      { d.slot key with
        opened := (d.slot key).opened ++ [.begin seq op key version checksum size] } := by
  simp [Disk.slot, Disk.appendBegin, Wal.appendRecord, whole, WalRecord.begin, openRecords_begin,
    fresh, List.filter_append]

theorem Disk.slot_appendBegin_ne (whole : d.wal.torn = false) {seq : ℕ}
    (fresh : seq ∉ Wal.committed d.wal.records) (op : WalOp) (version : ℕ) (checksum : Bytes)
    (size : ℕ) (ne : key ≠ other) :
    (d.appendBegin seq op key version checksum size).slot other = d.slot other := by
  simp [Disk.slot, Disk.appendBegin, Wal.appendRecord, whole, WalRecord.begin, openRecords_begin,
    fresh, List.filter_append, ne]

theorem Disk.slot_appendCommit (whole : d.wal.torn = false) (seq : ℕ) :
    (d.appendCommit seq).slot key =
      { d.slot key with opened := (d.slot key).opened.filter (·.seq ≠ seq) } := by
  simp [Disk.slot, Disk.appendCommit, Wal.appendRecord, whole, openRecords_commit,
    List.filter_filter, Bool.and_comm]

theorem Disk.slot_appendCommit_ne (whole : d.wal.torn = false) (seq : ℕ)
    (owned : ∀ rec ∈ Wal.openRecords d.wal.records, rec.seq = seq → rec.key = key)
    (ne : key ≠ other) : (d.appendCommit seq).slot other = d.slot other := by
  rw [Disk.slot_appendCommit d whole]
  have kept : (d.slot other).opened.filter (·.seq ≠ seq) = (d.slot other).opened := by
    rw [List.filter_eq_self]
    intro rec member
    obtain ⟨isOpen, named⟩ := List.mem_filter.mp member
    have named : rec.key = other := of_decide_eq_true named
    rw [decide_eq_true_iff]
    exact fun same => ne ((owned rec isOpen same).symm.trans named)
  rw [kept]

theorem Disk.slot_placePayload (data : Bytes) :
    (d.placePayload key data).slot key = { d.slot key with file := some data } := by
  simp [Disk.slot, Disk.placePayload]

theorem Disk.slot_placePayload_ne (data : Bytes) (ne : keyDigest key ≠ keyDigest other) :
    (d.placePayload key data).slot other = d.slot other := by
  simp only [Disk.slot, Disk.placePayload, OrderedMap.lookup_insert_ne _ _ ne]

theorem Disk.slot_putRow (row : ObjectMetadata) :
    (d.putRow row).slot row.key = { d.slot row.key with row := some row } := by
  simp [Disk.slot, Disk.putRow, SqliteMetadataStore.put]

theorem Disk.slot_putRow_ne {row : ObjectMetadata} (ne : row.key ≠ other) :
    (d.putRow row).slot other = d.slot other := by
  simp only [Disk.slot, Disk.putRow, SqliteMetadataStore.put, OrderedMap.lookup_insert_ne _ _ ne]

variable {d}

theorem Disk.deleteRow_dead (dead : (d.slot key).Dead) :
    ∃ status, status.isOk = false ∧ d.deleteRow key = (d, status) := by
  refine ⟨.notFound (text "no such key: " ++ key), rfl, ?_⟩
  cases found : d.metadata.objects[key]? with
  | none => simp [Disk.deleteRow, SqliteMetadataStore.delete, found]
  | some row =>
      have gone : row.deleted = true := dead row found
      simp [Disk.deleteRow, SqliteMetadataStore.delete, found, gone]

theorem Disk.deleteRow_live {row : ObjectMetadata} (found : (d.slot key).row = some row)
    (live : row.deleted = false) :
    (d.deleteRow key).2.isOk = true ∧
      (d.deleteRow key).1.slot key = { d.slot key with row := some { row with deleted := true } } ∧
      ∀ other, key ≠ other → (d.deleteRow key).1.slot other = d.slot other := by
  have lookup : d.metadata.objects[key]? = some row := found
  have result : d.deleteRow key =
      ({ d with metadata := ⟨d.metadata.objects.insert key { row with deleted := true }⟩ },
        .success) := by
    simp [Disk.deleteRow, SqliteMetadataStore.delete, lookup, live]
  rw [result]
  refine ⟨rfl, by simp [Disk.slot], fun other ne => ?_⟩
  simp only [Disk.slot, OrderedMap.lookup_insert_ne _ _ ne]

theorem Disk.deleteRow_row_ne (ne : key ≠ other) :
    ((d.deleteRow key).1.slot other).row = (d.slot other).row := by
  by_cases gone : (d.slot key).Dead
  · obtain ⟨status, _, same⟩ := Disk.deleteRow_dead gone
    rw [same]
  · obtain ⟨row, found, live⟩ := Slot.live_of_not_dead gone
    rw [(Disk.deleteRow_live found live).2.2 other ne]

/-- A delete leaves a row as it is or buries it. -/
theorem Disk.deleteRow_row {gone : Bytes} {row' : ObjectMetadata}
    (found : ((d.deleteRow gone).1.slot key).row = some row') :
    ∃ row, (d.slot key).row = some row ∧ (row' = row ∨ row' = { row with deleted := true }) := by
  by_cases same : gone = key
  · subst same
    by_cases dead : (d.slot gone).Dead
    · obtain ⟨_, _, unchanged⟩ := Disk.deleteRow_dead dead
      rw [unchanged] at found
      exact ⟨row', found, .inl rfl⟩
    · obtain ⟨row, here, live⟩ := Slot.live_of_not_dead dead
      rw [(Disk.deleteRow_live here live).2.1] at found
      cases found
      exact ⟨row, here, .inr rfl⟩
  · rw [Disk.deleteRow_row_ne same] at found
    exact ⟨row', found, .inl rfl⟩

end Effects

/-! ## What a write decides -/

section Plan
variable {d : Disk} {req : WriteRequest} {now : Int} {row : ObjectMetadata}

/-- The current row was written by a request of the same id. -/
def Slot.Recognises (p : Slot) (req : WriteRequest) : Prop :=
  req.requestId ≠ [] ∧ ∃ row ∈ p.row, cString row.requestId = req.requestId

theorem planPut_recognised (retry : req.requestId ≠ []) (found : (d.slot req.key).row = some row)
    (same : cString row.requestId = req.requestId) :
    planPut d req now = .answer (.ok (readRow row)) := by
  have lookup : d.metadata.objects[req.key]? = some row := found
  simp [planPut, SqliteMetadataStore.peek, lookup, retry, readRow, same]

theorem planPut_new (new : ¬(d.slot req.key).Recognises req) :
    planPut d req now = planWrite req (d.slot req.key).version now := by
  unfold planPut SqliteMetadataStore.peek Slot.version
  cases found : d.metadata.objects[req.key]? with
  | none => simp [Disk.slot, found]
  | some row =>
      have fresh : ¬(req.requestId ≠ [] ∧ cString row.requestId = req.requestId) :=
        fun both => new ⟨both.1, row, found, both.2⟩
      simp only [Disk.slot, found, readRow, Option.elim]
      exact if_neg fresh

theorem planWrite_write {currentVersion : ℕ} (plan : planWrite req currentVersion now = .write row) :
    (req.conditional = true → currentVersion = req.expectedVersion) ∧
      row = newRow req currentVersion now := by
  unfold planWrite at plan
  split at plan
  · cases plan
  · next agrees =>
      cases plan
      refine ⟨fun conditional => ?_, rfl⟩
      simpa [conditional] using agrees

/-- A write is planned for a request that is new and meets the version. -/
theorem planPut_newRow (plan : planPut d req now = .write row) :
    ¬(d.slot req.key).Recognises req ∧
      (req.conditional = true → (d.slot req.key).version = req.expectedVersion) ∧
      row = newRow req (d.slot req.key).version now := by
  have new : ¬(d.slot req.key).Recognises req := by
    rintro ⟨retry, current, found, same⟩
    rw [planPut_recognised retry found same] at plan
    cases plan
  rw [planPut_new new] at plan
  exact ⟨new, planWrite_write plan⟩

end Plan

theorem Mutation.request_key {m : Mutation} {req : WriteRequest} (h : m.request = some req) :
    req.key = m.key := by
  cases m with
  | delete key => cases h
  | _ =>
      simp only [Mutation.request, Option.ite_none_left_eq_some, Option.some.injEq] at h
      rw [← h.2]
      rfl

/-! ## What recovery does to a slot -/

section Recovery
variable {d : Disk} {committed : List ℕ} {rec : WalRecord}

theorem recoverRecord_closed (closed : rec.isCommit = true ∨ rec.seq ∈ committed) (now : Int) :
    recoverRecord committed now d rec = d := by
  unfold recoverRecord
  rw [if_pos closed]

theorem recoverRecord_inert (inert : (d.slot rec.key).Inert rec) (now : Int) :
    recoverRecord committed now d rec = d := by
  unfold recoverRecord
  split
  · rfl
  · unfold Slot.Inert at inert
    cases kind : rec.op with
    | put =>
        rw [kind] at inert
        rcases inert with ⟨row, found, newer⟩ | differs
        · have lookup : d.metadata.objects[rec.key]? = some row := found
          simp [SqliteMetadataStore.peek, lookup, readRow, Except.toOption, newer]
        · cases file : d.files[keyDigest rec.key]? with
          | none => simp [Disk.readWholeFile, file]
          | some data => simp [Disk.readWholeFile, file, differs data file]
    | delete =>
        rw [kind] at inert
        cases found : d.metadata.objects[rec.key]? with
        | none => simp [SqliteMetadataStore.peek, found, Except.toOption]
        | some row =>
            have gone : row.deleted = true := inert row found
            simp [SqliteMetadataStore.peek, found, readRow, Except.toOption, gone]

/-- The row that recovery writes for an interrupted put. -/
def recoveredRow (rec : WalRecord) (now : Int) : ObjectMetadata where
  key := rec.key
  size := rec.size
  checksum := rec.checksum
  version := rec.version
  createdAt := now
  deleted := false
  requestId := []

theorem recoverRecord_put (isOpen : ¬(rec.isCommit = true ∨ rec.seq ∈ committed)) (kind : rec.op = .put)
    (live : ¬(d.slot rec.key).Inert rec) (now : Int) :
    recoverRecord committed now d rec = d.putRow (recoveredRow rec now) := by
  unfold Slot.Inert at live
  rw [kind] at live
  push Not at live
  obtain ⟨older, data, file, sum⟩ := live
  have behind : ((d.metadata.peek rec.key).toOption.any (rec.version ≤ ·.version)) = false := by
    cases found : d.metadata.objects[rec.key]? with
    | none => simp [SqliteMetadataStore.peek, found, Except.toOption]
    | some row => simp [SqliteMetadataStore.peek, found, Except.toOption, readRow, older row found]
  have payload : d.files[keyDigest rec.key]? = some data := file
  simp only [recoverRecord, if_neg isOpen, kind, behind, Disk.readWholeFile, payload, sum, if_true]
  rfl

theorem recoverRecord_delete (isOpen : ¬(rec.isCommit = true ∨ rec.seq ∈ committed))
    (kind : rec.op = .delete) {row : ObjectMetadata} (found : (d.slot rec.key).row = some row)
    (live : row.deleted = false) (now : Int) :
    recoverRecord committed now d rec = (d.deleteRow rec.key).1 := by
  have lookup : d.metadata.objects[rec.key]? = some row := found
  simp [recoverRecord, isOpen, kind, SqliteMetadataStore.peek, lookup, Except.toOption, readRow, live]

/-- A record is skipped, or its put or its delete is completed. -/
theorem recoverRecord_cases (committed : List ℕ) (now : Int) (d : Disk) (rec : WalRecord) :
    recoverRecord committed now d rec = d ∨
      (recoverRecord committed now d rec = d.putRow (recoveredRow rec now) ∧ rec.op = .put ∧
        rec.isCommit = false ∧ ¬(d.slot rec.key).Inert rec) ∨
      recoverRecord committed now d rec = (d.deleteRow rec.key).1 := by
  by_cases closed : rec.isCommit = true ∨ rec.seq ∈ committed
  · exact .inl (recoverRecord_closed closed now)
  · by_cases inert : (d.slot rec.key).Inert rec
    · exact .inl (recoverRecord_inert inert now)
    · cases kind : rec.op with
      | put =>
          have plain : rec.isCommit = false := by simpa using fun commit => closed (.inl commit)
          exact .inr (.inl ⟨recoverRecord_put closed kind inert now, rfl, plain, inert⟩)
      | delete =>
          unfold Slot.Inert at inert
          rw [kind] at inert
          obtain ⟨row, found, live⟩ := Slot.live_of_not_dead inert
          exact .inr (.inr (recoverRecord_delete closed kind found live now))

theorem recoverRecord_frame (d : Disk) (rec : WalRecord) (committed : List ℕ) (now : Int) :
    (recoverRecord committed now d rec).wal = d.wal ∧
      (recoverRecord committed now d rec).files = d.files := by
  unfold recoverRecord
  split
  · exact ⟨rfl, rfl⟩
  · split
    · split
      · exact ⟨rfl, rfl⟩
      · split
        · exact ⟨rfl, rfl⟩
        · split <;> exact ⟨rfl, rfl⟩
    · split <;> exact ⟨rfl, rfl⟩

end Recovery
end Dos.Storage
