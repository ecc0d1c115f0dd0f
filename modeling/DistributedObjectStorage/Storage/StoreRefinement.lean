import Mathlib.Data.Set.Function
import DistributedObjectStorage.Storage.StoreReplay

/-!
# The store as a versioned map

A client of one store sees a map from keys to versioned objects, in which a
delete leaves a tombstone that keeps the version and the request id. One thing
shows through from the log: a delete that finds nothing leaves its BEGIN record
open, so the next `Open` deletes the key if it has been written in between.
-/
namespace Dos.Storage
open Transition

/-! ## The map -/

/-- An object, or what a delete left of it. -/
structure Cell where
  data : Bytes
  version : ℕ
  createdAt : Int
  requestId : Bytes
  deleted : Bool
  deriving DecidableEq, Repr

def Cell.describe (cell : Cell) (key : Bytes) : ObjectMetadata :=
  ⟨key, cell.data.length, sha256Hex cell.data, cell.version, cell.createdAt, cell.deleted, cell.requestId⟩

def Cell.bury (cell : Cell) : Cell := { cell with deleted := true }

/-- `missed` holds the keys whose delete found nothing since the store was opened. -/
structure VersionedMap where
  cells : Bytes → Option Cell
  missed : List Bytes

namespace VersionedMap

def empty : VersionedMap := ⟨fun _ => none, []⟩

def setCell (m : VersionedMap) (key : Bytes) (cell : Cell) : VersionedMap :=
  { m with cells := Function.update m.cells key (some cell) }

@[simp] theorem setCell_self (m : VersionedMap) (key : Bytes) (cell : Cell) :
    (m.setCell key cell).cells key = some cell := Function.update_self ..

theorem setCell_ne (m : VersionedMap) {key other : Bytes} (cell : Cell) (ne : other ≠ key) :
    (m.setCell key cell).cells other = m.cells other := Function.update_of_ne ne ..

/-- A write that found the given version. -/
def writeOver (m : VersionedMap) (req : WriteRequest) (currentVersion : ℕ) (now : Int) :
    VersionedMap × StatusOr ObjectMetadata :=
  if req.conditional ∧ currentVersion ≠ req.expectedVersion then
    (m, .error (versionConflict req currentVersion))
  else
    let version :=
      if req.explicitVersion ≠ 0 then req.explicitVersion
      else if req.conditional then increment req.expectedVersion
      else increment currentVersion
    let cell : Cell := ⟨req.data, version, now, req.requestId, false⟩
    (m.setCell req.key cell, .ok (cell.describe req.key))

/-- A retry is recognised even on a tombstone. -/
def write (m : VersionedMap) (req : WriteRequest) (now : Int) : VersionedMap × StatusOr ObjectMetadata :=
  match m.cells req.key with
  | none => m.writeOver req 0 now
  | some cell =>
      if req.requestId ≠ [] ∧ cell.requestId = req.requestId then (m, .ok (cell.describe req.key))
      else m.writeOver req cell.version now

def miss (m : VersionedMap) (key : Bytes) : VersionedMap × Status :=
  ({ m with missed := key :: m.missed }, .notFound (text "no such key: " ++ key))

def delete (m : VersionedMap) (key : Bytes) : VersionedMap × Status :=
  match m.cells key with
  | none => m.miss key
  | some cell => if cell.deleted then m.miss key else (m.setCell key cell.bury, .success)

/-- What is read of a key that is not deleted. -/
def read {α : Type} (m : VersionedMap) (key : Bytes) (f : Cell → α) : StatusOr α :=
  match m.cells key with
  | none => .error (.notFound (text "no such key: " ++ key))
  | some cell => if cell.deleted then .error (.notFound (text "tombstoned: " ++ key)) else .ok (f cell)

/-- Opening the store again completes the deletes that found nothing. -/
def reopen (m : VersionedMap) : VersionedMap where
  cells := fun key => if key ∈ m.missed then (m.cells key).map Cell.bury else m.cells key
  missed := []

end VersionedMap

/-! ## Requests -/

inductive StoreRequest where
  | put (key data : Bytes) (now : Int)
  | putWithVersion (key data : Bytes) (version : ℕ) (now : Int)
  | putConditional (key data : Bytes) (expectedVersion : ℕ) (requestId : Bytes) (now : Int)
  | delete (key : Bytes)
  | get (key : Bytes)
  | head (key : Bytes)
  | reopen (now : Int)
  deriving DecidableEq, Repr

inductive StoreAnswer where
  | row (result : StatusOr ObjectMetadata)
  | bytes (result : StatusOr Bytes)
  | status (status : Status)
  | opened

def LocalObjectStore.serve (s : LocalObjectStore) : StoreRequest → LocalObjectStore × StoreAnswer
  | .put key data now => (s.put key data now).map id .row
  | .putWithVersion key data version now => (s.putWithVersion key data version now).map id .row
  | .putConditional key data expectedVersion requestId now =>
      (s.putConditional key data expectedVersion requestId now).map id .row
  | .delete key => (s.delete key).map id .status
  | .get key => (s, .bytes (s.get key))
  | .head key => (s, .row (s.head key))
  | .reopen now => (.openStore s.disk now, .opened)

/-- A write with arguments that are checked first. -/
def VersionedMap.checked (m : VersionedMap) (req : WriteRequest) (now : Int) :
    VersionedMap × StatusOr ObjectMetadata :=
  if req.key = [] then (m, .error (.invalidArgument (text "empty key"))) else m.write req now

def VersionedMap.serve (m : VersionedMap) : StoreRequest → VersionedMap × StoreAnswer
  | .put key data now => (m.checked (.put key data) now).map id .row
  | .putWithVersion key data version now =>
      if key ≠ [] ∧ version = 0 then
        (m, .row (.error (.invalidArgument (text "explicit version must be non-zero"))))
      else (m.checked (.putWithVersion key data version) now).map id .row
  | .putConditional key data expectedVersion requestId now =>
      (m.checked (.putConditional key data expectedVersion requestId) now).map id .row
  | .delete key => (m.delete key).map id .status
  | .get key => (m, .bytes (m.read key Cell.data))
  | .head key => (m, .row (m.read key fun cell => cell.describe key))
  | .reopen _ => (m.reopen, .opened)

/-- The request stays within the keys of `K` and its texts read back whole. -/
def StoreRequest.Plain (K : Set Bytes) : StoreRequest → Prop
  | .put key _ _ | .putWithVersion key _ _ _ | .delete key | .get key | .head key => key ∈ K
  | .putConditional key _ _ requestId _ => key ∈ K ∧ (0 : UInt8) ∉ requestId
  | .reopen _ => True

/-! ## The relation -/

/-- The rows are those of the map. -/
def RowsOf (d : Disk) (cells : Bytes → Option Cell) : Prop :=
  ∀ key, (d.slot key).row = (cells key).map (Cell.describe · key)

structure Holds (K : Set Bytes) (s : LocalObjectStore) (m : VersionedMap) : Prop where
  whole : s.disk.wal.torn = false
  fresh : ∀ rec ∈ s.disk.wal.records, rec.seq < s.nextSeq
  rows : RowsOf s.disk m.cells
  files : ∀ key cell, m.cells key = some cell →
    key ∈ K ∧ (0 : UInt8) ∉ cell.requestId ∧ (s.disk.slot key).file = some cell.data
  opened : ∀ rec ∈ Wal.openRecords s.disk.wal.records, rec.op = .delete
  missed : ∀ key, key ∈ m.missed ↔ ∃ rec ∈ Wal.openRecords s.disk.wal.records, rec.key = key

section Log
variable {records : List WalRecord} {seq : ℕ}

theorem uncommitted_of_fresh (fresh : ∀ rec ∈ records, rec.seq < seq) : seq ∉ Wal.committed records := by
  intro member
  obtain ⟨rec, found, same⟩ := List.mem_map.mp member
  have below := fresh rec (List.mem_filter.mp found).1
  omega

/-- A record that is closed at once leaves the open ones as they were. -/
theorem openRecords_bracket {rec : WalRecord} (fresh : ∀ rec ∈ records, rec.seq < seq)
    (plain : rec.isCommit = false) (numbered : rec.seq = seq) :
    Wal.openRecords (records ++ [rec] ++ [.commit seq]) = Wal.openRecords records := by
  rw [openRecords_commit, openRecords_begin plain (numbered ▸ uncommitted_of_fresh fresh),
    List.filter_append]
  have closed : [rec].filter (·.seq ≠ seq) = [] := by simp [numbered]
  rw [closed, List.append_nil, List.filter_eq_self]
  intro other member
  have below := fresh other (List.mem_filter.mp member).1
  simp only [ne_eq, decide_eq_true_eq]
  omega

end Log

/-! ## Each request keeps the relation -/

namespace Holds
variable {K : Set Bytes} {s : LocalObjectStore} {m : VersionedMap}

theorem start (K : Set Bytes) (now : Int) : Holds K (.openStore .empty now) .empty where
  whole := rfl
  fresh := List.forall_mem_nil _
  rows := fun key => by simp [VersionedMap.empty, LocalObjectStore.openStore, recover, Disk.empty, Disk.slot,
    Wal.replay, Wal.empty]
  files := nofun
  opened := List.forall_mem_nil _
  missed := fun key => ⟨fun member => absurd member List.not_mem_nil,
    fun ⟨_, member, _⟩ => absurd member List.not_mem_nil⟩

variable (digests : Set.InjOn keyDigest K) (plain : ∀ key ∈ K, (0 : UInt8) ∉ key) (h : Holds K s m)
include h

/-- The open records of a key are deletes, and there are some exactly for the
keys that a delete missed. -/
theorem recovered (now : Int) (key : Bytes) :
    (recover s.disk now).slot key =
      { s.disk.slot key with row := (m.reopen.cells key).map (Cell.describe · key), opened := [] } := by
  have deletes : ∀ rec ∈ (s.disk.slot key).opened, rec.op = .delete :=
    fun rec member => h.opened rec (List.mem_filter.mp member).1
  have touched : (s.disk.slot key).opened = [] ↔ key ∉ m.missed := by
    rw [h.missed]
    simp [Disk.slot, List.filter_eq_nil_iff]
  rw [recover_slot, foldl_deletes deletes, h.rows key]
  simp only [VersionedMap.reopen]
  by_cases missed : key ∈ m.missed
  · rw [if_neg fun none => touched.mp none missed, if_pos missed, bury, Option.map_map, Option.map_map]
    rfl
  · rw [if_pos (touched.mpr missed), if_neg missed]

theorem reopen (now : Int) : Holds K (.openStore s.disk now) m.reopen where
  whole := rfl
  fresh := List.forall_mem_nil _
  rows := fun key => congrArg Slot.row (h.recovered now key)
  files := by
    intro key cell found
    -- a buried cell keeps its payload
    have before : ∃ old, m.cells key = some old ∧ old.data = cell.data ∧ old.requestId = cell.requestId := by
      simp only [VersionedMap.reopen] at found
      split at found
      · obtain ⟨old, held, rfl⟩ := Option.map_eq_some_iff.mp found
        exact ⟨old, held, rfl, rfl⟩
      · exact ⟨cell, found, rfl, rfl⟩
    obtain ⟨old, held, data, requestId⟩ := before
    obtain ⟨inside, plain, file⟩ := h.files key old held
    refine ⟨inside, requestId ▸ plain, ?_⟩
    calc ((recover s.disk now).slot key).file
        = (s.disk.slot key).file := by rw [h.recovered now key]
      _ = some cell.data := by rw [file, data]
  opened := List.forall_mem_nil _
  missed := fun key => ⟨fun member => absurd member List.not_mem_nil,
    fun ⟨_, member, _⟩ => absurd member List.not_mem_nil⟩

/-- The version that a write finds, and whether it is a retry. -/
theorem plan (req : WriteRequest) (now : Int) :
    planPut s.disk req now =
      match m.cells req.key with
      | none => planWrite req 0 now
      | some cell =>
          if req.requestId ≠ [] ∧ cell.requestId = req.requestId then .answer (.ok (readRow (cell.describe req.key)))
          else planWrite req cell.version now := by
  have row := h.rows req.key
  unfold planPut SqliteMetadataStore.peek
  cases found : m.cells req.key with
  | none =>
      rw [found] at row
      have lookup : s.disk.metadata.objects[req.key]? = none := row
      simp [lookup]
  | some cell =>
      rw [found] at row
      have lookup : s.disk.metadata.objects[req.key]? = some (cell.describe req.key) := row
      have plain := cString_eq (h.files req.key cell found).2.1
      simp [lookup, readRow, Cell.describe, plain]

include plain in
theorem readRow_describe {key : Bytes} {cell : Cell} (found : m.cells key = some cell) :
    readRow (cell.describe key) = cell.describe key := by
  obtain ⟨inside, requestId, -⟩ := h.files key cell found
  simp [readRow, Cell.describe, cString_eq (plain key inside), cString_eq requestId,
    cString_eq (sha256Hex_nonzero _)]

/-- A mutation that opens and closes its own log record and writes the row of one
cell, with the payload of that cell in place. -/
theorem setCell {d : Disk} {rec : WalRecord} {key : Bytes} (cell : Cell)
    (inside : key ∈ K) (requestId : (0 : UInt8) ∉ cell.requestId)
    (wal : d.wal = (s.disk.wal.appendRecord rec).appendRecord (.commit s.nextSeq))
    (plain : rec.isCommit = false) (numbered : rec.seq = s.nextSeq)
    (row : d.metadata.objects = s.disk.metadata.objects.insert key (cell.describe key))
    (file : d.files[keyDigest key]? = some cell.data)
    (others : ∀ other ∈ K, other ≠ key → d.files[keyDigest other]? = s.disk.files[keyDigest other]?) :
    Holds K ⟨d, s.nextSeq + 1⟩ (m.setCell key cell) := by
  have records : d.wal.records = s.disk.wal.records ++ [rec] ++ [.commit s.nextSeq] := by
    simp [wal, Wal.appendRecord, h.whole]
  have opened : Wal.openRecords d.wal.records = Wal.openRecords s.disk.wal.records := by
    rw [records]
    exact openRecords_bracket h.fresh plain numbered
  refine ⟨?_, ?_, ?_, ?_, ?_, ?_⟩
  · simp [wal, Wal.appendRecord, h.whole]
  · intro other member
    rw [records, List.mem_append, List.mem_append] at member
    rcases member with (old | new) | commit
    · exact Nat.lt_succ_of_lt (h.fresh other old)
    · rw [List.mem_singleton.mp new, numbered]
      exact Nat.lt_succ_self _
    · rw [List.mem_singleton.mp commit]
      exact Nat.lt_succ_self _
  · intro other
    have lookup : (d.slot other).row = (s.disk.metadata.objects.insert key (cell.describe key))[other]? := by
      rw [← row]
      rfl
    rw [lookup, OrderedMap.lookup_insert]
    split
    · next same =>
        subst same
        rw [VersionedMap.setCell_self]
        rfl
    · next ne =>
        rw [VersionedMap.setCell_ne m cell (Ne.symm ne)]
        exact h.rows other
  · intro other held found
    by_cases same : other = key
    · subst same
      rw [VersionedMap.setCell_self] at found
      cases found
      exact ⟨inside, requestId, file⟩
    · rw [VersionedMap.setCell_ne m cell same] at found
      obtain ⟨member, plain, stored⟩ := h.files other held found
      exact ⟨member, plain, (others other member same).trans stored⟩
  · rw [opened]
    exact h.opened
  · rw [opened]
    exact h.missed

include digests plain in
theorem doPut {req : WriteRequest} (inside : req.key ∈ K) (requestId : (0 : UInt8) ∉ req.requestId) (now : Int) :
    Holds K (s.doPut req now).1 (m.write req now).1 ∧ (s.doPut req now).2 = (m.write req now).2 := by
  have fresh (version : ℕ) (planned : planPut s.disk req now = planWrite req version now) :
      Holds K (s.doPut req now).1 (m.writeOver req version now).1 ∧
        (s.doPut req now).2 = (m.writeOver req version now).2 := by
    unfold LocalObjectStore.doPut VersionedMap.writeOver
    rw [planned, planWrite]
    by_cases conflict : req.conditional = true ∧ version ≠ req.expectedVersion
    · rw [if_pos conflict, if_pos conflict]
      exact ⟨h, rfl⟩
    · rw [if_neg conflict, if_neg conflict]
      refine ⟨h.setCell _ inside requestId rfl rfl rfl rfl (OrderedMap.lookup_insert_self _ _ _) ?_, rfl⟩
      intro other member ne
      exact OrderedMap.lookup_insert_ne _ _ fun same => ne (digests member inside same.symm)
  have planned := h.plan req now
  unfold VersionedMap.write
  cases found : m.cells req.key with
  | none =>
      rw [found] at planned
      exact fresh 0 planned
  | some cell =>
      rw [found] at planned
      dsimp only at planned ⊢
      by_cases retry : req.requestId ≠ [] ∧ cell.requestId = req.requestId
      · rw [if_pos retry, h.readRow_describe plain found] at planned
        rw [if_pos retry, LocalObjectStore.doPut, planned]
        exact ⟨h, rfl⟩
      · rw [if_neg retry] at planned
        rw [if_neg retry]
        exact fresh cell.version planned

theorem miss (key : Bytes) :
    Holds K ⟨s.disk.appendBegin s.nextSeq .delete key 0 [] 0, s.nextSeq + 1⟩ (m.miss key).1 := by
  have records : (s.disk.appendBegin s.nextSeq .delete key 0 [] 0).wal.records =
      s.disk.wal.records ++ [.begin s.nextSeq .delete key 0 [] 0] := by
    simp [Disk.appendBegin, Wal.appendRecord, h.whole]
  have opened : Wal.openRecords (s.disk.wal.records ++ [.begin s.nextSeq .delete key 0 [] 0]) =
      Wal.openRecords s.disk.wal.records ++ [.begin s.nextSeq .delete key 0 [] 0] :=
    openRecords_begin rfl (uncommitted_of_fresh h.fresh)
  refine ⟨?_, ?_, h.rows, h.files, ?_, ?_⟩
  · simp [Disk.appendBegin, Wal.appendRecord, h.whole]
  · intro rec member
    rw [records, List.mem_append] at member
    rcases member with old | new
    · exact Nat.lt_succ_of_lt (h.fresh rec old)
    · rw [List.mem_singleton.mp new]
      exact Nat.lt_succ_self _
  · intro rec member
    rw [records, opened, List.mem_append] at member
    rcases member with old | new
    · exact h.opened rec old
    · rw [List.mem_singleton.mp new]
      rfl
  · intro other
    rw [records, opened]
    simp only [VersionedMap.miss, List.mem_cons, h.missed, List.mem_append, List.not_mem_nil, or_false]
    constructor
    · rintro (rfl | ⟨rec, member, named⟩)
      · exact ⟨_, .inr rfl, rfl⟩
      · exact ⟨rec, .inl member, named⟩
    · rintro ⟨rec, member | rfl, named⟩
      · exact .inr ⟨rec, member, named⟩
      · exact .inl named.symm

theorem delete (key : Bytes) :
    Holds K (s.delete key).1 (m.delete key).1 ∧ (s.delete key).2 = (m.delete key).2 := by
  have row := h.rows key
  unfold LocalObjectStore.delete VersionedMap.delete
  cases found : m.cells key with
  | none =>
      rw [found] at row
      have lookup : s.disk.metadata.objects[key]? = none := row
      simp only [Disk.deleteRow, Disk.appendBegin, SqliteMetadataStore.delete, lookup]
      exact ⟨h.miss key, rfl⟩
  | some cell =>
      rw [found] at row
      have lookup : s.disk.metadata.objects[key]? = some (cell.describe key) := row
      obtain ⟨inside, requestId, file⟩ := h.files key cell found
      cases gone : cell.deleted with
      | true =>
          have buried : (cell.describe key).deleted = true := gone
          simp only [Disk.deleteRow, Disk.appendBegin, SqliteMetadataStore.delete, lookup, buried, gone, if_true]
          exact ⟨h.miss key, rfl⟩
      | false =>
          have live : (cell.describe key).deleted = false := gone
          simp only [Disk.deleteRow, Disk.appendBegin, SqliteMetadataStore.delete, lookup, live, gone,
            Bool.false_eq_true, if_false]
          exact ⟨h.setCell cell.bury inside requestId rfl rfl rfl rfl file (fun _ _ _ => rfl), rfl⟩

include plain in
theorem head (key : Bytes) : s.head key = m.read key fun cell => cell.describe key := by
  have row := h.rows key
  unfold LocalObjectStore.head Disk.head SqliteMetadataStore.get VersionedMap.read
  cases found : m.cells key with
  | none =>
      rw [found] at row
      have lookup : s.disk.metadata.objects[key]? = none := row
      rw [lookup]
  | some cell =>
      rw [found] at row
      have lookup : s.disk.metadata.objects[key]? = some (cell.describe key) := row
      rw [lookup]
      dsimp only
      rw [h.readRow_describe plain found]
      rfl

include plain in
theorem get (key : Bytes) : s.get key = m.read key Cell.data := by
  have described : s.disk.metadata.get key = m.read key fun cell => cell.describe key := h.head plain key
  unfold LocalObjectStore.get Disk.get
  rw [described]
  unfold VersionedMap.read
  cases found : m.cells key with
  | none => rfl
  | some cell =>
      have file : s.disk.files[keyDigest key]? = some cell.data := (h.files key cell found).2.2
      cases gone : cell.deleted with
      | true => simp [gone]
      | false => simp [gone, Disk.readWholeFile, file, Cell.describe]

end Holds

/-! ## Every client -/

section Client
variable {K : Set Bytes} {s : LocalObjectStore} {m : VersionedMap}

/-- The empty key is turned away before anything is read. -/
theorem Holds.checked (digests : Set.InjOn keyDigest K) (plain : ∀ key ∈ K, (0 : UInt8) ∉ key)
    (h : Holds K s m) (req : WriteRequest) (inside : req.key ∈ K) (requestId : (0 : UInt8) ∉ req.requestId)
    (now : Int) {result : LocalObjectStore × StatusOr ObjectMetadata}
    (shape : result = if req.key = [] then (s, .error (.invalidArgument (text "empty key"))) else s.doPut req now) :
    Holds K result.1 (m.checked req now).1 ∧ result.2 = (m.checked req now).2 := by
  subst shape
  unfold VersionedMap.checked
  split
  · exact ⟨h, rfl⟩
  · exact h.doPut digests plain inside requestId now

theorem Holds.serve (digests : Set.InjOn keyDigest K) (plain : ∀ key ∈ K, (0 : UInt8) ∉ key) (h : Holds K s m)
    {req : StoreRequest} (fine : req.Plain K) :
    Holds K (s.serve req).1 (m.serve req).1 ∧ (s.serve req).2 = (m.serve req).2 := by
  have none : (0 : UInt8) ∉ ([] : Bytes) := List.not_mem_nil
  cases req with
  | put key data now =>
      obtain ⟨after, same⟩ := h.checked digests plain (.put key data) fine none now rfl
      exact ⟨after, congrArg StoreAnswer.row same⟩
  | putWithVersion key data version now =>
      simp only [LocalObjectStore.serve, VersionedMap.serve]
      by_cases zero : key ≠ [] ∧ version = 0
      · rw [if_pos zero, LocalObjectStore.putWithVersion, if_neg zero.1, if_pos zero.2]
        exact ⟨h, rfl⟩
      · have shape : s.putWithVersion key data version now =
            if key = [] then (s, .error (.invalidArgument (text "empty key")))
            else s.doPut (.putWithVersion key data version) now := by
          unfold LocalObjectStore.putWithVersion
          by_cases blank : key = []
          · rw [if_pos blank, if_pos blank]
          · rw [if_neg blank, if_neg blank, if_neg fun none => zero ⟨blank, none⟩]
        obtain ⟨after, same⟩ := h.checked digests plain (.putWithVersion key data version) fine none now shape
        rw [if_neg zero]
        exact ⟨after, congrArg StoreAnswer.row same⟩
  | putConditional key data expectedVersion requestId now =>
      obtain ⟨after, same⟩ :=
        h.checked digests plain (.putConditional key data expectedVersion requestId) fine.1 fine.2 now rfl
      exact ⟨after, congrArg StoreAnswer.row same⟩
  | delete key =>
      obtain ⟨after, same⟩ := h.delete key
      exact ⟨after, congrArg StoreAnswer.status same⟩
  | get key => exact ⟨h, congrArg StoreAnswer.bytes (h.get plain key)⟩
  | head key => exact ⟨h, congrArg StoreAnswer.row (h.head plain key)⟩
  | reopen now => exact ⟨h.reopen now, rfl⟩

/-- A store that starts empty answers every sequence of requests, with the store
closed and opened again anywhere in it, as the versioned map does. -/
theorem store_refines_map (digests : Set.InjOn keyDigest K) (plain : ∀ key ∈ K, (0 : UInt8) ∉ key)
    {reqs : List StoreRequest} (fine : ∀ req ∈ reqs, req.Plain K) (now : Int) :
    outputs LocalObjectStore.serve (.openStore .empty now) reqs = outputs VersionedMap.serve .empty reqs := by
  apply outputs_eq (Holds K) _ (Holds.start K now)
  intro req member s m related
  exact related.serve digests plain (fine req member)

/-- A delete finds nothing, the key is written after it, and the store is opened
again. -/
def missedDelete : List StoreRequest :=
  [.delete [107], .put [107] [120] 5, .get [107], .reopen 6, .get [107]]

theorem store_refines_map_missedDelete :
    outputs LocalObjectStore.serve (.openStore .empty 0) missedDelete = outputs VersionedMap.serve .empty missedDelete ∧
    (outputs VersionedMap.serve .empty missedDelete)[2]? = some (.bytes (.ok [120])) ∧
    (outputs VersionedMap.serve .empty missedDelete)[4]? =
      some (.bytes (.error (.notFound (text "tombstoned: " ++ [107])))) := by
  have plain : ∀ key ∈ ({[107]} : Set Bytes), (0 : UInt8) ∉ key := by
    rintro _ rfl
    decide
  have fine : ∀ req ∈ missedDelete, req.Plain {[107]} := by
    simp [missedDelete, StoreRequest.Plain]
  exact ⟨store_refines_map (Set.injOn_singleton _ _) plain fine 0, rfl, rfl⟩

end Client
end Dos.Storage
