import DistributedObjectStorage.Storage.StoreFaults

/-!
# One write with one failing call

A write gives up at the call that fails and returns its error. From the rename
on the payload file is the new one, while the row stays the old one until the
metadata commit: an error in between leaves a row that does not fit its file.
-/
namespace Dos.Storage

/-- The calls of `DoPut` that can fail. -/
inductive FailurePoint where
  | preparePeek | stepPeek
  | writeBegin (torn : Bool) | syncBegin
  | createDir | openTemp | writeTemp | syncTemp | closeTemp
  | rename | openDir | syncDir
  | preparePut | stepPut
  | writeCommit (torn : Bool) | syncCommit
  deriving DecidableEq, Repr

namespace FailurePoint

/-- The disk step that the call belongs to; the row is read before the first. -/
def stage : FailurePoint → Option PutStage
  | .preparePeek | .stepPeek => none
  | .writeBegin _ | .syncBegin => some .begin
  | .createDir | .openTemp | .writeTemp | .syncTemp | .closeTemp => some .stage
  | .rename | .openDir | .syncDir => some .rename
  | .preparePut | .stepPut => some .row
  | .writeCommit _ | .syncCommit => some .commit

/-- What the step has done when the call fails. A record is written before it
is synced, a file renamed before its directory is. -/
def left : FailurePoint → Fault
  | .writeBegin torn | .writeCommit torn => if torn then .part else .nothing
  | .syncBegin | .syncCommit | .openDir | .syncDir => .whole
  | _ => .nothing

/-- The new payload is in place and the new row is not. -/
def afterRename : FailurePoint → Bool
  | .openDir | .syncDir | .preparePut | .stepPut => true
  | _ => false

theorem afterRename_early {point : FailurePoint} (early : point.stage = none) :
    point.afterRename = false := by
  cases point with
  | preparePeek | stepPeek => rfl
  | _ => cases early

def message : FailurePoint → Bytes
  | .preparePeek | .preparePut => text "prepare failed: "
  | .stepPeek => text "peek failed: "
  | .writeBegin _ | .writeCommit _ => text "wal write: "
  | .syncBegin | .syncCommit => text "wal fsync: "
  | .createDir => text "create object dir: "
  | .openTemp => text "open temp file: "
  | .writeTemp => text "write temp file: "
  | .syncTemp => text "fsync temp file: "
  | .closeTemp => text "close temp file: "
  | .rename => text "rename temp file: "
  | .openDir => text "open dir for fsync: "
  | .syncDir => text "fsync dir: "
  | .stepPut => text "put failed: "

end FailurePoint

/-- The failing call and the text that the system gives for its error. -/
structure Failure where
  point : FailurePoint
  reason : Bytes
  deriving DecidableEq, Repr

namespace Failure

def status (f : Failure) : Status := .ioError (f.point.message ++ f.reason)

/-- The failure, if it strikes in the step. -/
def inStage (failure : Option Failure) (todo : Option PutStage) : Option Failure :=
  failure.filter (·.point.stage = todo)

end Failure

/-- The disk steps of a write in order, up to the one that fails. The last one
may fail without anyone noticing. -/
def runStages (failure : Option Failure) (seq : ℕ) (row : ObjectMetadata) (data : Bytes) :
    List PutStage → Disk → Disk × Option Status
  | [], d => (d, none)
  | todo :: rest, d =>
      match Failure.inStage failure (some todo) with
      | none => runStages failure seq row data rest ((Job.put todo seq row data).effect d)
      | some f =>
          ((Job.put todo seq row data).fault d f.point.left,
            if todo = .commit then none else some f.status)

def putStages : List PutStage := [.begin, .stage, .rename, .row, .commit]

namespace LocalObjectStore

def doPutFailing (s : LocalObjectStore) (req : WriteRequest) (now : Int) (failure : Option Failure) :
    LocalObjectStore × StatusOr ObjectMetadata :=
  match Failure.inStage failure none with
  | some f => (s, .error f.status)
  | none =>
      match planPut s.disk req now with
      | .answer result => (s, result)
      | .write row =>
          let (d, error) := runStages failure s.nextSeq row req.data putStages s.disk
          (⟨d, s.nextSeq + 1⟩, error.elim (.ok row) .error)

theorem doPutFailing_none (s : LocalObjectStore) (req : WriteRequest) (now : Int) :
    s.doPutFailing req now none = s.doPut req now := by
  unfold doPutFailing doPut
  cases planPut s.disk req now with
  | answer result => rfl
  | write row => rfl

end LocalObjectStore

/-- The three calls that write. -/
inductive WriteCall where
  | put (key data : Bytes)
  | putWithVersion (key data : Bytes) (version : ℕ)
  | putConditional (key data : Bytes) (expectedVersion : ℕ) (requestId : Bytes)
  deriving DecidableEq, Repr

namespace WriteCall

def mutation : WriteCall → Mutation
  | .put key data => .put key data
  | .putWithVersion key data version => .putWithVersion key data version
  | .putConditional key data expectedVersion requestId => .putConditional key data expectedVersion requestId

def key (call : WriteCall) : Bytes := call.mutation.key

def data : WriteCall → Bytes
  | .put _ data | .putWithVersion _ data _ | .putConditional _ data _ _ => data

end WriteCall

namespace LocalObjectStore

def write (s : LocalObjectStore) (call : WriteCall) (now : Int) (failure : Option Failure) :
    LocalObjectStore × StatusOr ObjectMetadata :=
  match call with
  | .put key data =>
      if key = [] then (s, .error (.invalidArgument (text "empty key")))
      else s.doPutFailing (.put key data) now failure
  | .putWithVersion key data version =>
      if key = [] then (s, .error (.invalidArgument (text "empty key")))
      else if version = 0 then
        (s, .error (.invalidArgument (text "explicit version must be non-zero")))
      else s.doPutFailing (.putWithVersion key data version) now failure
  | .putConditional key data expectedVersion requestId =>
      if key = [] then (s, .error (.invalidArgument (text "empty key")))
      else s.doPutFailing (.putConditional key data expectedVersion requestId) now failure

/-- Without a failure these are the operations of the store. -/
theorem write_none (s : LocalObjectStore) (now : Int) :
    (∀ key data, s.write (.put key data) now none = s.put key data now) ∧
    (∀ key data version, s.write (.putWithVersion key data version) now none =
      s.putWithVersion key data version now) ∧
    ∀ key data expectedVersion requestId,
      s.write (.putConditional key data expectedVersion requestId) now none =
        s.putConditional key data expectedVersion requestId now := by
  simp only [write, doPutFailing_none]
  exact ⟨fun _ _ => rfl, fun _ _ _ => rfl, fun _ _ _ _ => rfl⟩

/-- A call with invalid arguments does nothing; any other is a `DoPut`. -/
theorem write_cases (s : LocalObjectStore) (call : WriteCall) (now : Int) (failure : Option Failure) :
    (call.mutation.request = none ∧ (s.write call now failure).1 = s) ∨
    ∃ req, call.mutation.request = some req ∧ req.key = call.key ∧ req.data = call.data ∧
      s.write call now failure = s.doPutFailing req now failure := by
  cases call with
  | put key data =>
      by_cases named : key = []
      · exact .inl ⟨if_pos named, by simp only [write, if_pos named]⟩
      · exact .inr ⟨_, if_neg named, rfl, rfl, if_neg named⟩
  | putWithVersion key data version =>
      by_cases named : key = []
      · exact .inl ⟨if_pos (.inl named), by simp only [write, if_pos named]⟩
      · by_cases numbered : version = 0
        · exact .inl ⟨if_pos (.inr numbered), by simp only [write, if_neg named, if_pos numbered]⟩
        · refine .inr ⟨_, if_neg (not_or.mpr ⟨named, numbered⟩), rfl, rfl, ?_⟩
          simp only [write, if_neg named, if_neg numbered]
  | putConditional key data expectedVersion requestId =>
      by_cases named : key = []
      · exact .inl ⟨if_pos named, by simp only [write, if_pos named]⟩
      · exact .inr ⟨_, if_neg named, rfl, rfl, if_neg named⟩

end LocalObjectStore

/-! ## The call in the machine with I/O errors -/

namespace FaultyStore
variable {shard : Bytes → ℕ} {s : FaultyStore} {n : ℕ}

/-- The disk steps of one write with nothing else going on. -/
def stepsOf (failure : Option Failure) (stages : List PutStage) : List FaultyAction :=
  stages.map fun todo => .step 0 ((Failure.inStage failure (some todo)).map (·.point.left))

theorem stepsOf_cons (failure : Option Failure) (todo : PutStage) (rest : List PutStage) (s : FaultyStore) :
    (stepsOf failure (todo :: rest)).foldl (exec shard) s = (stepsOf failure rest).foldl (exec shard)
      (s.exec shard (.step 0 ((Failure.inStage failure (some todo)).map (·.point.left)))) := rfl

theorem stepsOf_idle (failure : Option Failure) (idle : s.mode = .running n []) (stages : List PutStage) :
    (stepsOf failure stages).foldl (exec shard) s = s := by
  induction stages with
  | nil => rfl
  | cons todo rest ih =>
      have still : s.exec shard (.step 0 ((Failure.inStage failure (some todo)).map (·.point.left))) = s := by
        simp [exec, idle]
      rw [stepsOf_cons, still, ih]

/-- A write goes through its stages in order. -/
theorem next_stage {todo : PutStage} {rest : List PutStage} (suffix : todo :: rest <:+ putStages) (seq : ℕ)
    (row : ObjectMetadata) (data : Bytes) (d : Disk) :
    (Job.put todo seq row data).next d = rest.head?.map (Job.put · seq row data) := by
  simp only [putStages, List.suffix_cons_iff, List.suffix_nil, List.cons.injEq, reduceCtorEq,
    or_false] at suffix
  rcases suffix with ⟨rfl, rfl⟩ | ⟨rfl, rfl⟩ | ⟨rfl, rfl⟩ | ⟨rfl, rfl⟩ | ⟨rfl, rfl⟩ <;> rfl

theorem stepsOf_run (failure : Option Failure) (request : Option WriteRequest) (seq : ℕ) (row : ObjectMetadata)
    (data : Bytes) {stages : List PutStage} (suffix : stages <:+ putStages)
    (mode : s.mode = .running n (stages.head?.toList.map fun todo => ⟨request, .put todo seq row data⟩)) :
    ((stepsOf failure stages).foldl (exec shard) s).disk = (runStages failure seq row data stages s.disk).1 ∧
      ((stepsOf failure stages).foldl (exec shard) s).mode = .running n [] := by
  induction stages generalizing s with
  | nil => exact ⟨rfl, mode⟩
  | cons todo rest ih =>
      rw [stepsOf_cons, runStages]
      have stepped (fault : Option Fault) : s.exec shard (.step 0 fault) =
          s.advance n [⟨request, .put todo seq row data⟩] 0 ⟨request, .put todo seq row data⟩ fault := by
        simp [exec, mode]
      rw [stepped]
      cases Failure.inStage failure (some todo) with
      | none =>
          refine ih ((List.suffix_cons todo rest).trans suffix) ?_
          cases rest <;> simp [advance, next_stage suffix]
      | some f =>
          have idle : (s.advance n [⟨request, .put todo seq row data⟩] 0 ⟨request, .put todo seq row data⟩
              (some f.point.left)).mode = .running n [] := by simp [advance]
          rw [Option.map_some, stepsOf_idle failure idle]
          exact ⟨rfl, idle⟩

theorem run_alone (shard : Bytes → ℕ) {seq : ℕ} (running : s.mode = .running seq []) {m : Mutation}
    {req : WriteRequest} (valid : m.request = some req) (now : Int) (failure : Option Failure) :
    let after := (.start m now (Failure.inStage failure none).isSome :: stepsOf failure putStages).foldl (exec shard) s
    let whole := (⟨s.disk, seq⟩ : LocalObjectStore).doPutFailing req now failure
    after.disk = whole.1.disk ∧ after.mode = .running whole.1.nextSeq [] := by
  intro after whole
  have begun : s.exec shard (.start m now (Failure.inStage failure none).isSome) =
      { s with requests := req :: s.requests }.write seq [] req now (Failure.inStage failure none).isSome := by
    cases m with
    | delete key => cases valid
    | _ => simp [exec, running, begin, valid]
  simp only [after, whole, List.foldl_cons, begun]
  have quiet (t : FaultyStore) (disk : t.disk = s.disk) (mode : t.mode = .running seq []) :
      ((stepsOf failure putStages).foldl (exec shard) t).disk = s.disk ∧
        ((stepsOf failure putStages).foldl (exec shard) t).mode = .running seq [] := by
    rw [stepsOf_idle failure mode]
    exact ⟨disk, mode⟩
  unfold FaultyStore.write LocalObjectStore.doPutFailing
  cases Failure.inStage failure none with
  | some f => exact quiet _ rfl running
  | none =>
      simp only [Option.isSome_none, Bool.false_eq_true, if_false]
      cases planPut s.disk req now with
      | answer result => cases result <;> exact quiet _ rfl running
      | write row => exact stepsOf_run failure (some req) seq row req.data (List.suffix_refl _) rfl

end FaultyStore
/-! ## What an error leaves -/

/-- No row changes before an error, and of the payload files only the one that
the rename has replaced. -/
theorem runStages_failed {f : Failure} {seq : ℕ} {row : ObjectMetadata} {data : Bytes} {d : Disk}
    {status : Status} (failed : (runStages (some f) seq row data putStages d).2 = some status) :
    (runStages (some f) seq row data putStages d).1.metadata = d.metadata ∧
      (runStages (some f) seq row data putStages d).1.files =
        if f.point.afterRename then d.files.insert (keyDigest row.key) data else d.files := by
  obtain ⟨point, reason⟩ := f
  cases point with
  | preparePeek | stepPeek | writeCommit torn | syncCommit => cases failed
  | writeBegin torn => cases torn <;> exact ⟨rfl, rfl⟩
  | _ => exact ⟨rfl, rfl⟩

namespace LocalObjectStore

/-- The request gets to the rename and fails between it and the metadata commit. -/
def places (s : LocalObjectStore) (req : WriteRequest) (now : Int) (failure : Option Failure) : Bool :=
  match planPut s.disk req now with
  | .answer _ => false
  | .write _ => failure.any (·.point.afterRename)

def exposes (s : LocalObjectStore) (call : WriteCall) (now : Int) (failure : Option Failure) : Bool :=
  call.mutation.request.any (s.places · now failure)

section Failed
variable {s : LocalObjectStore} {req : WriteRequest} {now : Int} {failure : Option Failure} {status : Status}

/-- What a failed `DoPut` leaves on the disk. -/
theorem doPutFailing_failed (failed : (s.doPutFailing req now failure).2 = .error status) :
    (s.doPutFailing req now failure).1.disk.metadata = s.disk.metadata ∧
      (s.doPutFailing req now failure).1.disk.files =
        if s.places req now failure then s.disk.files.insert (keyDigest req.key) req.data
        else s.disk.files := by
  unfold doPutFailing at failed ⊢
  unfold places
  cases struck : Failure.inStage failure none with
  | some f =>
      obtain ⟨rfl, early⟩ := Option.filter_eq_some_iff.mp struck
      have unplaced : f.point.afterRename = false :=
        FailurePoint.afterRename_early (of_decide_eq_true early)
      cases planPut s.disk req now with
      | answer result => exact ⟨rfl, rfl⟩
      | write row => simp [unplaced]
  | none =>
      simp only [struck] at failed ⊢
      cases plan : planPut s.disk req now with
      | answer result => exact ⟨rfl, rfl⟩
      | write row =>
          simp only [plan] at failed ⊢
          have key : row.key = req.key := by rw [(planPut_newRow plan).2.2, newRow]
          cases failure with
          | none => cases failed
          | some f =>
              cases error : (runStages (some f) s.nextSeq row req.data putStages s.disk).2 with
              | none =>
                  rw [error] at failed
                  cases failed
              | some status =>
                  rw [← key]
                  exact runStages_failed error

end Failed

/-- After a write of a readable key that returned an error the key reads as
before exactly if the write did not fail between the rename and the metadata
commit, or wrote the bytes that were there. -/
theorem failedWrite_intact_iff {s : LocalObjectStore} {call : WriteCall} {now : Int}
    {failure : Option Failure} {stored : Bytes} {row : ObjectMetadata} {status : Status}
    (read : s.get call.key = .ok stored) (head : s.head call.key = .ok row)
    (failed : (s.write call now failure).2 = .error status) :
    (s.write call now failure).1.get call.key = .ok stored ∧
        (s.write call now failure).1.head call.key = .ok row ↔
      s.exposes call now failure = false ∨ call.data = stored := by
  rcases s.write_cases call now failure with ⟨invalid, same⟩ | ⟨req, valid, key, data, whole⟩
  · rw [same]
    exact iff_of_true ⟨read, head⟩ (.inl (by simp only [exposes, invalid, Option.any_none]))
  rw [whole] at failed ⊢
  obtain ⟨metadata, files⟩ := doPutFailing_failed failed
  rw [← key] at read head ⊢
  rw [← data]
  have rows : ((s.doPutFailing req now failure).1.disk.slot req.key).row = (s.disk.slot req.key).row :=
    congrArg (fun m : SqliteMetadataStore => m.objects[req.key]?) metadata
  have payload : ((s.doPutFailing req now failure).1.disk.slot req.key).file =
      if s.places req now failure then some req.data else (s.disk.slot req.key).file := by
    change (s.doPutFailing req now failure).1.disk.files[keyDigest req.key]? = _
    rw [files]
    split
    · exact OrderedMap.lookup_insert_self _ _ _
    · rfl
  rw [exposes, valid, Option.any_some]
  cases exposed : s.places req now failure with
  | false =>
      rw [exposed] at payload
      obtain ⟨bytes, row⟩ := Disk.get_head_congr rows payload
      exact iff_of_true ⟨bytes.trans read, row.trans head⟩ (.inl rfl)
  | true =>
      rw [exposed] at payload
      constructor
      · rintro ⟨again, -⟩
        exact .inr (Option.some.inj (payload.symm.trans (Disk.get_ok_file again)))
      · intro same
        have old : (s.disk.slot req.key).file = some stored := Disk.get_ok_file read
        rcases same with none | rfl
        · cases none
        · obtain ⟨bytes, row⟩ := Disk.get_head_congr rows (payload.trans old.symm)
          exact ⟨bytes.trans read, row.trans head⟩

section Sample

def storedOnce : LocalObjectStore := ((LocalObjectStore.openStore .empty 0).put (text "k") [1] 0).1

def overwrite : WriteCall := .put (text "k") [2]

def failingAt (point : FailurePoint) : Option Failure := some ⟨point, text "Input/output error"⟩

end Sample

theorem failedWrite_intact_iff_rename :
    (storedOnce.write overwrite 0 (failingAt .rename)).1.get overwrite.key = .ok [1] ∧
      (storedOnce.write overwrite 0 (failingAt .rename)).1.head overwrite.key =
        .ok ⟨text "k", 1, sha256Hex [1], 1, 0, false, []⟩ := by
  obtain ⟨read, head, failed, exposed⟩ : storedOnce.get overwrite.key = .ok [1] ∧
      storedOnce.head overwrite.key = .ok ⟨text "k", 1, sha256Hex [1], 1, 0, false, []⟩ ∧
      (storedOnce.write overwrite 0 (failingAt .rename)).2 =
        .error (.ioError (text "rename temp file: Input/output error")) ∧
      storedOnce.exposes overwrite 0 (failingAt .rename) = false := by decide +kernel
  exact (failedWrite_intact_iff read head failed).mpr (.inl exposed)

/-- The directory of the renamed payload cannot be synced: the write fails, and
the object can no longer be read. -/
theorem failedWrite_unreadable :
    storedOnce.get (text "k") = .ok [1] ∧
      (storedOnce.write overwrite 0 (failingAt .syncDir)).2 =
        .error (.ioError (text "fsync dir: Input/output error")) ∧
      (storedOnce.write overwrite 0 (failingAt .syncDir)).1.get (text "k") =
        .error (.checksumMismatch (text "checksum mismatch for key: k")) ∧
      (storedOnce.write overwrite 0 (failingAt .syncDir)).1.head (text "k") =
        storedOnce.head (text "k") := by
  decide +kernel

end LocalObjectStore
end Dos.Storage
