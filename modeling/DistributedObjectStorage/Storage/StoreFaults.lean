import DistributedObjectStorage.Storage.StoreSlot

/-!
# The object store under I/O errors

Every disk operation may report an error, whatever it has left behind. A write
or a delete gives up at its first error, except that a failed COMMIT append is
ignored. `Recover` gives up when a metadata write fails, and treats a failed
`Peek` like a key without a row.
-/
namespace Dos.Storage
open Transition

/-- What an operation that reports an error has left on the disk. -/
inductive Fault where
  | nothing | part | whole
  deriving DecidableEq, Repr

/-- The disk after a step that failed. A staged payload is unlinked again; a
rename that succeeded may still fail to sync its directory. -/
def Job.fault (d : Disk) (fault : Fault) : Job → Disk
  | .put .stage _ _ _ => d
  | .put .rename _ row data =>
      match fault with
      | .whole => d.placePayload row.key data
      | _ => { d with tmp := d.tmp.erase data }
  | job =>
      match fault with
      | .nothing => d
      | .part => if job.appends then { d with wal := d.wal.tear } else d
      | .whole => job.effect d

/-- What `Replay` may return. A read error hides the rest of the log, and what
stands behind a damaged record may decode to anything. -/
def Wal.Replays (w : Wal) (found : List WalRecord) : Prop :=
  found <+: w.records ∨ w.torn = true ∧ w.records <+: found

instance (w : Wal) (found : List WalRecord) : Decidable (w.Replays found) :=
  inferInstanceAs (Decidable (found <+: w.records ∨ w.torn = true ∧ w.records <+: found))

/-- The errors in one iteration of the loop of `Recover`. -/
structure RecoverIo where
  peekFails : Bool
  readFails : Bool
  write : Option Fault
  deriving DecidableEq, Repr

def RecoverIo.fine : RecoverIo := ⟨false, false, none⟩

/-- The metadata write of an iteration; the flag says that `Recover` goes on. -/
def RecoverIo.attempt (io : RecoverIo) (before after : Disk) : Disk × Bool :=
  match io.write with
  | none => (after, true)
  | some .whole => (after, false)
  | some _ => (before, false)

/-- One iteration of the loop of `Recover`. -/
def recoverFaulty (committed : List ℕ) (now : Int) (io : RecoverIo) (d : Disk) (rec : WalRecord) :
    Disk × Bool :=
  if rec.isCommit ∨ rec.seq ∈ committed then (d, true)
  else
    let peek := if io.peekFails then none else (d.metadata.peek rec.key).toOption
    match rec.op with
    | .put =>
        if peek.any (rec.version ≤ ·.version) then (d, true)
        else if io.readFails then (d, true)
        else
          match d.readWholeFile (keyDigest rec.key) with
          | .error _ => (d, true)
          | .ok data =>
              if sha256Hex data = rec.checksum then io.attempt d (d.putRow (recoveredRow rec now))
              else (d, true)
    | .delete =>
        if peek.any (!·.deleted) then io.attempt d (d.deleteRow rec.key).1 else (d, true)

/-- A call in flight; a delete has no write request. -/
structure Flight where
  request : Option WriteRequest
  job : Job
  deriving DecidableEq, Repr

/-- A write that returned Ok: by a disk write, or as a recognised retry. -/
structure Return where
  request : WriteRequest
  version : ℕ
  wrote : Bool
  deriving DecidableEq, Repr

def Flight.result (f : Flight) : Option Return :=
  match f.request, f.job with
  | some req, .put _ _ row _ => some ⟨req, row.version, true⟩
  | _, _ => none

inductive FaultyMode where
  | down
  | recovering (committed : List ℕ) (rest : List WalRecord)
  | checkpointing
  | running (nextSeq : ℕ) (flights : List Flight)
  deriving DecidableEq, Repr

/-- The requests of all writes begun so far and the successes, newest first,
are written by the steps and never read. -/
structure FaultyStore where
  disk : Disk
  mode : FaultyMode
  requests : List WriteRequest
  returned : List Return

/-- A step with `none` succeeds. -/
inductive FaultyAction where
  | start (m : Mutation) (now : Int) (peekFails : Bool)
  | step (flight : ℕ) (fault : Option Fault)
  | crash (torn : Bool)
  | reopen (found : List WalRecord)
  | recover (now : Int) (io : RecoverIo)
  | clean (removes : Bool)
  | truncate (fault : Option Fault)
  deriving DecidableEq, Repr

namespace FaultyStore

/-- A closed store: any rows, payload files and log. -/
def closed (d : Disk) : FaultyStore := ⟨d, .down, [], []⟩

def launch (s : FaultyStore) (nextSeq : ℕ) (flights : List Flight) (f : Flight) : FaultyStore :=
  { s with mode := .running (nextSeq + 1) (flights ++ [f]) }

/-- A write with the lock of its key taken: it fails to read the row, answers
from it, or goes on to the disk. -/
def write (s : FaultyStore) (nextSeq : ℕ) (flights : List Flight) (req : WriteRequest) (now : Int)
    (peekFails : Bool) : FaultyStore :=
  if peekFails then s
  else
    match planPut s.disk req now with
    | .answer (.error _) => s
    | .answer (.ok row) => { s with returned := ⟨req, row.version, false⟩ :: s.returned }
    | .write row => s.launch nextSeq flights ⟨some req, .put .begin nextSeq row req.data⟩

def begin (s : FaultyStore) (nextSeq : ℕ) (flights : List Flight) (m : Mutation) (now : Int)
    (peekFails : Bool) : FaultyStore :=
  match m with
  | .delete key => s.launch nextSeq flights ⟨none, .delete .begin nextSeq key⟩
  | _ =>
      match m.request with
      | none => s
      | some req =>
          { s with requests := req :: s.requests }.write nextSeq flights req now peekFails

/-- One disk step of a call. Its last step ends it with Ok even if it fails. -/
def advance (s : FaultyStore) (nextSeq : ℕ) (flights : List Flight) (k : ℕ) (f : Flight)
    (fault : Option Fault) : FaultyStore where
  disk := fault.elim (f.job.effect s.disk) (f.job.fault s.disk ·)
  mode := .running nextSeq
    ((if fault.isSome then none else f.job.next s.disk).toList.map (⟨f.request, ·⟩) ++
      flights.eraseIdx k)
  requests := s.requests
  returned := if f.job.succeeds then f.result.toList ++ s.returned else s.returned

def crash (s : FaultyStore) (torn : Bool) : FaultyStore :=
  match s.mode with
  | .running _ flights =>
      { s with
        disk := if torn && flights.any (·.job.appends) then { s.disk with wal := s.disk.wal.tear }
          else s.disk
        mode := .down }
  | _ => { s with mode := .down }

/-- One iteration of `Recover`; an error in it closes the store again. -/
def recovered (s : FaultyStore) (committed : List ℕ) (rec : WalRecord) (rest : List WalRecord)
    (now : Int) (io : RecoverIo) : FaultyStore :=
  let outcome := recoverFaulty committed now io s.disk rec
  { s with
    disk := outcome.1
    mode := if outcome.2 then .recovering committed rest else .down }

/-- The last step of `Open`. -/
def truncated (s : FaultyStore) : Option Fault → FaultyStore
  | none => { s with disk := { s.disk with wal := .empty }, mode := .running 1 [] }
  | some .whole => { s with disk := { s.disk with wal := .empty }, mode := .down }
  | some _ => { s with mode := .down }

def exec (shard : Bytes → ℕ) (s : FaultyStore) : FaultyAction → FaultyStore
  | .start m now peekFails =>
      match s.mode with
      | .running nextSeq flights =>
          if flights.any (fun f => shard f.job.key = shard m.key) then s
          else s.begin nextSeq flights m now peekFails
      | _ => s
  | .step k fault =>
      match s.mode with
      | .running nextSeq flights => (flights[k]?).elim s (s.advance nextSeq flights k · fault)
      | _ => s
  | .crash torn => s.crash torn
  | .reopen found =>
      match s.mode with
      | .down =>
          if s.disk.wal.Replays found then
            { s with mode := .recovering (Wal.committed found) found }
          else s
      | _ => s
  | .recover now io =>
      match s.mode with
      | .recovering committed (rec :: rest) => s.recovered committed rec rest now io
      | _ => s
  | .clean removes =>
      match s.mode with
      | .recovering _ [] =>
          { s with
            disk := if removes then { s.disk with tmp := [] } else s.disk
            mode := .checkpointing }
      | _ => s
  | .truncate fault =>
      match s.mode with
      | .checkpointing => s.truncated fault
      | _ => s

def runFrom (shard : Bytes → ℕ) (d : Disk) (acts : List FaultyAction) : FaultyStore :=
  acts.foldl (exec shard) (closed d)

end FaultyStore

/-- Everything that an action can do. -/
inductive FaultyMove (s : FaultyStore) : FaultyAction → FaultyStore → Prop
  | stay (act) : FaultyMove s act s
  | delete {nextSeq flights key} (now peekFails) : s.mode = .running nextSeq flights →
      key ∉ flights.map (·.job.key) → FaultyMove s (.start (.delete key) now peekFails)
        (s.launch nextSeq flights ⟨none, .delete .begin nextSeq key⟩)
  | refused {m req} (now peekFails) : m.request = some req →
      FaultyMove s (.start m now peekFails) { s with requests := req :: s.requests }
  | answered {nextSeq flights m req row} (now) : s.mode = .running nextSeq flights →
      m.key ∉ flights.map (·.job.key) → m.request = some req →
      planPut s.disk req now = .answer (.ok row) →
      FaultyMove s (.start m now false)
        { s with
          requests := req :: s.requests
          returned := ⟨req, row.version, false⟩ :: s.returned }
  | write {nextSeq flights m req row} (now) : s.mode = .running nextSeq flights →
      m.key ∉ flights.map (·.job.key) → m.request = some req →
      planPut s.disk req now = .write row →
      FaultyMove s (.start m now false)
        ({ s with requests := req :: s.requests }.launch nextSeq flights
          ⟨some req, .put .begin nextSeq row req.data⟩)
  | advance {nextSeq flights k f} (fault) : s.mode = .running nextSeq flights →
      flights[k]? = some f → FaultyMove s (.step k fault) (s.advance nextSeq flights k f fault)
  | crash (torn) : FaultyMove s (.crash torn) (s.crash torn)
  | reopen {found} : s.mode = .down → FaultyMove s (.reopen found)
      { s with mode := .recovering (Wal.committed found) found }
  | recover {committed rec rest} (now io) : s.mode = .recovering committed (rec :: rest) →
      FaultyMove s (.recover now io) (s.recovered committed rec rest now io)
  | clean {committed} (removes : Bool) : s.mode = .recovering committed [] →
      FaultyMove s (.clean removes)
        { s with
          disk := if removes then { s.disk with tmp := [] } else s.disk
          mode := .checkpointing }
  | truncate (fault) : s.mode = .checkpointing → FaultyMove s (.truncate fault) (s.truncated fault)

namespace FaultyStore

theorem write_move {s : FaultyStore} {nextSeq : ℕ} {flights : List Flight} {m : Mutation}
    {req : WriteRequest} (now : Int) (peekFails : Bool) (state : s.mode = .running nextSeq flights)
    (free : m.key ∉ flights.map (·.job.key)) (requested : m.request = some req) :
    FaultyMove s (.start m now peekFails)
      ({ s with requests := req :: s.requests }.write nextSeq flights req now peekFails) := by
  cases peekFails with
  | true => exact .refused now true requested
  | false =>
      simp only [write, Bool.false_eq_true, if_false]
      cases plan : planPut s.disk req now with
      | answer result =>
          cases result with
          | error status => exact .refused now false requested
          | ok row => exact .answered now state free requested plan
      | write row => exact .write now state free requested plan

theorem begin_move {s : FaultyStore} {nextSeq : ℕ} {flights : List Flight} {m : Mutation}
    (now : Int) (peekFails : Bool) (state : s.mode = .running nextSeq flights)
    (free : m.key ∉ flights.map (·.job.key)) :
    FaultyMove s (.start m now peekFails) (s.begin nextSeq flights m now peekFails) := by
  unfold begin
  split
  · exact .delete now peekFails state free
  · split
    · exact .stay _
    · next requested => exact write_move now peekFails state free requested

theorem exec_move (shard : Bytes → ℕ) (s : FaultyStore) (act : FaultyAction) :
    FaultyMove s act (s.exec shard act) := by
  cases act with
  | start m now peekFails =>
      simp only [exec]
      split
      · next nextSeq flights state =>
          split
          · exact .stay _
          · next free =>
              refine begin_move now peekFails state (fun member => free ?_)
              obtain ⟨f, inside, same⟩ := List.mem_map.mp member
              exact List.any_eq_true.mpr ⟨f, inside, by simp [same]⟩
      · exact .stay _
  | step k fault =>
      simp only [exec]
      split
      · next nextSeq flights state =>
          cases found : flights[k]? with
          | none => exact .stay _
          | some f => exact .advance fault state found
      · exact .stay _
  | crash torn => exact .crash torn
  | reopen found =>
      simp only [exec]
      split
      · next state =>
          split
          · exact .reopen state
          · exact .stay _
      · exact .stay _
  | recover now io =>
      simp only [exec]
      split
      · next state => exact .recover now io state
      · exact .stay _
  | clean removes =>
      simp only [exec]
      split
      · next state => exact .clean removes state
      · exact .stay _
  | truncate fault =>
      simp only [exec]
      split
      · next state => exact .truncate fault state
      · exact .stay _

end FaultyStore

/-! ## Without errors it is the machine of uninterrupted disk steps -/

def FaultyMode.plain : FaultyMode → Mode
  | .down => .down
  | .recovering committed rest => .recovering committed rest
  | .checkpointing => .checkpointing
  | .running nextSeq flights => .running nextSeq (flights.map (·.job))

/-- The action with every operation succeeding. -/
def StoreAction.faultless (d : Disk) : StoreAction → FaultyAction
  | .start m now => .start m now false
  | .step k => .step k none
  | .crash torn => .crash torn
  | .reopen => .reopen d.wal.replay
  | .recover now => .recover now .fine
  | .clean => .clean true
  | .truncate => .truncate none

section Faultless
variable {d : Disk} {rec : WalRecord} {committed : List ℕ}

theorem recoverFaulty_fine (now : Int) :
    recoverFaulty committed now .fine d rec = (recoverRecord committed now d rec, true) := by
  unfold recoverFaulty recoverRecord
  split
  · rfl
  · simp only [RecoverIo.fine, RecoverIo.attempt, Bool.false_eq_true, if_false]
    cases rec.op with
    | put =>
        dsimp only
        split
        · rfl
        · cases d.readWholeFile (keyDigest rec.key) with
          | error status => rfl
          | ok data =>
              dsimp only
              split <;> rfl
    | delete =>
        dsimp only
        split <;> rfl

/-- The disk and the threads of the two machines. -/
def FaultyStore.Same (s : FaultyStore) (m : Machine) : Prop :=
  s.disk = m.disk ∧ s.mode.plain = m.mode

theorem FaultyStore.Same.launch {s : FaultyStore} {m : Machine} (same : s.Same m) (nextSeq : ℕ)
    (flights : List Flight) (f : Flight) :
    (s.launch nextSeq flights f).Same (m.launch nextSeq (flights.map (·.job)) f.job) := by
  refine ⟨same.1, ?_⟩
  simp [FaultyStore.launch, FaultyMode.plain, Machine.launch]

theorem FaultyStore.Same.write {s : FaultyStore} {m : Machine} (same : s.Same m) (nextSeq : ℕ)
    (flights : List Flight) (req : WriteRequest) (now : Int) :
    (s.write nextSeq flights req now false).Same
      (match planPut m.disk req now with
        | .answer _ => m
        | .write row => m.launch nextSeq (flights.map (·.job)) (.put .begin nextSeq row req.data)) := by
  simp only [FaultyStore.write, Bool.false_eq_true, if_false]
  rw [← same.1]
  cases planPut s.disk req now with
  | answer result => cases result <;> exact same
  | write row => exact same.launch nextSeq flights ⟨some req, .put .begin nextSeq row req.data⟩

theorem FaultyStore.Same.begin {s : FaultyStore} {m : Machine} (same : s.Same m) (nextSeq : ℕ)
    (flights : List Flight) (call : Mutation) (now : Int) :
    (s.begin nextSeq flights call now false).Same
      (m.begin nextSeq (flights.map (·.job)) call now) := by
  cases call with
  | delete key => exact same.launch nextSeq flights ⟨none, .delete .begin nextSeq key⟩
  | _ =>
      simp only [FaultyStore.begin, Machine.begin]
      generalize Mutation.request _ = request
      cases request with
      | none => exact same
      | some req =>
          have begun : FaultyStore.Same { s with requests := req :: s.requests } m := same
          exact begun.write nextSeq flights req now

theorem FaultyStore.exec_faultless (shard : Bytes → ℕ) {s : FaultyStore} {m : Machine}
    (same : s.Same m) (act : StoreAction) :
    (s.exec shard (act.faultless s.disk)).Same (m.exec shard act) := by
  obtain ⟨disk, mode, requests, returned⟩ := s
  obtain ⟨_, _, seen⟩ := m
  obtain ⟨rfl, rfl⟩ := same
  cases mode with
  | down =>
      cases act with
      | reopen =>
          have whole : disk.wal.Replays disk.wal.replay := .inl (List.prefix_refl _)
          simp only [StoreAction.faultless, FaultyStore.exec, if_pos whole]
          exact ⟨rfl, rfl⟩
      | _ => exact ⟨rfl, rfl⟩
  | recovering committed rest =>
      cases act with
      | recover now =>
          cases rest with
          | nil => exact ⟨rfl, rfl⟩
          | cons rec rest =>
              simp only [StoreAction.faultless, FaultyStore.exec, FaultyStore.recovered,
                recoverFaulty_fine]
              exact ⟨rfl, rfl⟩
      | clean => cases rest <;> exact ⟨rfl, rfl⟩
      | _ => exact ⟨rfl, rfl⟩
  | checkpointing => cases act <;> exact ⟨rfl, rfl⟩
  | running nextSeq flights =>
      cases act with
      | start call now =>
          simp only [StoreAction.faultless, FaultyStore.exec, Machine.exec, FaultyMode.plain,
            List.any_map, Function.comp_def]
          split
          · exact ⟨rfl, rfl⟩
          · exact FaultyStore.Same.begin ⟨rfl, rfl⟩ nextSeq flights call now
      | step k =>
          simp only [StoreAction.faultless, FaultyStore.exec, Machine.exec, FaultyMode.plain,
            List.getElem?_map]
          cases flights[k]? with
          | none => exact ⟨rfl, rfl⟩
          | some f =>
              refine ⟨rfl, ?_⟩
              simp [FaultyStore.advance, Machine.advance, FaultyMode.plain, Function.comp_def,
                List.eraseIdx_eq_take_drop_succ]
      | crash torn =>
          refine ⟨?_, rfl⟩
          simp only [StoreAction.faultless, FaultyStore.exec, FaultyStore.crash, Machine.exec,
            Machine.crash, FaultyMode.plain, List.any_map, Function.comp_def]
      | _ => exact ⟨rfl, rfl⟩

end Faultless
end Dos.Storage
