import Mathlib.Logic.Function.Basic
import DistributedObjectStorage.Library.Transition
import DistributedObjectStorage.Storage.LocalObjectStore

/-!
# Interrupted runs of the object store

Mutations of different keys run side by side, one disk step at a time; the lock
of a key's shard excludes others of the same shard. A crash may come between any
two steps, in the middle of a log append, or inside recovery.
-/
namespace Dos.Storage
open Transition

inductive Mutation where
  | put (key data : Bytes)
  | putWithVersion (key data : Bytes) (version : ℕ)
  | putConditional (key data : Bytes) (expectedVersion : ℕ) (requestId : Bytes)
  | delete (key : Bytes)
  deriving DecidableEq, Repr

def Mutation.key : Mutation → Bytes
  | .put key _ | .putWithVersion key _ _ | .putConditional key _ _ _ | .delete key => key

/-- The request of a write whose arguments are valid. -/
def Mutation.request : Mutation → Option WriteRequest
  | .put key data => if key = [] then none else some (.put key data)
  | .putWithVersion key data version =>
      if key = [] ∨ version = 0 then none else some (.putWithVersion key data version)
  | .putConditional key data expectedVersion requestId =>
      if key = [] then none else some (.putConditional key data expectedVersion requestId)
  | .delete _ => none

/-- The disk step that a write does next. -/
inductive PutStage where
  | begin | stage | rename | row | commit
  deriving DecidableEq, Repr

inductive DeleteStage where
  | begin | row | commit
  deriving DecidableEq, Repr

/-- A mutation in flight. -/
inductive Job where
  | put (todo : PutStage) (seq : ℕ) (row : ObjectMetadata) (data : Bytes)
  | delete (todo : DeleteStage) (seq : ℕ) (key : Bytes)
  deriving DecidableEq, Repr

/-- What a mutation leaves behind when it succeeds. -/
inductive Outcome where
  | stored (row : ObjectMetadata) (data : Bytes)
  | removed
  deriving DecidableEq, Repr

/-- The visible state of a key: what `Get` answers, and the version, size and
checksum of `Head`. -/
structure View where
  bytes : StatusOr Bytes
  head : Option (ℕ × ℕ × Bytes)

def Disk.view (d : Disk) (key : Bytes) : View :=
  ⟨d.get key, (d.head key).toOption.map fun row => (row.version, row.size, row.checksum)⟩

def Outcome.view (key : Bytes) : Outcome → View
  | .stored row data => ⟨.ok data, some (row.version, row.size, row.checksum)⟩
  | .removed => ⟨.error (.notFound (text "tombstoned: " ++ key)), none⟩

namespace Job

def key : Job → Bytes
  | .put _ _ row _ => row.key
  | .delete _ _ key => key

def seq : Job → ℕ
  | .put _ seq _ _ | .delete _ seq _ => seq

def outcome : Job → Outcome
  | .put _ _ row data => .stored row data
  | .delete _ _ _ => .removed

/-- The next disk step is a log append. -/
def appends : Job → Bool
  | .put .begin _ _ _ | .put .commit _ _ _ | .delete .begin _ _ | .delete .commit _ _ => true
  | _ => false

def effect (d : Disk) : Job → Disk
  | .put .begin seq row _ => d.appendBegin seq .put row.key row.version row.checksum row.size
  | .put .stage _ _ data => d.stagePayload data
  | .put .rename _ row data => d.placePayload row.key data
  | .put .row _ row _ => d.putRow row
  | .put .commit seq _ _ => d.appendCommit seq
  | .delete .begin seq key => d.appendBegin seq .delete key 0 [] 0
  | .delete .row _ key => (d.deleteRow key).1
  | .delete .commit seq _ => d.appendCommit seq

/-- What is left to do after the next step; nothing once the call returns. -/
def next (d : Disk) : Job → Option Job
  | .put .begin seq row data => some (.put .stage seq row data)
  | .put .stage seq row data => some (.put .rename seq row data)
  | .put .rename seq row data => some (.put .row seq row data)
  | .put .row seq row data => some (.put .commit seq row data)
  | .put .commit _ _ _ => none
  | .delete .begin seq key => some (.delete .row seq key)
  | .delete .row seq key => if (d.deleteRow key).2.isOk then some (.delete .commit seq key) else none
  | .delete .commit _ _ => none

/-- The next step ends the call with Ok. -/
def succeeds : Job → Bool
  | .put .commit _ _ _ | .delete .commit _ _ => true
  | _ => false

end Job

inductive Mode where
  | down
  | recovering (committed : List ℕ) (rest : List WalRecord)
  | checkpointing
  | running (nextSeq : ℕ) (jobs : List Job)
  deriving DecidableEq, Repr

/-- Written by the steps and never read: for each key what the last completed
mutation left (or the last `Open` found), what the mutation in flight at the
last crash was about to leave, and the outcome of the last mutation when it
returned Ok and no other was started since. A call that answers without
touching the disk does not count as started. -/
structure Observed where
  settled : Bytes → View
  pending : Bytes → Option Outcome
  acked : Bytes → Option Outcome

/-- What a step of a mutation shows: nothing, or its success. -/
def Observed.after (seen : Observed) (job : Job) : Observed :=
  if job.succeeds then
    { seen with
      settled := Function.update seen.settled job.key (job.outcome.view job.key)
      acked := Function.update seen.acked job.key (some job.outcome) }
  else seen

structure Machine where
  disk : Disk
  mode : Mode
  seen : Observed

inductive StoreAction where
  | start (m : Mutation) (now : Int)
  | step (job : ℕ)
  | crash (torn : Bool)
  | reopen
  | recover (now : Int)
  | clean
  | truncate
  deriving DecidableEq, Repr

namespace Machine

def initial : Machine := ⟨.empty, .down, ⟨Disk.empty.view, fun _ => none, fun _ => none⟩⟩

/-- A call that will touch the disk takes the next sequence number. -/
def launch (s : Machine) (nextSeq : ℕ) (jobs : List Job) (job : Job) : Machine :=
  { s with
    mode := .running (nextSeq + 1) (jobs ++ [job])
    seen := { s.seen with acked := Function.update s.seen.acked job.key none } }

/-- Take the lock and run up to the first disk step, if there is one. -/
def begin (s : Machine) (nextSeq : ℕ) (jobs : List Job) (m : Mutation) (now : Int) : Machine :=
  match m with
  | .delete key => s.launch nextSeq jobs (.delete .begin nextSeq key)
  | _ =>
      match m.request with
      | none => s
      | some req =>
          match planPut s.disk req now with
          | .answer _ => s
          | .write row => s.launch nextSeq jobs (.put .begin nextSeq row req.data)

/-- One disk step of a mutation in flight. -/
def advance (s : Machine) (nextSeq : ℕ) (jobs : List Job) (k : ℕ) (job : Job) : Machine where
  disk := job.effect s.disk
  mode := .running nextSeq ((job.next s.disk).toList ++ jobs.eraseIdx k)
  seen := s.seen.after job

/-- The process dies. Only an append in flight can leave a torn tail. -/
def crash (s : Machine) (torn : Bool) : Machine :=
  match s.mode with
  | .running _ jobs =>
      { disk := if torn && jobs.any Job.appends then { s.disk with wal := s.disk.wal.tear } else s.disk
        mode := .down
        seen :=
          { s.seen with
            pending := fun key => (jobs.find? (·.key = key)).map Job.outcome } }
  | _ => { s with mode := .down }

def exec (shard : Bytes → ℕ) (s : Machine) : StoreAction → Machine
  | .start m now =>
      match s.mode with
      | .running nextSeq jobs =>
          if jobs.any (fun job => shard job.key = shard m.key) then s
          else s.begin nextSeq jobs m now
      | _ => s
  | .step k =>
      match s.mode with
      | .running nextSeq jobs => (jobs[k]?).elim s (s.advance nextSeq jobs k)
      | _ => s
  | .crash torn => s.crash torn
  | .reopen =>
      match s.mode with
      | .down =>
          { s with mode := .recovering (Wal.committed s.disk.wal.replay) s.disk.wal.replay }
      | _ => s
  | .recover now =>
      match s.mode with
      | .recovering committed (rec :: rest) =>
          { s with
            disk := recoverRecord committed now s.disk rec
            mode := .recovering committed rest }
      | _ => s
  | .clean =>
      match s.mode with
      | .recovering _ [] => { s with disk := { s.disk with tmp := [] }, mode := .checkpointing }
      | _ => s
  | .truncate =>
      match s.mode with
      | .checkpointing =>
          { disk := { s.disk with wal := .empty }
            mode := .running 1 []
            seen := { s.seen with settled := s.disk.view, pending := fun _ => none } }
      | _ => s

def run (shard : Bytes → ℕ) (acts : List StoreAction) : Machine := acts.foldl (exec shard) initial

/-- The runs whose actions all meet a condition on the state they are taken in. -/
def system (shard : Bytes → ℕ) (allowed : Machine → StoreAction → Prop) : System Machine :=
  .guarded (exec shard) allowed initial

theorem run_reachable (shard : Bytes → ℕ) (acts : List StoreAction) :
    (system shard fun _ _ => True).Reachable (run shard acts) :=
  (System.Reachable.start rfl).along (.of_forall (fun _ _ _ => trivial) _)

end Machine

/-- Everything that an action can do. -/
inductive Move (s : Machine) : StoreAction → Machine → Prop
  | stay {act} : Move s act s
  | begin {nextSeq jobs m now} : s.mode = .running nextSeq jobs → m.key ∉ jobs.map Job.key →
      Move s (.start m now) (s.begin nextSeq jobs m now)
  | advance {nextSeq jobs k job} : s.mode = .running nextSeq jobs → jobs[k]? = some job →
      Move s (.step k) (s.advance nextSeq jobs k job)
  | crash (torn : Bool) : Move s (.crash torn) (s.crash torn)
  | reopen : s.mode = .down → Move s .reopen
      { s with mode := .recovering (Wal.committed s.disk.wal.replay) s.disk.wal.replay }
  | recover {committed rec rest} (now : Int) : s.mode = .recovering committed (rec :: rest) →
      Move s (.recover now)
        { s with disk := recoverRecord committed now s.disk rec, mode := .recovering committed rest }
  | clean {committed} : s.mode = .recovering committed [] → Move s .clean
      { s with disk := { s.disk with tmp := [] }, mode := .checkpointing }
  | truncate : s.mode = .checkpointing → Move s .truncate
      { disk := { s.disk with wal := .empty }
        mode := .running 1 []
        seen := { s.seen with settled := s.disk.view, pending := fun _ => none } }

namespace Machine

/-- The lock of the shard keeps other mutations of the key out. -/
theorem free_of_shard {shard : Bytes → ℕ} {jobs : List Job} {key : Bytes}
    (free : ¬jobs.any (fun job => shard job.key = shard key) = true) : key ∉ jobs.map Job.key := by
  intro member
  obtain ⟨job, inside, same⟩ := List.mem_map.mp member
  exact free (List.any_eq_true.mpr ⟨job, inside, by simp [same]⟩)

/-- What taking the lock leads to: an answer at once, or a job for the disk. -/
theorem begin_cases (s : Machine) (nextSeq : ℕ) (jobs : List Job) (m : Mutation) (now : Int) :
    s.begin nextSeq jobs m now = s ∨
      (∃ key, m = .delete key ∧
        s.begin nextSeq jobs m now = s.launch nextSeq jobs (.delete .begin nextSeq key)) ∨
      ∃ req row, m.request = some req ∧ planPut s.disk req now = .write row ∧
        s.begin nextSeq jobs m now = s.launch nextSeq jobs (.put .begin nextSeq row req.data) := by
  unfold begin
  split
  · next key => exact .inr (.inl ⟨key, rfl, rfl⟩)
  · split
    · exact .inl rfl
    · next req requested =>
        split
        · exact .inl rfl
        · next row plan => exact .inr (.inr ⟨req, row, requested, plan, rfl⟩)

theorem exec_move (shard : Bytes → ℕ) (s : Machine) (act : StoreAction) :
    Move s act (s.exec shard act) := by
  cases act with
  | start m now =>
      simp only [exec]
      split
      · next state =>
          split
          · exact .stay
          · next free => exact .begin state (free_of_shard free)
      · exact .stay
  | step k =>
      simp only [exec]
      split
      · next nextSeq jobs state =>
          cases found : jobs[k]? with
          | none => exact .stay
          | some job => exact .advance state found
      · exact .stay
  | crash torn => exact .crash torn
  | reopen =>
      simp only [exec]
      split
      · next state => exact .reopen state
      · exact .stay
  | recover now =>
      simp only [exec]
      split
      · next state => exact .recover now state
      · exact .stay
  | clean =>
      simp only [exec]
      split
      · next state => exact .clean state
      · exact .stay
  | truncate =>
      simp only [exec]
      split
      · next state => exact .truncate state
      · exact .stay

/-! ## Uninterrupted runs are the whole operations -/

def writing (m : Mutation) (now : Int) : List StoreAction :=
  [.start m now, .step 0, .step 0, .step 0, .step 0, .step 0]

def deleting (key : Bytes) (now : Int) : List StoreAction :=
  [.start (.delete key) now, .step 0, .step 0, .step 0]

def opening (d : Disk) (now : Int) : List StoreAction :=
  .reopen :: List.replicate d.wal.replay.length (.recover now) ++ [.clean, .truncate]

section Uninterrupted
variable (shard : Bytes → ℕ) (now : Int) {s : Machine} {nextSeq : ℕ}

theorem run_write {m : Mutation} {req : WriteRequest} {row : ObjectMetadata}
    (mode : s.mode = .running nextSeq []) (requested : m.request = some req)
    (plan : planPut s.disk req now = .write row) (named : row.key = req.key) :
    let s' := (writing m now).foldl (exec shard) s
    s'.disk = (LocalObjectStore.doPut ⟨s.disk, nextSeq⟩ req now).1.disk ∧
      s'.mode = .running (nextSeq + 1) [] ∧ s'.seen.acked req.key = some (.stored row req.data) := by
  have started : s.exec shard (.start m now) =
      s.launch nextSeq [] (.put .begin nextSeq row req.data) := by
    cases m with
    | delete key => cases requested
    | _ => simp only [exec, mode, begin, requested, plan, List.any_nil, Bool.false_eq_true, if_false]
  simp only [writing, List.foldl_cons, started]
  simp only [LocalObjectStore.doPut, plan]
  refine ⟨rfl, rfl, ?_⟩
  rw [← named]
  exact Function.update_self ..

theorem run_delete {key : Bytes} (mode : s.mode = .running nextSeq []) :
    let s' := (deleting key now).foldl (exec shard) s
    s'.disk = (LocalObjectStore.delete ⟨s.disk, nextSeq⟩ key).1.disk ∧
      s'.mode = .running (nextSeq + 1) [] := by
  have started : s.exec shard (.start (.delete key) now) =
      s.launch nextSeq [] (.delete .begin nextSeq key) := by
    simp only [exec, mode, begin, List.any_nil, Bool.false_eq_true, if_false]
  simp only [deleting, List.foldl_cons, started]
  cases ok : ((s.disk.appendBegin nextSeq .delete key 0 [] 0).deleteRow key).2.isOk with
  | false => simp [exec, launch, advance, Job.effect, Job.next, LocalObjectStore.delete, ok]
  | true => simp [exec, launch, advance, Job.effect, Job.next, LocalObjectStore.delete, ok]

/-- Recovery goes through the records one by one. -/
theorem run_records {committed : List ℕ} {records : List WalRecord}
    (mode : s.mode = .recovering committed records) :
    (List.replicate records.length (.recover now)).foldl (exec shard) s =
      { s with
        disk := records.foldl (recoverRecord committed now) s.disk
        mode := .recovering committed [] } := by
  induction records generalizing s with
  | nil =>
      obtain ⟨disk, _, seen⟩ := s
      cases mode
      rfl
  | cons rec rest ih =>
      obtain ⟨disk, _, seen⟩ := s
      cases mode
      exact ih rfl

theorem run_open (mode : s.mode = .down) :
    let s' := (opening s.disk now).foldl (exec shard) s
    s'.disk = recover s.disk now ∧ s'.mode = .running 1 [] := by
  have opened : s.exec shard .reopen =
      { s with mode := .recovering (Wal.committed s.disk.wal.replay) s.disk.wal.replay } := by
    simp only [exec, mode]
  simp only [opening, List.cons_append, List.foldl_cons, List.foldl_append, opened]
  rw [run_records shard now rfl]
  exact ⟨rfl, rfl⟩

end Uninterrupted
end Machine
end Dos.Storage
