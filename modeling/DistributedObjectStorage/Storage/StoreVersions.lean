import DistributedObjectStorage.Storage.StoreRows
import DistributedObjectStorage.Storage.StoreShape

/-!
# The versions of a key

A write that takes the version after the current one raises it, a delete keeps
the row as a tombstone, and recovery completes only what is newer. So a key
never goes back, and at one version it keeps one request id.
-/
namespace Dos.Storage
open Transition

/-- The row stays, as a tombstone perhaps, or one of a higher version takes its
place. -/
def Slot.Grows (p p' : Slot) : Prop :=
  (p'.version = p.version ∧ p'.row.map (·.requestId) = p.row.map (·.requestId)) ∨ p.version < p'.version

/-- How a write in flight stands to the row of its key. -/
def Job.Ahead (d : Disk) : Job → Prop
  | .put .commit _ row _ => (d.slot row.key).row = some row
  | .put _ _ row _ => (d.slot row.key).version < row.version
  | .delete _ _ _ => True

structure Machine.Ordered (s : Machine) : Prop where
  shaped : s.Shaped
  rows : s.Rows (0 < ·.version)
  jobs : ∀ nextSeq jobs, s.mode = .running nextSeq jobs → ∀ job ∈ jobs, job.Ahead s.disk

/-! ## Steps -/

section Steps
variable {d d' : Disk} {job : Job} {key : Bytes}

theorem Slot.version_congr {p p' : Slot} (same : p'.row = p.row) : p'.version = p.version := by
  unfold Slot.version
  rw [same]

theorem Slot.Grows.of_row {p p' : Slot} (same : p'.row = p.row) : p.Grows p' :=
  .inl ⟨Slot.version_congr same, by rw [same]⟩

theorem Job.Ahead.of_row (ahead : job.Ahead d)
    (same : (d'.slot job.key).row = (d.slot job.key).row) : job.Ahead d' := by
  cases job with
  | put todo seq row data =>
      have version := Slot.version_congr same
      cases todo with
      | commit => exact same.trans ahead
      | _ => exact version.trans_lt ahead
  | delete todo seq key => trivial

theorem grows_putRow {new : ObjectMetadata} (newer : (d.slot new.key).version < new.version) :
    (d.slot key).Grows ((d.putRow new).slot key) := by
  by_cases same : new.key = key
  · subst same
    rw [d.slot_putRow new]
    exact .inr newer
  · rw [d.slot_putRow_ne same]
    exact .of_row rfl

theorem grows_deleteRow (gone : Bytes) : (d.slot key).Grows ((d.deleteRow gone).1.slot key) := by
  by_cases same : gone = key
  · subst same
    by_cases dead : (d.slot gone).Dead
    · obtain ⟨_, _, unchanged⟩ := Disk.deleteRow_dead dead
      rw [unchanged]
      exact .of_row rfl
    · obtain ⟨row, found, live⟩ := Slot.live_of_not_dead dead
      rw [(Disk.deleteRow_live found live).2.1]
      refine .inl ⟨?_, ?_⟩
      · simp [Slot.version, found]
      · simp [found]
  · exact .of_row (Disk.deleteRow_row_ne same)

theorem Job.Ahead.grows (ahead : job.Ahead d) : (d.slot key).Grows ((job.effect d).slot key) := by
  cases job with
  | put todo seq row data =>
      cases todo with
      | row => exact grows_putRow ahead
      | _ => exact .of_row rfl
  | delete todo seq name =>
      cases todo with
      | row => exact grows_deleteRow name
      | _ => exact .of_row rfl

theorem Job.Ahead.next (ahead : job.Ahead d) {rest : Job} (goesOn : job.next d = some rest) :
    rest.Ahead (job.effect d) := by
  cases job with
  | put todo seq row data =>
      cases todo with
      | row =>
          cases goesOn
          exact congrArg Slot.row (d.slot_putRow row)
      | commit => cases goesOn
      | _ =>
          cases goesOn
          exact ahead
  | delete todo seq name =>
      cases Job.next_follows goesOn
      trivial

/-- Recovery writes a row only if the stored one is older. -/
theorem grows_recoverRecord {rec : WalRecord} (writes : rec.Writes (0 < ·.version)) (committed : List ℕ)
    (now : Int) : (d.slot key).Grows ((recoverRecord committed now d rec).slot key) := by
  rcases recoverRecord_cases committed now d rec with skipped | ⟨put, kind, plain, inert⟩ | deleted
  · rw [skipped]
    exact .of_row rfl
  · rw [put]
    refine grows_putRow ?_
    have positive : 0 < rec.version := writes kind plain now
    simp only [Slot.Inert, kind, not_or] at inert
    change (d.slot rec.key).version < rec.version
    unfold Slot.version
    cases found : (d.slot rec.key).row with
    | none => exact positive
    | some row => exact Nat.lt_of_not_le fun older => inert.1 ⟨row, found, older⟩
  · rw [deleted]
    exact grows_deleteRow rec.key

end Steps

/-! ## Runs -/

section Runs
variable {s s' : Machine} {act : StoreAction}

/-- A store that is closed, with an empty log. -/
theorem Machine.Ordered.closed {d : Disk} (log : d.wal = .empty)
    (stored : ∀ key, ∀ row ∈ (d.slot key).row, row.key = key ∧ 0 < row.version) (seen : Observed) :
    Machine.Ordered ⟨d, .down, seen⟩ where
  shaped := (LogShape.fresh log).interrupted
  rows := by
    refine ⟨stored, ?_, ?_, ?_⟩
    · intro rec member
      rw [log] at member
      exact absurd member List.not_mem_nil
    · rintro _ _ ⟨⟩
    · rintro _ _ ⟨⟩
  jobs := by rintro _ _ ⟨⟩

/-- Mutations in flight are ahead of the table as long as those that start are. -/
theorem Machine.Ordered.jobs_move (ordered : s.Ordered) (move : Move s act s')
    (launches : ∀ m now req row, act = .start m now → m.request = some req →
      planPut s.disk req now = .write row → (s.disk.slot row.key).version < row.version) :
    ∀ nextSeq jobs, s'.mode = .running nextSeq jobs → ∀ job ∈ jobs, job.Ahead s'.disk := by
  cases move with
  | stay => exact ordered.jobs
  | @begin nextSeq jobs m now state free =>
      have launched {job : Job} (ahead : job.Ahead s.disk) :
          ∀ next all, (s.launch nextSeq jobs job).mode = .running next all → ∀ j ∈ all, j.Ahead s.disk := by
        rintro _ _ ⟨⟩ other member
        rcases List.mem_append.mp member with old | new
        · exact ordered.jobs _ _ state other old
        · rw [List.mem_singleton.mp new]
          exact ahead
      rcases s.begin_cases nextSeq jobs m now with same | ⟨key, _, same⟩ | ⟨req, row, requested, plan, same⟩
      · rw [same]
        exact ordered.jobs
      · rw [same]
        exact launched trivial
      · rw [same]
        exact launched (launches m now req row rfl requested plan)
  | @advance nextSeq jobs k job state found =>
      have ahead := ordered.jobs _ _ state job (List.mem_of_getElem? found)
      rintro _ _ ⟨⟩ other member
      rcases List.mem_append.mp member with next | old
      · exact ahead.next (Option.mem_toList.mp next)
      · refine (ordered.jobs _ _ state other (List.mem_of_mem_eraseIdx old)).of_row ?_
        exact Job.effect_row ((ordered.shaped.running state).elsewhere found old)
  | crash torn =>
      unfold Machine.crash
      split
      · rintro _ _ ⟨⟩
      · rintro _ _ ⟨⟩
  | truncate state =>
      rintro _ _ ⟨⟩ job member
      exact absurd member List.not_mem_nil
  | _ => rintro _ _ ⟨⟩

/-- The step lemma. -/
theorem Machine.Ordered.move (ordered : s.Ordered) (move : Move s act s')
    (launches : ∀ m now req row, act = .start m now → m.request = some req →
      planPut s.disk req now = .write row → (s.disk.slot row.key).version < row.version) :
    s'.Ordered where
  shaped := ordered.shaped.move move
  rows := by
    refine ordered.rows.move ⟨fun _ positive => positive, fun _ positive _ _ => positive⟩ ?_ move
    exact fun m now req row started requested plan =>
      Nat.zero_lt_of_lt (launches m now req row started requested plan)
  jobs := ordered.jobs_move move launches

theorem Machine.begin_disk (s : Machine) (nextSeq : ℕ) (jobs : List Job) (m : Mutation) (now : Int) :
    (s.begin nextSeq jobs m now).disk = s.disk := by
  rcases s.begin_cases nextSeq jobs m now with same | ⟨_, _, same⟩ | ⟨_, _, _, _, same⟩ <;> rw [same] <;> rfl

theorem Machine.crash_row (s : Machine) (torn : Bool) (key : Bytes) :
    ((s.crash torn).disk.slot key).row = (s.disk.slot key).row := by
  unfold Machine.crash
  split
  · simp only
    split <;> rfl
  · rfl

/-- No action takes a key back. -/
theorem Machine.Ordered.grows (ordered : s.Ordered) (move : Move s act s') (key : Bytes) :
    (s.disk.slot key).Grows (s'.disk.slot key) := by
  cases move with
  | stay => exact .of_row rfl
  | begin state free =>
      rw [Machine.begin_disk]
      exact .of_row rfl
  | advance state found => exact (ordered.jobs _ _ state _ (List.mem_of_getElem? found)).grows
  | crash torn => exact .of_row (s.crash_row torn key)
  | recover now state =>
      exact grows_recoverRecord (ordered.rows.todo _ _ state _ List.mem_cons_self) _ now
  | _ => exact .of_row rfl

end Runs
end Dos.Storage
