import DistributedObjectStorage.Storage.StoreInvariant

/-!
# Where rows come from

A row is written by a mutation or rebuilt by recovery from the record of one.
So what holds of every row that a mutation is about to write, and survives
deletion and recovery, holds of every row of the table.
-/
namespace Dos.Storage
open Transition

/-- The property survives what happens to a row after it was written. -/
structure Lasting (P : ObjectMetadata → Prop) : Prop where
  bury : ∀ row, P row → P { row with deleted := true }
  recover : ∀ row, P row → ∀ seq now, P (recoveredRow (putRecord seq row) now)

def Job.Writes (P : ObjectMetadata → Prop) : Job → Prop
  | .put _ _ row _ => P row
  | .delete _ _ _ => True

def WalRecord.Writes (P : ObjectMetadata → Prop) (rec : WalRecord) : Prop :=
  rec.op = .put → rec.isCommit = false → ∀ now, P (recoveredRow rec now)

/-- Every row has the property, and so has every row that may still be written. -/
structure Machine.Rows (P : ObjectMetadata → Prop) (s : Machine) : Prop where
  stored : ∀ key, ∀ row ∈ (s.disk.slot key).row, row.key = key ∧ P row
  log : ∀ rec ∈ s.disk.wal.records, rec.Writes P
  todo : ∀ committed rest, s.mode = .recovering committed rest → ∀ rec ∈ rest, rec.Writes P
  jobs : ∀ nextSeq jobs, s.mode = .running nextSeq jobs → ∀ job ∈ jobs, job.Writes P

/-- The same call at another stage. -/
inductive Job.Follows : Job → Job → Prop
  | put {todo todo' seq row data} : Follows (.put todo seq row data) (.put todo' seq row data)
  | delete {todo todo' seq key} : Follows (.delete todo seq key) (.delete todo' seq key)

section Rows
variable {P : ObjectMetadata → Prop} {d : Disk} {job : Job}

theorem Job.next_follows {rest : Job} (goesOn : job.next d = some rest) : job.Follows rest := by
  cases job with
  | put todo seq row data =>
      cases todo with
      | commit => cases goesOn
      | _ =>
          cases goesOn
          exact .put
  | delete todo seq key =>
      cases todo with
      | begin =>
          cases goesOn
          exact .delete
      | row =>
          simp only [Job.next, Option.ite_none_right_eq_some, Option.some.injEq] at goesOn
          obtain ⟨_, rfl⟩ := goesOn
          exact .delete
      | commit => cases goesOn

theorem Job.Writes.next (writes : job.Writes P) {rest : Job} (goesOn : job.next d = some rest) :
    rest.Writes P := by
  cases Job.next_follows goesOn with
  | put => exact writes
  | delete => trivial

section Stored
variable (stored : ∀ key, ∀ row ∈ (d.slot key).row, row.key = key ∧ P row)
include stored

theorem stored_putRow {new : ObjectMetadata} (ok : P new) :
    ∀ key, ∀ row ∈ ((d.putRow new).slot key).row, row.key = key ∧ P row := by
  intro key row found
  by_cases same : new.key = key
  · subst same
    rw [d.slot_putRow new] at found
    cases found
    exact ⟨rfl, ok⟩
  · rw [d.slot_putRow_ne same] at found
    exact stored key row found

theorem stored_deleteRow (lasting : Lasting P) (gone : Bytes) :
    ∀ key, ∀ row ∈ ((d.deleteRow gone).1.slot key).row, row.key = key ∧ P row := by
  intro key row found
  obtain ⟨old, here, rfl | rfl⟩ := Disk.deleteRow_row found
  · exact stored key row here
  · obtain ⟨named, holds⟩ := stored key old here
    exact ⟨named, lasting.bury old holds⟩

theorem stored_effect (lasting : Lasting P) (writes : job.Writes P) :
    ∀ key, ∀ row ∈ ((job.effect d).slot key).row, row.key = key ∧ P row := by
  cases job with
  | put todo seq row data =>
      cases todo with
      | row => exact stored_putRow stored writes
      | _ => exact stored
  | delete todo seq key =>
      cases todo with
      | row => exact stored_deleteRow stored lasting key
      | _ => exact stored

theorem stored_recoverRecord (lasting : Lasting P) {rec : WalRecord} (writes : rec.Writes P)
    (committed : List ℕ) (now : Int) :
    ∀ key, ∀ row ∈ ((recoverRecord committed now d rec).slot key).row, row.key = key ∧ P row := by
  rcases recoverRecord_cases committed now d rec with skipped | ⟨put, kind, plain, _⟩ | deleted
  · rw [skipped]
    exact stored
  · rw [put]
    exact stored_putRow stored (writes kind plain now)
  · rw [deleted]
    exact stored_deleteRow stored lasting rec.key

end Stored

theorem Wal.mem_appendRecord {w : Wal} {rec new : WalRecord}
    (member : rec ∈ (w.appendRecord new).records) : rec ∈ w.records ∨ rec = new := by
  unfold Wal.appendRecord at member
  split at member
  · exact .inl member
  · simpa using member

theorem log_effect (log : ∀ rec ∈ d.wal.records, rec.Writes P) (lasting : Lasting P)
    (writes : job.Writes P) : ∀ rec ∈ (job.effect d).wal.records, rec.Writes P := by
  intro rec member
  have appended {new : WalRecord} (inside : rec ∈ (d.wal.appendRecord new).records)
      (ok : new.Writes P) : rec.Writes P := by
    rcases Wal.mem_appendRecord inside with old | rfl
    · exact log rec old
    · exact ok
  cases job with
  | put todo seq row data =>
      cases todo with
      | begin => exact appended member fun _ _ now => lasting.recover row writes seq now
      | commit => exact appended member nofun
      | _ => exact log rec member
  | delete todo seq key =>
      cases todo with
      | begin => exact appended member nofun
      | row => exact log rec member
      | commit => exact appended member nofun

end Rows

/-! ## Runs -/

section Runs
variable {P : ObjectMetadata → Prop} {s s' : Machine} {act : StoreAction}

theorem Machine.Rows.begin (rows : s.Rows P) {nextSeq : ℕ} {jobs : List Job}
    (state : s.mode = .running nextSeq jobs) (m : Mutation) (now : Int)
    (launches : ∀ req row, m.request = some req → planPut s.disk req now = .write row → P row) :
    (s.begin nextSeq jobs m now).Rows P := by
  have launched {job : Job} (writes : job.Writes P) : (s.launch nextSeq jobs job).Rows P := by
    refine ⟨rows.stored, rows.log, ?_, ?_⟩
    · rintro _ _ ⟨⟩
    · rintro _ _ ⟨⟩ other member
      rcases List.mem_append.mp member with old | new
      · exact rows.jobs _ _ state other old
      · rw [List.mem_singleton.mp new]
        exact writes
  rcases s.begin_cases nextSeq jobs m now with same | ⟨key, _, same⟩ | ⟨req, row, requested, plan, same⟩
  · rw [same]
    exact rows
  · rw [same]
    exact launched trivial
  · rw [same]
    exact launched (launches req row requested plan)

/-- The step lemma. -/
theorem Machine.Rows.move (lasting : Lasting P) (rows : s.Rows P)
    (launches : ∀ m now req row, act = .start m now → m.request = some req →
      planPut s.disk req now = .write row → P row) (move : Move s act s') : s'.Rows P := by
  cases move with
  | stay => exact rows
  | begin state free => exact rows.begin state _ _ (launches _ _ · · rfl)
  | @advance nextSeq jobs k job state found =>
      have writes := rows.jobs _ _ state job (List.mem_of_getElem? found)
      refine ⟨stored_effect rows.stored lasting writes, log_effect rows.log lasting writes, ?_, ?_⟩
      · rintro _ _ ⟨⟩
      · rintro _ _ ⟨⟩ other member
        rcases List.mem_append.mp member with next | old
        · exact writes.next (Option.mem_toList.mp next)
        · exact rows.jobs _ _ state other (List.mem_of_mem_eraseIdx old)
  | crash torn =>
      unfold Machine.crash
      split
      · refine ⟨?_, ?_, ?_, ?_⟩
        · split <;> exact rows.stored
        · split <;> exact rows.log
        · rintro _ _ ⟨⟩
        · rintro _ _ ⟨⟩
      · refine ⟨rows.stored, rows.log, ?_, ?_⟩
        · rintro _ _ ⟨⟩
        · rintro _ _ ⟨⟩
  | reopen state =>
      refine ⟨rows.stored, rows.log, ?_, ?_⟩
      · rintro _ _ ⟨⟩
        exact rows.log
      · rintro _ _ ⟨⟩
  | @recover committed rec rest now state =>
      obtain ⟨first, later⟩ := List.forall_mem_cons.mp (rows.todo _ _ state)
      refine ⟨stored_recoverRecord rows.stored lasting first committed now, ?_, ?_, ?_⟩
      · rw [(recoverRecord_frame s.disk rec committed now).1]
        exact rows.log
      · rintro _ _ ⟨⟩
        exact later
      · rintro _ _ ⟨⟩
  | clean state =>
      refine ⟨rows.stored, rows.log, ?_, ?_⟩
      · rintro _ _ ⟨⟩
      · rintro _ _ ⟨⟩
  | truncate state =>
      refine ⟨rows.stored, ?_, ?_, ?_⟩
      · exact List.forall_mem_nil _
      · rintro _ _ ⟨⟩
      · rintro _ _ ⟨⟩
        exact List.forall_mem_nil _

theorem Machine.Rows.mono {Q : ObjectMetadata → Prop} (rows : s.Rows P) (weaker : ∀ row, P row → Q row) :
    s.Rows Q where
  stored := fun key row found => ⟨(rows.stored key row found).1, weaker row (rows.stored key row found).2⟩
  log := fun rec member kind plain now => weaker _ (rows.log rec member kind plain now)
  todo := fun committed rest mode rec member kind plain now =>
    weaker _ (rows.todo committed rest mode rec member kind plain now)
  jobs := fun nextSeq jobs mode job member => by
    have writes := rows.jobs nextSeq jobs mode job member
    cases job with
    | put todo seq row data => exact weaker row writes
    | delete todo seq key => trivial

theorem Machine.Rows.initial : Machine.initial.Rows P := by
  refine ⟨?_, List.forall_mem_nil _, ?_, ?_⟩
  · rintro key row ⟨⟩
  · rintro _ _ ⟨⟩
  · rintro _ _ ⟨⟩

/-! ### The empty key -/

theorem Mutation.request_named {m : Mutation} {req : WriteRequest} (h : m.request = some req) :
    req.key ≠ [] := by
  cases m with
  | delete key => cases h
  | _ =>
      simp only [Mutation.request, Option.ite_none_left_eq_some, Option.some.injEq] at h
      obtain ⟨valid, rfl⟩ := h
      first
      | exact valid
      | exact fun empty => valid (.inl empty)

/-- Nothing is ever stored under the empty key. -/
theorem reachable_unnamed {shard : Bytes → ℕ} {allowed : Machine → StoreAction → Prop}
    (reachable : (Machine.system shard allowed).Reachable s) : (s.disk.slot []).row = none := by
  have rows : s.Rows (·.key ≠ []) := by
    apply reachable.invariant
    · rintro _ rfl
      exact Machine.Rows.initial
    · rintro before _ _ rows ⟨act, _, rfl⟩
      refine rows.move ⟨fun _ named => named, fun _ named _ _ => named⟩ ?_ (before.exec_move shard act)
      intro m now req row _ requested plan
      obtain ⟨_, _, rfl⟩ := planPut_newRow plan
      exact Mutation.request_named requested
  cases found : (s.disk.slot []).row with
  | none => rfl
  | some row =>
      obtain ⟨empty, named⟩ := rows.stored [] row found
      exact absurd empty named

end Runs
end Dos.Storage
