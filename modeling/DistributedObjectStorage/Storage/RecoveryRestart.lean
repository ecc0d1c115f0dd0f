import DistributedObjectStorage.Storage.StoreShape
import DistributedObjectStorage.Storage.StoreDurability

/-!
# Recovery that is itself interrupted

A second pass over the same records meets rows that the first pass wrote. It
changes them again only where a delete that found nothing stands in front of a
write that recovery completes.
-/
namespace Dos.Storage
open Transition

/-- A row without the time it was written. -/
def timeless (row : Option ObjectMetadata) : Option ObjectMetadata :=
  row.map fun r => { r with createdAt := 0 }

/-- The same objects, up to the times of the rows. -/
structure Disk.Agree (d d' : Disk) : Prop where
  rows : ∀ key : Bytes, timeless d.metadata.objects[key]? = timeless d'.metadata.objects[key]?
  files : d.files = d'.files
  tmp : d.tmp = d'.tmp
  wal : d.wal = d'.wal

/-- `Recover` killed after some records, and after some staged payloads were
removed. -/
def stopRecovery (d : Disk) (now : Int) (done : ℕ) (tmp : List Bytes) : Disk :=
  { (d.wal.replay.take done).foldl (recoverRecord (Wal.committed d.wal.replay) now) d with tmp := tmp }

/-! ## Passes over the records of one key -/

section Rows
variable {file : Option Bytes} {now : Int} {row : Option ObjectMetadata} {rec : WalRecord}
  {records left : List WalRecord}

theorem timeless_recoverRow :
    timeless (recoverRow file now row rec) = recoverRow file 0 (timeless row) rec := by
  unfold recoverRow
  cases rec.op with
  | put =>
      have same : (timeless row).any (rec.version ≤ ·.version) = row.any (rec.version ≤ ·.version) := by
        cases row <;> rfl
      simp only [same]
      split
      · rfl
      · split <;> rfl
  | delete => cases row <;> rfl

theorem timeless_foldl :
    timeless (records.foldl (recoverRow file now) row) =
      records.foldl (recoverRow file 0) (timeless row) := by
  induction records generalizing row with
  | nil => rfl
  | cons rec rest ih => rw [List.foldl_cons, ih, timeless_recoverRow, List.foldl_cons]

/-- A delete that found nothing is open, and so is a write that recovery completes. -/
def Revives (file : Option Bytes) (row : Option ObjectMetadata) (opened : List WalRecord) : Prop :=
  (∃ rec ∈ opened, rec.op = .delete) ∧ ∃ rec ∈ opened, rec.op = .put ∧ Completes file row rec

variable {opened done own : List WalRecord}

/-- The open records of a key: deletes, or deletes in front of one write. -/
theorem Leftovers.cases (short : own.length ≤ 1) (shape : Leftovers own opened) :
    (∀ rec ∈ opened, rec.op = .delete) ∨
      ∃ left rec, opened = left ++ [rec] ∧ rec.op = .put ∧ ∀ rec ∈ left, rec.op = .delete := by
  have deletes (all : ∀ rec ∈ own, rec.op = .delete) : ∀ rec ∈ opened, rec.op = .delete := by
    obtain ⟨left, same, before⟩ := shape.finish all
    rw [same, List.append_nil]
    exact before
  match own, short with
  | [], _ => exact .inl (deletes (List.forall_mem_nil _))
  | [rec], _ =>
      cases kind : rec.op with
      | delete => exact .inl (deletes (by simpa using kind))
      | put =>
          obtain ⟨left, same, before⟩ := shape
          exact .inr ⟨left, rec, same, kind, before⟩

theorem revives_concat (put : rec.op = .put) (deletes : ∀ rec ∈ left, rec.op = .delete) :
    Revives file row (left ++ [rec]) ↔ left ≠ [] ∧ Completes file row rec := by
  constructor
  · rintro ⟨⟨gone, inside, isDelete⟩, new, member, isPut, completes⟩
    have inLeft : gone ∈ left := by
      rcases List.mem_append.mp inside with here | last
      · exact here
      · rw [List.mem_singleton.mp last, put] at isDelete
        cases isDelete
    rcases List.mem_append.mp member with here | last
    · rw [deletes new here] at isPut
      cases isPut
    · rw [List.mem_singleton.mp last] at completes
      exact ⟨List.ne_nil_of_mem inLeft, completes⟩
  · rintro ⟨some, completes⟩
    obtain ⟨gone, inside⟩ := List.exists_mem_of_ne_nil left some
    exact ⟨⟨gone, List.mem_append_left _ inside, deletes gone inside⟩,
      rec, List.mem_append_right _ List.mem_cons_self, put, completes⟩

/-- A pass that follows a part of itself ends as it does alone. -/
theorem foldl_again (short : own.length ≤ 1) (shape : Leftovers own opened) (start : done <+: opened)
    (calm : ¬Revives file row opened) :
    opened.foldl (recoverRow file now) (done.foldl (recoverRow file now) row) =
      opened.foldl (recoverRow file now) row := by
  rcases shape.cases short with deletes | ⟨left, rec, rfl, put, deletes⟩
  · have before : ∀ rec ∈ done, rec.op = .delete := fun rec member => deletes rec (start.subset member)
    rw [foldl_deletes deletes, foldl_deletes before, foldl_deletes deletes]
    by_cases none : opened = []
    · rw [none, List.prefix_nil] at start
      simp [none, start]
    · by_cases early : done = []
      · simp [early]
      · simp [none, early, bury_bury]
  · rw [revives_concat put deletes, not_and] at calm
    have last (z : Option ObjectMetadata) : (left ++ [rec]).foldl (recoverRow file now) z =
        recoverRow file now (if left = [] then z else bury z) rec := by
      rw [List.foldl_append, foldl_deletes deletes]
      rfl
    rcases List.prefix_concat_iff.mp start with rfl | part
    · -- the first pass was complete
      rw [last, last row]
      by_cases completes : Completes file row rec
      · have alone : left = [] := by
          by_contra before
          exact calm before completes
        simp only [alone, if_true, recoverRow_completes put completes,
          recoverRow_skips put not_completes_recovered]
      · have skipped : recoverRow file now (if left = [] then row else bury row) rec =
            if left = [] then row else bury row := by
          apply recoverRow_skips put
          split
          · exact completes
          · rwa [completes_bury]
        by_cases none : left = []
        · simp only [none, if_true] at skipped ⊢
          rw [skipped, skipped]
        · simp only [none, if_false] at skipped ⊢
          rw [skipped, bury_bury, skipped]
    · have before : ∀ rec ∈ done, rec.op = .delete := fun rec member => deletes rec (part.subset member)
      rw [last, last row, foldl_deletes before]
      congr 1
      by_cases none : left = []
      · rw [none, List.prefix_nil] at part
        simp [none, part]
      · by_cases early : done = []
        · simp [early]
        · simp [none, early, bury_bury]

/-- A second pass buries what the first has completed. -/
theorem foldl_revived (short : own.length ≤ 1) (shape : Leftovers own opened)
    (revives : Revives file row opened) :
    opened.foldl (recoverRow file now) (opened.foldl (recoverRow file now) row) ≠
      opened.foldl (recoverRow file now) row := by
  rcases shape.cases short with deletes | ⟨left, rec, rfl, put, deletes⟩
  · obtain ⟨_, rec, member, put, _⟩ := revives
    rw [deletes rec member] at put
    cases put
  · obtain ⟨before, completes⟩ := (revives_concat put deletes).mp revives
    have first : (left ++ [rec]).foldl (recoverRow file now) row = some (recoveredRow rec now) := by
      rw [List.foldl_append, foldl_deletes deletes, if_neg before]
      exact recoverRow_completes put (completes_bury.mpr completes)
    have second : (left ++ [rec]).foldl (recoverRow file now) (some (recoveredRow rec now)) =
        bury (some (recoveredRow rec now)) := by
      rw [List.foldl_append, foldl_deletes deletes, if_neg before]
      exact recoverRow_skips put (completes_bury.not.mpr not_completes_recovered)
    rw [first, second]
    simp [bury, recoveredRow]

end Rows

/-! ## Interrupted recoveries -/

section Restart
variable (d : Disk) (now now' : Int) (done : ℕ) (tmp : List Bytes)

theorem stopRecovery_frame :
    (stopRecovery d now done tmp).wal = d.wal ∧ (stopRecovery d now done tmp).files = d.files :=
  foldl_recoverRecord_frame d (Wal.committed d.wal.replay) (d.wal.replay.take done) now

/-- The row of a key after recovery was stopped and run again. -/
theorem recover_stopRecovery (key : Bytes) :
    ∃ before, before <+: (d.slot key).opened ∧
      (done = d.wal.replay.length → before = (d.slot key).opened) ∧
      ((recover (stopRecovery d now done tmp) now').slot key).row =
        (d.slot key).opened.foldl (recoverRow (d.slot key).file now')
          (before.foldl (recoverRow (d.slot key).file now) (d.slot key).row) := by
  obtain ⟨wal, files⟩ := stopRecovery_frame d now done tmp
  have row : ((stopRecovery d now done tmp).slot key).row = _ :=
    foldl_recoverRecord_row d (Wal.committed d.wal.replay) (d.wal.replay.take done) now key
  have file : ((stopRecovery d now done tmp).slot key).file = (d.slot key).file := by
    simp only [Disk.slot, files]
  have opened : ((stopRecovery d now done tmp).slot key).opened = (d.slot key).opened := by
    simp only [Disk.slot, wal]
  have start : d.wal.replay.take done <+: d.wal.replay := List.take_prefix done _
  refine ⟨openOf (Wal.committed d.wal.replay) (d.wal.replay.take done) key,
    (start.filter _).filter _, ?_, ?_⟩
  · rintro rfl
    rw [List.take_length]
    rfl
  · rw [recover_slot, file, opened, row]

theorem recover_files : (recover d now).files = d.files :=
  (foldl_recoverRecord_frame d (Wal.committed d.wal.replay) d.wal.replay now).2

variable {d}

/-- Recovery may be killed and run again exactly when no key has both a delete
that found nothing and a write to complete. -/
theorem restartable_iff (shape : OneInterrupted d) :
    (∀ now done tmp now' now'',
      (recover (stopRecovery d now done tmp) now').Agree (recover d now'')) ↔
      ∀ key, ¬Revives (d.slot key).file (d.slot key).row (d.slot key).opened := by
  have revives (key : Bytes) : Revives (d.slot key).file (timeless (d.slot key).row) (d.slot key).opened ↔
      Revives (d.slot key).file (d.slot key).row (d.slot key).opened := by
    cases row : (d.slot key).row <;> rfl
  constructor
  · intro restartable key revived
    obtain ⟨own, short, left⟩ := shape key
    obtain ⟨before, _, whole, twice⟩ := recover_stopRecovery d 0 0 d.wal.replay.length [] key
    have once := congrArg Slot.row (recover_slot d 0 key)
    have rows : timeless ((recover (stopRecovery d 0 d.wal.replay.length []) 0).slot key).row =
        timeless ((recover d 0).slot key).row := (restartable 0 d.wal.replay.length [] 0 0).rows key
    rw [twice, once, whole rfl, timeless_foldl, timeless_foldl] at rows
    exact foldl_revived short left ((revives key).mpr revived) rows
  · intro calm now done tmp now' now''
    refine ⟨fun key => ?_, ?_, rfl, rfl⟩
    · obtain ⟨own, short, left⟩ := shape key
      obtain ⟨before, part, _, twice⟩ := recover_stopRecovery d now now' done tmp key
      have once := congrArg Slot.row (recover_slot d now'' key)
      have rows : timeless ((recover (stopRecovery d now done tmp) now').slot key).row =
          timeless ((recover d now'').slot key).row := by
        rw [twice, once, timeless_foldl, timeless_foldl, timeless_foldl]
        exact foldl_again short left part ((revives key).not.mpr (calm key))
      exact rows
    · rw [recover_files, recover_files, (stopRecovery_frame d now done tmp).2]

end Restart

/-- A crash may come in any state of a run. A killed recovery that is run again
ends where an uninterrupted one does, unless the crash left such a key. -/
theorem recovery_restartable_iff (shard : Bytes → ℕ) {s : Machine}
    (reachable : (Machine.system shard fun _ _ => True).Reachable s) :
    (∀ now done tmp now' now'',
      (recover (stopRecovery s.disk now done tmp) now').Agree (recover s.disk now'')) ↔
      ∀ key, ¬Revives (s.disk.slot key).file (s.disk.slot key).row (s.disk.slot key).opened :=
  restartable_iff (reachable_shaped reachable).interrupted

section Sample

/-- A first write killed when it has placed its payload. -/
def killedWrite : List StoreAction :=
  Machine.opening .empty 0 ++ [.start (.put sampleKey [1]) 0, .step 0, .step 0, .step 0, .crash false]

/-- The same write after a delete that found nothing. -/
def killedRewrite : List StoreAction :=
  Machine.opening .empty 0 ++ Machine.deleting sampleKey 0 ++
    [.start (.put sampleKey [1]) 0, .step 0, .step 0, .step 0, .crash false]

end Sample

theorem recovery_restartable_iff_killedWrite :
    (Machine.run (fun _ => 0) killedWrite).mode = .down ∧
      ∀ now done tmp now' now'',
        (recover (stopRecovery (Machine.run (fun _ => 0) killedWrite).disk now done tmp) now').Agree
          (recover (Machine.run (fun _ => 0) killedWrite).disk now'') := by
  obtain ⟨down, writes⟩ : (Machine.run (fun _ => 0) killedWrite).mode = .down ∧
      ∀ rec ∈ Wal.openRecords (Machine.run (fun _ => 0) killedWrite).disk.wal.records,
        rec.op = .put := by decide +kernel
  refine ⟨down, ?_⟩
  refine (recovery_restartable_iff (fun _ => 0) (Machine.run_reachable _ killedWrite)).mpr ?_
  rintro key ⟨⟨rec, member, isDelete⟩, _⟩
  rw [writes rec (List.mem_filter.mp member).1] at isDelete
  cases isDelete

/-- One recovery completes the write; a second pass over its records deletes it. -/
theorem second_recovery_deletes :
    ∃ s, (Machine.system (fun _ => 0) fun _ _ => True).Reachable s ∧ s.mode = .down ∧
      (recover s.disk 0).get sampleKey = .ok [1] ∧
      (recover (stopRecovery s.disk 0 s.disk.wal.replay.length []) 0).get sampleKey =
        .error (.notFound (text "tombstoned: k")) ∧
      ¬(recover (stopRecovery s.disk 0 s.disk.wal.replay.length []) 0).Agree (recover s.disk 0) := by
  generalize begun : Machine.run (fun _ => 0) killedRewrite = s
  obtain ⟨down, once, twice, rows⟩ : s.mode = .down ∧ (recover s.disk 0).get sampleKey = .ok [1] ∧
      (recover (stopRecovery s.disk 0 s.disk.wal.replay.length []) 0).get sampleKey =
        .error (.notFound (text "tombstoned: k")) ∧
      ¬timeless (recover (stopRecovery s.disk 0 s.disk.wal.replay.length []) 0).metadata.objects[sampleKey]? =
        timeless (recover s.disk 0).metadata.objects[sampleKey]? := by
    rw [← begun]
    decide +kernel
  exact ⟨s, begun ▸ Machine.run_reachable _ killedRewrite, down, once, twice, fun same => rows (same.rows sampleKey)⟩

end Dos.Storage
