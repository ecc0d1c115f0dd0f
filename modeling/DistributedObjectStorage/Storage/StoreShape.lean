import DistributedObjectStorage.Storage.StoreReachable
import DistributedObjectStorage.Storage.StoreReplay

/-!
# The log in every run

Whatever calls a run makes, the open records of a key are deletes that found
nothing, and behind them at most the record of one mutation in flight. This
holds without any condition on the calls.
-/
namespace Dos.Storage
open Transition

/-- What the mutation has written to the log and not closed yet. -/
def Job.logged : Job → List WalRecord
  | .put .begin _ _ _ | .delete .begin _ _ => []
  | .put _ seq row _ => [putRecord seq row]
  | .delete _ seq key => [deleteRecord seq key]

/-- Deletes that found nothing, and then the given records. -/
def Leftovers (own opened : List WalRecord) : Prop :=
  ∃ left, opened = left ++ own ∧ ∀ rec ∈ left, rec.op = .delete

structure LogShape (d : Disk) (nextSeq : ℕ) (jobs : List Job) : Prop where
  log : LogOk d.wal nextSeq jobs
  keys : (jobs.map Job.key).Nodup
  busy : ∀ job ∈ jobs, Leftovers job.logged (d.slot job.key).opened
  idle : ∀ key ∉ jobs.map Job.key, Leftovers [] (d.slot key).opened

/-- After a crash a key has one interrupted mutation at most. -/
def OneInterrupted (d : Disk) : Prop :=
  ∀ key, ∃ own, own.length ≤ 1 ∧ Leftovers own (d.slot key).opened

def Machine.Shaped (s : Machine) : Prop :=
  match s.mode with
  | .running nextSeq jobs => LogShape s.disk nextSeq jobs
  | _ => OneInterrupted s.disk

section Log
variable {d d' : Disk} {nextSeq : ℕ} {jobs others : List Job} {job : Job}

theorem LogShape.perm {jobs' : List Job} (same : jobs.Perm jobs') (shape : LogShape d nextSeq jobs) :
    LogShape d nextSeq jobs' where
  log := shape.log.perm same
  keys := (same.map Job.key).nodup_iff.mp shape.keys
  busy := fun job member => shape.busy job (same.mem_iff.mpr member)
  idle := fun key free =>
    shape.idle key (fun member => free ((same.map Job.key).mem_iff.mp member))

/-- Entries with distinct keys stay apart from the one that is taken out. -/
theorem key_ne_of_mem_eraseIdx {α : Type} (key : α → Bytes) {entries : List α} {entry other : α} {k : ℕ}
    (distinct : (entries.map key).Nodup) (found : entries[k]? = some entry)
    (member : other ∈ entries.eraseIdx k) : key entry ≠ key other := by
  obtain ⟨bound, rfl⟩ := List.getElem?_eq_some_iff.mp found
  have apart := ((List.getElem_cons_eraseIdx_perm bound).map key).nodup_iff.mpr distinct
  exact fun same => (List.nodup_cons.mp apart).1 (List.mem_map.mpr ⟨other, member, same.symm⟩)

/-- Every other mutation in flight has another key. -/
theorem LogShape.elsewhere (shape : LogShape d nextSeq jobs) {k : ℕ} (found : jobs[k]? = some job)
    {other : Job} (member : other ∈ jobs.eraseIdx k) : job.key ≠ other.key :=
  key_ne_of_mem_eraseIdx Job.key shape.keys found member

theorem Leftovers.finish {own opened : List WalRecord} (left : Leftovers own opened)
    (deletes : ∀ rec ∈ own, rec.op = .delete) : Leftovers [] opened := by
  obtain ⟨before, rfl, all⟩ := left
  refine ⟨before ++ own, (List.append_nil _).symm, fun rec member => ?_⟩
  rcases List.mem_append.mp member with old | new
  · exact all rec old
  · exact deletes rec new

/-- One mutation moved on: the records of other keys are as before. -/
theorem LogShape.move (shape : LogShape d nextSeq (job :: others)) (next : Option Job)
    (log : LogOk d'.wal nextSeq (next.toList ++ others))
    (frame : ∀ other, job.key ≠ other → (d'.slot other).opened = (d.slot other).opened)
    (ended : next = none → Leftovers [] (d'.slot job.key).opened)
    (goesOn : ∀ rest, next = some rest →
      rest.key = job.key ∧ Leftovers rest.logged (d'.slot job.key).opened) :
    LogShape d' nextSeq (next.toList ++ others) := by
  obtain ⟨alone, keys⟩ := List.nodup_cons.mp shape.keys
  have elsewhere (other : Job) (member : other ∈ others) :
      Leftovers other.logged (d'.slot other.key).opened := by
    have ne : job.key ≠ other.key := fun same => alone (List.mem_map.mpr ⟨other, member, same.symm⟩)
    rw [frame _ ne]
    exact shape.busy other (List.mem_cons_of_mem _ member)
  have idle (key : Bytes) (ne : job.key ≠ key) (free : key ∉ others.map Job.key) :
      Leftovers [] (d'.slot key).opened := by
    rw [frame _ ne]
    refine shape.idle key (fun member => ?_)
    rcases List.mem_cons.mp member with same | later
    · exact ne same.symm
    · exact free later
  cases next with
  | none =>
      refine ⟨log, keys, elsewhere, fun key free => ?_⟩
      by_cases same : job.key = key
      · subst same
        exact ended rfl
      · exact idle key same free
  | some rest =>
      obtain ⟨named, own⟩ := goesOn rest rfl
      refine ⟨log, ?_, ?_, ?_⟩
      · simp only [Option.toList_some, List.singleton_append, List.map_cons, named]
        exact shape.keys
      · refine List.forall_mem_cons.mpr ⟨?_, elsewhere⟩
        rw [named]
        exact own
      · intro key free
        simp only [Option.toList_some, List.singleton_append, List.map_cons, named, List.mem_cons,
          not_or] at free
        exact idle key (Ne.symm free.1) free.2

/-- A disk step touches the open records of its own key only. -/
theorem LogOk.effect_opened_ne (ok : LogOk d.wal nextSeq (job :: others)) {other : Bytes}
    (ne : job.key ≠ other) : ((job.effect d).slot other).opened = (d.slot other).opened := by
  have unused := ok.uncommitted job List.mem_cons_self
  have owned := ok.owned job List.mem_cons_self
  cases job with
  | put todo seq row data =>
      cases todo with
      | begin => exact congrArg Slot.opened (d.slot_appendBegin_ne ok.whole unused _ _ _ _ ne)
      | commit => exact congrArg Slot.opened (d.slot_appendCommit_ne ok.whole seq owned ne)
      | _ => rfl
  | delete todo seq key =>
      cases todo with
      | begin => exact congrArg Slot.opened (d.slot_appendBegin_ne ok.whole unused _ _ _ _ ne)
      | row => rfl
      | commit => exact congrArg Slot.opened (d.slot_appendCommit_ne ok.whole seq owned ne)

theorem Leftovers.begin {opened : List WalRecord} (left : Leftovers [] opened) (rec : WalRecord) :
    Leftovers [rec] (opened ++ [rec]) := by
  obtain ⟨before, rfl, all⟩ := left
  exact ⟨before, by rw [List.append_nil], all⟩

/-- A COMMIT closes the record of its mutation and leaves deletes. -/
theorem Leftovers.commit {seq : ℕ} {rec : WalRecord} {opened : List WalRecord}
    (left : Leftovers [rec] opened) (own : rec.seq = seq) :
    Leftovers [] (opened.filter (·.seq ≠ seq)) := by
  obtain ⟨before, rfl, all⟩ := left
  refine ⟨before.filter (·.seq ≠ seq), ?_, fun r member => all r (List.mem_filter.mp member).1⟩
  rw [List.filter_append, List.append_nil]
  simp [own]

theorem LogShape.advance (shape : LogShape d nextSeq (job :: others)) :
    LogShape (job.effect d) nextSeq ((job.next d).toList ++ others) := by
  have own := shape.busy job List.mem_cons_self
  have whole := shape.log.whole
  have unused := shape.log.uncommitted job List.mem_cons_self
  refine shape.move _ shape.log.advance (fun other ne => shape.log.effect_opened_ne ne) ?_ ?_
  · intro ended
    cases job with
    | put todo seq row data =>
        cases todo with
        | commit =>
            have slot : ((d.appendCommit seq).slot row.key).opened = _ :=
              congrArg Slot.opened (d.slot_appendCommit whole seq)
            exact slot ▸ own.commit rfl
        | _ => cases ended
    | delete todo seq key =>
        cases todo with
        | begin => cases ended
        | row => exact own.finish (by simp [Job.logged, deleteRecord, WalRecord.begin])
        | commit =>
            have slot : ((d.appendCommit seq).slot key).opened = _ :=
              congrArg Slot.opened (d.slot_appendCommit whole seq)
            exact slot ▸ own.commit rfl
  · intro rest goesOn
    cases job with
    | put todo seq row data =>
        cases todo with
        | begin =>
            cases goesOn
            have slot : ((d.appendBegin seq .put row.key row.version row.checksum row.size).slot
                row.key).opened = _ :=
              congrArg Slot.opened (d.slot_appendBegin whole unused .put row.version row.checksum row.size)
            exact ⟨rfl, slot ▸ own.begin _⟩
        | commit => cases goesOn
        | _ =>
            cases goesOn
            exact ⟨rfl, own⟩
    | delete todo seq key =>
        cases todo with
        | begin =>
            cases goesOn
            have slot : ((d.appendBegin seq .delete key 0 [] 0).slot key).opened = _ :=
              congrArg Slot.opened (d.slot_appendBegin whole unused .delete 0 [] 0)
            exact ⟨rfl, slot ▸ own.begin _⟩
        | row =>
            simp only [Job.next, Option.ite_none_right_eq_some, Option.some.injEq] at goesOn
            obtain ⟨_, rfl⟩ := goesOn
            exact ⟨rfl, own⟩
        | commit => cases goesOn

theorem LogShape.launch (shape : LogShape d nextSeq jobs) (seq : job.seq = nextSeq)
    (free : job.key ∉ jobs.map Job.key) (fresh : job.logged = []) :
    LogShape d (nextSeq + 1) (jobs ++ [job]) := by
  refine LogShape.perm (List.perm_append_singleton job jobs).symm
    ⟨shape.log.launch seq, List.nodup_cons.mpr ⟨free, shape.keys⟩,
      List.forall_mem_cons.mpr ⟨?_, shape.busy⟩, fun key unowned => ?_⟩
  · rw [fresh]
    exact shape.idle _ free
  · exact shape.idle key (fun member => unowned (List.mem_cons_of_mem _ member))

/-- A log that was just truncated. -/
theorem LogShape.fresh (empty : d.wal = .empty) : LogShape d 1 [] := by
  have none (key : Bytes) : (d.slot key).opened = [] := by
    rw [Disk.slot, empty]
    rfl
  refine ⟨⟨by rw [empty]; rfl, ?_, ?_, List.nodup_nil, ?_, ?_⟩, List.nodup_nil, ?_, fun key _ => ?_⟩
  · rw [empty]
    exact List.forall_mem_nil _
  · exact List.forall_mem_nil _
  · exact List.forall_mem_nil _
  · exact List.forall_mem_nil _
  · exact List.forall_mem_nil _
  · exact ⟨[], none key, List.forall_mem_nil _⟩

theorem LogShape.interrupted (shape : LogShape d nextSeq jobs) : OneInterrupted d := by
  intro key
  by_cases owned : key ∈ jobs.map Job.key
  · obtain ⟨job, member, rfl⟩ := List.mem_map.mp owned
    refine ⟨job.logged, ?_, shape.busy job member⟩
    cases job with
    | put todo seq row data => cases todo <;> simp [Job.logged]
    | delete todo seq key => cases todo <;> simp [Job.logged]
  · exact ⟨[], Nat.zero_le 1, shape.idle key owned⟩

end Log

/-! ## Runs -/

section Runs
variable {s : Machine}

theorem Machine.Shaped.interrupted (shaped : s.Shaped) : OneInterrupted s.disk := by
  unfold Machine.Shaped at shaped
  split at shaped
  · exact shaped.interrupted
  · exact shaped

theorem Machine.Shaped.running (shaped : s.Shaped) {nextSeq : ℕ} {jobs : List Job}
    (mode : s.mode = .running nextSeq jobs) : LogShape s.disk nextSeq jobs := by
  simpa only [Machine.Shaped, mode] using shaped

theorem Machine.Shaped.begin (shaped : s.Shaped) {nextSeq : ℕ} {jobs : List Job}
    (mode : s.mode = .running nextSeq jobs) {m : Mutation} (free : m.key ∉ jobs.map Job.key)
    (now : Int) : (s.begin nextSeq jobs m now).Shaped := by
  have shape := shaped.running mode
  rcases s.begin_cases nextSeq jobs m now with same | ⟨key, rfl, same⟩ | ⟨req, row, requested, plan, same⟩
  · rw [same]
    exact shaped
  · rw [same]
    exact shape.launch rfl free rfl
  · rw [same]
    obtain ⟨_, _, rfl⟩ := planPut_newRow plan
    refine shape.launch rfl ?_ rfl
    rwa [← Mutation.request_key requested] at free

theorem Machine.Shaped.move (shaped : s.Shaped) {act : StoreAction} {s' : Machine}
    (move : Move s act s') : s'.Shaped := by
  cases move with
  | stay => exact shaped
  | begin state free => exact shaped.begin state free _
  | advance state found =>
      have shape := shaped.running state
      obtain ⟨bound, rfl⟩ := List.getElem?_eq_some_iff.mp found
      exact (shape.perm (List.getElem_cons_eraseIdx_perm bound).symm).advance
  | crash torn =>
      have left := shaped.interrupted
      unfold Machine.crash
      split
      · -- a torn tail hides no record that was whole
        simp only
        split
        · exact left
        · exact left
      · exact left
  | reopen state => exact shaped.interrupted
  | recover now state =>
      intro key
      simpa only [recoverRecord_opened] using shaped.interrupted key
  | clean state => exact shaped.interrupted
  | truncate state => exact LogShape.fresh rfl

/-- The run lemma. -/
theorem reachable_shaped {shard : Bytes → ℕ} {allowed : Machine → StoreAction → Prop}
    (reachable : (Machine.system shard allowed).Reachable s) : s.Shaped := by
  apply reachable.invariant
  · rintro _ rfl key
    exact ⟨[], Nat.zero_le 1, [], rfl, List.forall_mem_nil _⟩
  · rintro before _ _ shaped ⟨act, _, rfl⟩
    exact shaped.move (before.exec_move shard act)

end Runs
end Dos.Storage
