import Mathlib.Data.List.Nodup
import Mathlib.Data.List.Perm.Basic
import DistributedObjectStorage.Storage.StoreRecovery

/-!
# Crashes, recovery and whole runs

Each action of the machine keeps the invariant; the run lemma follows.
-/
namespace Dos.Storage
open Transition

/-! ## Inside `K` and `D` -/

section Contained
variable {K D : Set Bytes} {d d' : Disk} {seen : Observed} {nextSeq : ℕ} {others : List Job} {job : Job}

theorem Wal.openRecords_append {records : List WalRecord} {rec added : WalRecord}
    (h : rec ∈ Wal.openRecords (records ++ [added])) :
    rec ∈ Wal.openRecords records ∨ rec = added ∧ added.isCommit = false := by
  obtain ⟨member, isOpen⟩ := List.mem_filter.mp h
  simp only [Bool.and_eq_true, Bool.not_eq_true', decide_eq_true_eq] at isOpen
  rcases List.mem_append.mp member with old | new
  · refine .inl (List.mem_filter.mpr ⟨old, ?_⟩)
    simp only [Bool.and_eq_true, Bool.not_eq_true', decide_eq_true_eq]
    refine ⟨isOpen.1, fun done => isOpen.2 ?_⟩
    unfold Wal.committed at done ⊢
    rw [List.filter_append, List.map_append]
    exact List.mem_append_left _ done
  · obtain rfl := List.mem_singleton.mp new
    exact .inr ⟨rfl, isOpen.1⟩

theorem Wal.openRecords_appendRecord {w : Wal} {rec added : WalRecord}
    (h : rec ∈ Wal.openRecords (w.appendRecord added).records) :
    rec ∈ Wal.openRecords w.records ∨ rec = added ∧ added.isCommit = false := by
  unfold Wal.appendRecord at h
  split at h
  · exact .inl h
  · exact Wal.openRecords_append h

theorem Job.effect_row {key : Bytes} (ne : job.key ≠ key) :
    ((job.effect d).slot key).row = (d.slot key).row := by
  cases job with
  | put todo seq row data =>
      cases todo with
      | row => exact congrArg Slot.row (d.slot_putRow_ne ne)
      | _ => rfl
  | delete todo seq name =>
      cases todo with
      | row => exact Disk.deleteRow_row_ne ne
      | _ => rfl

def Job.op : Job → WalOp
  | .put _ _ _ _ => .put
  | .delete _ _ _ => .delete

theorem Job.effect_record {rec : WalRecord}
    (h : rec ∈ Wal.openRecords (job.effect d).wal.records) :
    rec ∈ Wal.openRecords d.wal.records ∨ rec.key = job.key ∧ rec.op = job.op := by
  have appended {added : WalRecord}
      (h : rec ∈ Wal.openRecords (d.wal.appendRecord added).records)
      (own : added.isCommit = false → added.key = job.key ∧ added.op = job.op) :
      rec ∈ Wal.openRecords d.wal.records ∨ rec.key = job.key ∧ rec.op = job.op := by
    rcases Wal.openRecords_appendRecord h with old | ⟨rfl, plain⟩
    · exact .inl old
    · exact .inr (own plain)
  cases job with
  | put todo seq row data =>
      cases todo with
      | begin => exact appended h (fun _ => ⟨rfl, rfl⟩)
      | commit => exact appended h (fun plain => Bool.noConfusion plain)
      | _ => exact .inl h
  | delete todo seq name =>
      cases todo with
      | begin => exact appended h (fun _ => ⟨rfl, rfl⟩)
      | commit => exact appended h (fun plain => Bool.noConfusion plain)
      | row => exact .inl h

theorem Job.effect_file {key data : Bytes} (h : ((job.effect d).slot key).file = some data) :
    (d.slot key).file = some data ∨ ∃ row, job.outcome = .stored row data := by
  cases job with
  | put todo seq row written =>
      cases todo with
      | rename =>
          by_cases same : keyDigest row.key = keyDigest key
          · refine .inr ⟨row, ?_⟩
            simp only [Job.effect, Disk.placePayload, Disk.slot, same,
              OrderedMap.lookup_insert_self] at h
            rw [Job.outcome, Option.some.inj h]
          · exact .inl ((congrArg Slot.file (d.slot_placePayload_ne written same)).symm.trans h)
      | _ => exact .inl h
  | delete todo seq name =>
      cases todo with
      | _ => exact .inl h

theorem Contained.advance (contained : Contained K D d seen)
    (run : Running K D d nextSeq (job :: others) seen) :
    Contained K D (job.effect d) (seen.after job) := by
  have inside := run.within job List.mem_cons_self
  refine ⟨fun rec member => ?_, fun key keyIn data file => ?_, fun key out => ?_⟩
  · rcases Job.effect_record member with old | ⟨named, _⟩
    · exact contained.records rec old
    · rw [named]
      exact inside
  · rcases Job.effect_file file with old | ⟨row, written⟩
    · exact contained.files key keyIn data old
    · have busy := (run.busy job List.mem_cons_self).stage
      cases job with
      | put todo seq row' data' =>
          cases written
          exact busy.1.payload
      | delete todo seq name => cases written
  · have ne : key ≠ job.key := fun same => out (same ▸ inside)
    obtain ⟨settled, acked⟩ := seen.after_agree job key ne
    rw [Job.effect_row ne.symm, settled, acked]
    exact contained.outside key out

end Contained

/-! ## Starting a mutation -/

section Start
variable {K D : Set Bytes} {d : Disk} {seen : Observed} {nextSeq : ℕ} {jobs : List Job}

/-- The version stored for the key has a successor. -/
def Disk.Room (d : Disk) (key : Bytes) : Prop := (d.slot key).version + 1 < 2 ^ 64

/-- The row that `DoPut` plans is newer than the current one. -/
theorem planPut_write {req : WriteRequest} {now : Int} {row : ObjectMetadata}
    (assigned : req.explicitVersion = 0) (room : d.Room req.key) (plan : planPut d req now = .write row) :
    row.key = req.key ∧ sha256Hex req.data = row.checksum ∧ row.deleted = false ∧
      (d.slot req.key).version < row.version := by
  have write {current : ℕ} (same : (d.slot req.key).version = current)
      (h : planWrite req current now = .write row) :
      row.key = req.key ∧ sha256Hex req.data = row.checksum ∧ row.deleted = false ∧
        (d.slot req.key).version < row.version := by
    unfold planWrite at h
    split at h
    · cases h
    · next agrees =>
        cases h
        refine ⟨rfl, rfl, rfl, ?_⟩
        have newer : (d.slot req.key).version < increment current := same ▸ lt_increment room
        simp only [newRow, assigned, ne_eq, not_true, if_false]
        split
        · next conditional =>
            have expected : current = req.expectedVersion := by simpa [conditional] using agrees
            rwa [← expected]
        · exact newer
  unfold planPut SqliteMetadataStore.peek at plan
  cases found : d.metadata.objects[req.key]? with
  | none =>
      rw [found] at plan
      exact write (by simp [Slot.version, Disk.slot, found]) plan
  | some current =>
      rw [found] at plan
      simp only at plan
      split at plan
      · cases plan
      · exact write (by simp [Slot.version, Disk.slot, found, readRow]) plan

/-- A mutation takes a free key. -/
theorem Running.launch (run : Running K D d nextSeq jobs seen) {job : Job} (seq : job.seq = nextSeq)
    (inside : job.key ∈ K) (free : job.key ∉ jobs.map Job.key)
    (ok : Calm d seen job.key →
      JobOk D job.key (d.slot job.key) (seen.settled job.key = d.view job.key) job) :
    Running K D d (nextSeq + 1) (job :: jobs)
      { seen with acked := Function.update seen.acked job.key none } := by
  have calm := run.calm _ inside free
  refine ⟨run.log.launch seq, List.nodup_cons.mpr ⟨free, run.keys⟩,
    List.forall_mem_cons.mpr ⟨inside, run.within⟩, List.forall_mem_cons.mpr ⟨⟨ok calm, ?_⟩, ?_⟩, ?_⟩
  · exact Function.update_self ..
  · intro other member
    have ne : other.key ≠ job.key := fun same => free (List.mem_map.mpr ⟨other, member, same⟩)
    exact (run.busy other member).frame rfl rfl (Function.update_of_ne ne ..)
  · intro key keyIn unowned
    simp only [List.map_cons, List.mem_cons, not_or] at unowned
    exact (run.calm key keyIn unowned.2).frame rfl rfl (Function.update_of_ne unowned.1 ..)

/-- The calls that the run may make. -/
def Mutation.Fits (K D : Set Bytes) : Mutation → Prop
  | .put key data | .putConditional key data _ _ => key ∈ K ∧ data ∈ D
  | .putWithVersion _ _ _ => False
  | .delete key => key ∈ K

def StoreAction.Fits (K D : Set Bytes) : StoreAction → Prop
  | .start m _ => m.Fits K D
  | _ => True

/-- No delete of the key left its BEGIN record open in the log. -/
def Disk.NoOpenDelete (d : Disk) (key : Bytes) : Prop :=
  ∀ rec ∈ Wal.openRecords d.wal.records, rec.op = .delete → rec.key ≠ key

/-- A write starts only when no delete of its key left an open record and the
version of its key has a successor. -/
def Admissible (K D : Set Bytes) (s : Machine) : StoreAction → Prop
  | .start m now =>
      m.Fits K D ∧ ∀ req row, m.request = some req → planPut s.disk req now = .write row →
        s.disk.NoOpenDelete req.key ∧ s.disk.Room req.key
  | _ => True

theorem Mutation.Fits.request {m : Mutation} (fits : m.Fits K D) {req : WriteRequest}
    (h : m.request = some req) :
    req.key = m.key ∧ req.key ∈ K ∧ req.data ∈ D ∧ req.explicitVersion = 0 := by
  cases m with
  | put key data =>
      simp only [Mutation.request, Option.ite_none_left_eq_some, Option.some.injEq] at h
      rw [← h.2]
      exact ⟨rfl, fits.1, fits.2, rfl⟩
  | putWithVersion key data version => exact fits.elim
  | putConditional key data expected requestId =>
      simp only [Mutation.request, Option.ite_none_left_eq_some, Option.some.injEq] at h
      rw [← h.2]
      exact ⟨rfl, fits.1, fits.2, rfl⟩
  | delete key => cases h

theorem Running.launched {s : Machine} (contained : Contained K D s.disk s.seen)
    (run : Running K D s.disk nextSeq jobs s.seen) {job : Job} (seq : job.seq = nextSeq)
    (inside : job.key ∈ K) (free : job.key ∉ jobs.map Job.key)
    (ok : Calm s.disk s.seen job.key →
      JobOk D job.key (s.disk.slot job.key) (s.seen.settled job.key = s.disk.view job.key) job) :
    (s.launch nextSeq jobs job).Ok K D := by
  refine ⟨⟨contained.records, contained.files, fun key out => ?_⟩, ?_⟩
  · obtain ⟨row, settled, acked⟩ := contained.outside key out
    have ne : key ≠ job.key := fun same => out (same ▸ inside)
    exact ⟨row, settled, (Function.update_of_ne ne ..).trans acked⟩
  · exact (run.launch seq inside free ok).perm (List.perm_append_singleton job jobs).symm

theorem Running.begin {s : Machine} (contained : Contained K D s.disk s.seen)
    (run : Running K D s.disk nextSeq jobs s.seen) (mode : s.mode = .running nextSeq jobs)
    {m : Mutation} {now : Int} (admissible : Admissible K D s (.start m now))
    (free : m.key ∉ jobs.map Job.key) : (s.begin nextSeq jobs m now).Ok K D := by
  obtain ⟨fits, clean⟩ := admissible
  rcases s.begin_cases nextSeq jobs m now with same | ⟨key, rfl, same⟩ | ⟨req, row, requested, plan, same⟩
  · rw [same]
    refine ⟨contained, ?_⟩
    rw [mode]
    exact run
  · rw [same]
    exact run.launched contained rfl fits free
      (fun calm => ⟨rfl, calm.intact, calm.settled, calm.left⟩)
  · obtain ⟨key, inside, payload, assigned⟩ := fits.request requested
    obtain ⟨noDelete, room⟩ := clean req row requested plan
    obtain ⟨named, sum, live, newer⟩ := planPut_write assigned room plan
    rw [← named] at key inside newer noDelete
    rw [same]
    refine run.launched contained rfl inside (by rw [Job.key, key]; exact free) (fun calm => ?_)
    refine ⟨⟨rfl, sum, live, payload⟩, calm.intact, calm.settled, ?_, newer⟩
    -- what is left open on a key at rest are deletes, and the condition rules them out
    refine List.eq_nil_iff_forall_not_mem.mpr (fun rec member => ?_)
    obtain ⟨isOpen, here⟩ := List.mem_filter.mp member
    exact noDelete rec isOpen (calm.left rec member).1 (of_decide_eq_true here)

end Start

/-! ## Crashes and recovery -/

section Crashes
variable {K D : Set Bytes} {d : Disk} {seen : Observed} {nextSeq : ℕ} {jobs : List Job}

theorem find_job (keys : (jobs.map Job.key).Nodup) {job : Job} (member : job ∈ jobs) :
    jobs.find? (·.key = job.key) = some job := by
  cases found : jobs.find? (·.key = job.key) with
  | none => exact absurd (List.find?_eq_none.mp found job member) (by simp)
  | some other =>
      have same : other.key = job.key := by simpa using List.find?_some found
      rw [List.inj_on_of_nodup_map keys (List.mem_of_find?_eq_some found) member same]

theorem find_none {key : Bytes} (free : key ∉ jobs.map Job.key) :
    jobs.find? (·.key = key) = none := by
  refine List.find?_eq_none.mpr (fun job member => ?_)
  have ne : job.key ≠ key := fun same => free (List.mem_map.mpr ⟨job, member, same⟩)
  simpa using ne

/-- A crash of a running store: the mutations in flight become pending. -/
theorem Running.crash (contained : Contained K D d seen) (run : Running K D d nextSeq jobs seen) :
    Crashed K D d
      { seen with pending := fun key => (jobs.find? (·.key = key)).map Job.outcome } := by
  refine ⟨fun key inside => ?_, fun key outcome member => ?_⟩
  · by_cases owned : key ∈ jobs.map Job.key
    · obtain ⟨job, member, rfl⟩ := List.mem_map.mp owned
      simp only [find_job run.keys member, Option.map_some]
      exact (run.busy job member).stage.interrupted
    · have calm := run.calm key inside owned
      exact .still calm.intact calm.left.inert (.inl calm.settled)
  · have inside : key ∈ K := by
      by_contra out
      rw [(contained.outside key out).2.2] at member
      cases member
    have free : key ∉ jobs.map Job.key := by
      intro owned
      obtain ⟨job, busy, rfl⟩ := List.mem_map.mp owned
      rw [(run.busy job busy).unacked] at member
      cases member
    exact ⟨by simp [find_none free], (run.calm key inside free).acked outcome member⟩

/-- Acting on the record of an interrupted mutation finishes it. -/
theorem Interrupted.finish {rec : WalRecord} {outcome : Outcome} {committed : List ℕ} {now : Int}
    (isOpen : ¬(rec.isCommit = true ∨ rec.seq ∈ committed))
    (opened : (d.slot rec.key).opened = [rec]) (live : ¬(d.slot rec.key).Inert rec)
    (finishes : Finishes D rec outcome) :
    (∀ other, rec.key ≠ other → (recoverRecord committed now d rec).slot other = d.slot other) ∧
      ((recoverRecord committed now d rec).slot rec.key).Intact ∧
      (∀ r ∈ ((recoverRecord committed now d rec).slot rec.key).opened,
        ((recoverRecord committed now d rec).slot rec.key).Inert r) ∧
      Realizes D ((recoverRecord committed now d rec).slot rec.key) outcome := by
  cases outcome with
  | stored row data =>
      obtain ⟨payload, sum, kind, version, size, checksum⟩ := finishes
      rw [recoverRecord_put isOpen kind live]
      have slot : (d.putRow (recoveredRow rec now)).slot rec.key =
          { d.slot rec.key with row := some (recoveredRow rec now) } :=
        d.slot_putRow (recoveredRow rec now)
      have file : ∃ stored, (d.slot rec.key).file = some stored ∧ sha256Hex stored = rec.checksum := by
        unfold Slot.Inert at live
        rw [kind] at live
        push Not at live
        exact live.2
      obtain ⟨stored, file, same⟩ := file
      rw [slot]
      refine ⟨fun other ne => d.slot_putRow_ne ne, ?_, ?_, payload, sum, recoveredRow rec now, stored,
        rfl, rfl, version, size, checksum, file, same.trans checksum⟩
      · rintro _ ⟨⟩ _
        exact ⟨stored, file, same⟩
      · rw [opened]
        simp only [List.mem_singleton, forall_eq, Slot.Inert, kind]
        exact .inl ⟨_, rfl, le_rfl⟩
  | removed =>
      have kind : rec.op = .delete := finishes
      unfold Slot.Inert at live
      rw [kind] at live
      obtain ⟨row, found, alive⟩ := Slot.live_of_not_dead live
      obtain ⟨_, slot, frame⟩ := Disk.deleteRow_live found alive
      rw [recoverRecord_delete isOpen kind found alive, slot]
      refine ⟨frame, ?_, ?_, _, rfl, rfl⟩
      · rintro _ ⟨⟩ live
        cases live
      · rw [opened]
        simp only [List.mem_singleton, forall_eq, Slot.Inert, kind]
        rintro _ ⟨⟩
        rfl

/-- A record that recovery passes over is accounted for where it stands. -/
theorem Progress.skip {rec : WalRecord} {rest : List WalRecord} (progress : Progress K d (rec :: rest))
    (inert : ∀ key ∈ K, rec ∈ (d.slot key).opened → (d.slot key).Inert rec) : Progress K d rest := by
  constructor
  · intro r member
    exact progress.logged r (List.mem_cons_of_mem _ member)
  · intro key inside r member
    rcases progress.left key inside r member with done | todo
    · exact .inl done
    · rcases List.mem_cons.mp todo with rfl | later
      · exact .inl (inert key inside member)
      · exact .inr later

section Settled
variable {d' : Disk} {key : Bytes} (frame : ∀ other, key ≠ other → d'.slot other = d.slot other)
include frame

theorem Contained.settle (contained : Contained K D d seen) (inside : key ∈ K) (wal : d'.wal = d.wal)
    (files : d'.files = d.files) : Contained K D d' seen := by
  constructor
  · rw [wal]
    exact contained.records
  · intro other otherIn data file
    apply contained.files other otherIn data
    simpa only [Disk.slot, files] using file
  · intro other out
    rw [frame other (fun same => out (same ▸ inside))]
    exact contained.outside other out

theorem Crashed.settle (crashed : Crashed K D d seen) {outcome : Outcome}
    (pending : seen.pending key = some outcome) (intact : (d'.slot key).Intact)
    (inert : ∀ r ∈ (d'.slot key).opened, (d'.slot key).Inert r)
    (realizes : Realizes D (d'.slot key) outcome) : Crashed K D d' seen := by
  constructor
  · intro other otherIn
    by_cases same : key = other
    · subst same
      exact .still intact inert (.inr ⟨_, pending, realizes⟩)
    · rw [frame other same, Disk.view_slot (frame other same)]
      exact crashed.each other otherIn
  · intro other acked member
    obtain ⟨quiet, shows⟩ := crashed.acked other acked member
    have ne : key ≠ other := by
      rintro rfl
      rw [pending] at quiet
      cases quiet
    rw [frame other ne]
    exact ⟨quiet, shows⟩

theorem Progress.settle {rec : WalRecord} {rest : List WalRecord} (named : rec.key = key)
    (progress : Progress K d (rec :: rest)) (wal : d'.wal = d.wal)
    (inert : ∀ r ∈ (d'.slot key).opened, (d'.slot key).Inert r) : Progress K d' rest := by
  constructor
  · intro r member
    rw [wal]
    exact progress.logged r (List.mem_cons_of_mem _ member)
  · intro other otherIn r member
    by_cases same : key = other
    · subst same
      exact .inl (inert r member)
    · rw [frame other same] at member ⊢
      rcases progress.left other otherIn r member with done | todo
      · exact .inl done
      · rcases List.mem_cons.mp todo with rfl | later
        · exact absurd (named.symm.trans (of_decide_eq_true (List.mem_filter.mp member).2)) same
        · exact .inr later

end Settled

/-- One iteration of recovery. -/
theorem Crashed.recover (contained : Contained K D d seen) (crashed : Crashed K D d seen)
    {rec : WalRecord} {rest : List WalRecord} (progress : Progress K d (rec :: rest)) (now : Int) :
    Contained K D (recoverRecord (Wal.committed d.wal.records) now d rec) seen ∧
      Crashed K D (recoverRecord (Wal.committed d.wal.records) now d rec) seen ∧
      Progress K (recoverRecord (Wal.committed d.wal.records) now d rec) rest := by
  by_cases closed : rec.isCommit = true ∨ rec.seq ∈ Wal.committed d.wal.records
  · rw [recoverRecord_closed closed now]
    refine ⟨contained, crashed, progress.skip (fun key _ member => ?_)⟩
    have isOpen := (List.mem_filter.mp (List.mem_filter.mp member).1).2
    simp only [Bool.and_eq_true, Bool.not_eq_true', decide_eq_true_eq] at isOpen
    rcases closed with commit | done
    · simp [commit] at isOpen
    · exact absurd done isOpen.2
  · have isOpen : rec ∈ Wal.openRecords d.wal.records := by
      refine List.mem_filter.mpr ⟨progress.logged rec List.mem_cons_self, ?_⟩
      simpa using closed
    have inside := contained.records rec isOpen
    have here : rec ∈ (d.slot rec.key).opened := List.mem_filter.mpr ⟨isOpen, by simp⟩
    cases crashed.each rec.key inside with
    | still intact inert rested =>
        rw [recoverRecord_inert (inert rec here) now]
        refine ⟨contained, crashed, progress.skip (fun key _ member => ?_)⟩
        have named : rec.key = key := of_decide_eq_true (List.mem_filter.mp member).2
        rw [← named]
        exact inert rec here
    | halfway opened live pending finishes =>
        rw [opened, List.mem_singleton] at here
        subst here
        obtain ⟨frame, intact, inert, realizes⟩ := Interrupted.finish closed opened live finishes
        obtain ⟨wal, files⟩ := recoverRecord_frame d rec (Wal.committed d.wal.records) now
        exact ⟨contained.settle frame inside wal files, crashed.settle frame pending intact inert realizes,
          progress.settle frame rfl wal inert⟩

/-- After the last record nothing is left to act on. -/
theorem Interrupted.resolved {p : Slot} {atRest : Prop} {pending : Option Outcome}
    (h : Interrupted D p atRest pending) (done : ∀ rec ∈ p.opened, p.Inert rec) :
    p.Intact ∧ (atRest ∨ ∃ outcome ∈ pending, Realizes D p outcome) := by
  cases h with
  | still intact _ rested => exact ⟨intact, rested⟩
  | halfway opened live _ _ =>
      refine absurd (done _ ?_) live
      rw [opened]
      exact List.mem_singleton_self _

theorem Progress.done (progress : Progress K d []) {key : Bytes} (inside : key ∈ K) :
    ∀ rec ∈ (d.slot key).opened, (d.slot key).Inert rec := by
  intro rec member
  rcases progress.left key inside rec member with inert | todo
  · exact inert
  · exact absurd todo List.not_mem_nil

/-- The checkpoint opens the store on what recovery left. -/
theorem Crashed.truncate (contained : Contained K D d seen) (crashed : Crashed K D d seen)
    (progress : Progress K d []) :
    Contained K D { d with wal := .empty } { seen with settled := d.view, pending := fun _ => none } ∧
      Running K D { d with wal := .empty } 1 []
        { seen with settled := d.view, pending := fun _ => none } := by
  refine ⟨⟨?_, contained.files, fun key out => ?_⟩, ⟨⟨rfl, ?_, ?_, List.nodup_nil, ?_, ?_⟩,
    List.nodup_nil, ?_, ?_, fun key inside _ => ⟨?_, rfl, ?_, ?_⟩⟩⟩
  · exact List.forall_mem_nil _
  · obtain ⟨row, _, acked⟩ := contained.outside key out
    exact ⟨row, Disk.view_absent row, acked⟩
  · exact List.forall_mem_nil _
  · exact List.forall_mem_nil _
  · exact List.forall_mem_nil _
  · exact List.forall_mem_nil _
  · exact List.forall_mem_nil _
  · exact List.forall_mem_nil _
  · exact ((crashed.each key inside).resolved (progress.done inside)).1
  · exact List.forall_mem_nil _
  · exact fun outcome member => (crashed.acked key outcome member).2

end Crashes

/-! ## Runs -/

section Runs
variable {K D : Set Bytes} {s : Machine}

theorem Machine.initial_ok : Machine.initial.Ok K D := by
  have absent (key : Bytes) : (Disk.empty.slot key).row = none := by simp [Disk.slot, Disk.empty]
  have noFile (key : Bytes) : (Disk.empty.slot key).file = none := by simp [Disk.slot, Disk.empty]
  refine ⟨⟨?_, ?_, fun key _ => ⟨absent key, Disk.view_absent (absent key), rfl⟩⟩,
    fun key _ => .still ?_ ?_ (.inl rfl), ?_⟩
  · exact List.forall_mem_nil _
  · intro key _ data file
    change (Disk.empty.slot key).file = some data at file
    rw [noFile key] at file
    cases file
  · intro row found
    change (Disk.empty.slot key).row = some row at found
    rw [absent key] at found
    cases found
  · exact List.forall_mem_nil _
  · intro key outcome member
    cases member

theorem Machine.Ok.crash (ok : s.Ok K D) (torn : Bool) : (s.crash torn).Ok K D := by
  have contained := ok.contained
  have mode := ok.mode
  unfold Machine.crash
  cases state : s.mode with
  | down =>
      rw [state] at mode
      exact ⟨contained, mode⟩
  | recovering committed rest =>
      rw [state] at mode
      exact ⟨contained, mode.1⟩
  | checkpointing =>
      rw [state] at mode
      exact ⟨contained, mode.1⟩
  | running nextSeq jobs =>
      rw [state] at mode
      have crashed := Running.crash contained mode
      -- a torn tail hides no record that was whole
      simp only
      split
      · exact ⟨⟨contained.records, contained.files, contained.outside⟩, crashed.each, crashed.acked⟩
      · exact ⟨⟨contained.records, contained.files, contained.outside⟩, crashed⟩

theorem Machine.Ok.advance (digests : Set.InjOn keyDigest K) (ok : s.Ok K D) {nextSeq k : ℕ}
    {jobs : List Job} {job : Job} (mode : s.mode = .running nextSeq jobs) (at_k : jobs[k]? = some job) :
    (s.advance nextSeq jobs k job).Ok K D := by
  have run := ok.mode
  rw [mode] at run
  obtain ⟨bound, rfl⟩ := List.getElem?_eq_some_iff.mp at_k
  have first := Running.perm (List.getElem_cons_eraseIdx_perm bound).symm run
  exact ⟨ok.contained.advance first, first.advance digests⟩

theorem Machine.Ok.move (digests : Set.InjOn keyDigest K) (ok : s.Ok K D) {act : StoreAction}
    {s' : Machine} (move : Move s act s') (admissible : Admissible K D s act) : s'.Ok K D := by
  have mode := ok.mode
  cases move with
  | stay => exact ok
  | begin state free =>
      rw [state] at mode
      exact Running.begin ok.contained mode state admissible free
  | advance state found => exact ok.advance digests state found
  | crash torn => exact ok.crash torn
  | reopen state =>
      rw [state] at mode
      refine ⟨ok.contained, mode, rfl, fun rec member => member, fun key _ rec member => .inr ?_⟩
      exact (List.mem_filter.mp (List.mem_filter.mp member).1).1
  | recover now state =>
      rw [state] at mode
      obtain ⟨crashed, rfl, progress⟩ := mode
      obtain ⟨contained, crashed, progress⟩ := crashed.recover ok.contained progress now
      refine ⟨contained, crashed, ?_, progress⟩
      rw [(recoverRecord_frame s.disk _ _ now).1]
  | clean state =>
      rw [state] at mode
      obtain ⟨crashed, _, progress⟩ := mode
      have contained := ok.contained
      exact ⟨⟨contained.records, contained.files, contained.outside⟩,
        ⟨crashed.each, crashed.acked⟩, progress.logged, progress.left⟩
  | truncate state =>
      rw [state] at mode
      obtain ⟨contained, run⟩ := mode.1.truncate ok.contained mode.2
      exact ⟨contained, run⟩

/-- The run lemma. -/
theorem reachable_ok (digests : Set.InjOn keyDigest K) {shard : Bytes → ℕ}
    (reachable : (Machine.system shard (Admissible K D)).Reachable s) : s.Ok K D := by
  apply reachable.invariant
  · rintro _ rfl
    exact Machine.initial_ok
  · rintro before _ _ ok ⟨act, admissible, rfl⟩
    exact ok.move digests (before.exec_move shard act) admissible

end Runs
end Dos.Storage
