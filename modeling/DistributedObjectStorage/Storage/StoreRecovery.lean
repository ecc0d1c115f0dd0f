import DistributedObjectStorage.Storage.StoreInvariant

/-!
# Every reachable state keeps the invariant

`K` holds the keys a run touches and `D` the payloads it writes. Two keys of a
run never share a payload file.
-/
namespace Dos.Storage
open Transition

/-- Nothing outside `K` and `D` is ever touched. -/
structure Contained (K D : Set Bytes) (d : Disk) (seen : Observed) : Prop where
  records : ∀ rec ∈ Wal.openRecords d.wal.records, rec.key ∈ K
  files : ∀ key ∈ K, ∀ data ∈ (d.slot key).file, data ∈ D
  outside : ∀ key ∉ K, (d.slot key).row = none ∧ seen.settled key = absentView key ∧
    seen.acked key = none

/-- A key that no mutation owns. -/
structure Calm (d : Disk) (seen : Observed) (key : Bytes) : Prop where
  intact : (d.slot key).Intact
  settled : seen.settled key = d.view key
  left : (d.slot key).Leftover
  acked : ∀ outcome ∈ seen.acked key, Shows (d.slot key) outcome

/-- A key that a mutation owns. -/
structure Busy (D : Set Bytes) (d : Disk) (seen : Observed) (job : Job) : Prop where
  stage : JobOk D job.key (d.slot job.key) (seen.settled job.key = d.view job.key) job
  unacked : seen.acked job.key = none

structure Running (K D : Set Bytes) (d : Disk) (nextSeq : ℕ) (jobs : List Job) (seen : Observed) :
    Prop where
  log : LogOk d.wal nextSeq jobs
  keys : (jobs.map Job.key).Nodup
  within : ∀ job ∈ jobs, job.key ∈ K
  busy : ∀ job ∈ jobs, Busy D d seen job
  calm : ∀ key ∈ K, key ∉ jobs.map Job.key → Calm d seen key

structure Crashed (K D : Set Bytes) (d : Disk) (seen : Observed) : Prop where
  each : ∀ key ∈ K,
    Interrupted D (d.slot key) (seen.settled key = d.view key) (seen.pending key)
  acked : ∀ key, ∀ outcome ∈ seen.acked key,
    seen.pending key = none ∧ Shows (d.slot key) outcome

/-- What recovery has not looked at yet covers every record it would act on. -/
structure Progress (K : Set Bytes) (d : Disk) (rest : List WalRecord) : Prop where
  logged : ∀ rec ∈ rest, rec ∈ d.wal.records
  left : ∀ key ∈ K, ∀ rec ∈ (d.slot key).opened, (d.slot key).Inert rec ∨ rec ∈ rest

def Mode.Ok (K D : Set Bytes) (d : Disk) (seen : Observed) : Mode → Prop
  | .down => Crashed K D d seen
  | .recovering committed rest =>
      Crashed K D d seen ∧ committed = Wal.committed d.wal.records ∧ Progress K d rest
  | .checkpointing => Crashed K D d seen ∧ Progress K d []
  | .running nextSeq jobs => Running K D d nextSeq jobs seen

structure Machine.Ok (K D : Set Bytes) (s : Machine) : Prop where
  contained : Contained K D s.disk s.seen
  mode : s.mode.Ok K D s.disk s.seen

/-! ## Framing -/

section Frame
variable {K D : Set Bytes} {d d' : Disk} {seen seen' : Observed} {key : Bytes}
  {nextSeq : ℕ} {jobs others : List Job} {job : Job}

theorem Disk.view_slot (same : d'.slot key = d.slot key) : d'.view key = d.view key :=
  Disk.view_congr (by rw [same]) (by rw [same])

theorem Calm.frame (calm : Calm d seen key) (slot : d'.slot key = d.slot key)
    (settled : seen'.settled key = seen.settled key) (acked : seen'.acked key = seen.acked key) :
    Calm d' seen' key where
  intact := by rw [slot]; exact calm.intact
  settled := by rw [settled, Disk.view_slot slot]; exact calm.settled
  left := by rw [slot]; exact calm.left
  acked := by rw [slot, acked]; exact calm.acked

theorem Busy.frame (busy : Busy D d seen job) (slot : d'.slot job.key = d.slot job.key)
    (settled : seen'.settled job.key = seen.settled job.key)
    (acked : seen'.acked job.key = seen.acked job.key) : Busy D d' seen' job where
  stage := by rw [slot, settled, Disk.view_slot slot]; exact busy.stage
  unacked := by rw [acked]; exact busy.unacked

theorem Running.perm {jobs' : List Job} (same : jobs.Perm jobs')
    (run : Running K D d nextSeq jobs seen) : Running K D d nextSeq jobs' seen where
  log := run.log.perm same
  keys := (same.map Job.key).nodup_iff.mp run.keys
  within := fun job member => run.within job (same.mem_iff.mpr member)
  busy := fun job member => run.busy job (same.mem_iff.mpr member)
  calm := fun key inside free =>
    run.calm key inside (fun member => free ((same.map Job.key).mem_iff.mp member))

/-- The ghosts of other keys are as before. -/
def Observed.Agree (seen seen' : Observed) (key : Bytes) : Prop :=
  ∀ other, other ≠ key →
    seen'.settled other = seen.settled other ∧ seen'.acked other = seen.acked other

/-- One mutation moved on: its own key is judged anew, all others are framed. -/
theorem Running.move (run : Running K D d nextSeq (job :: others) seen) (next : Option Job)
    (log : LogOk d'.wal nextSeq (next.toList ++ others))
    (frame : ∀ other ∈ K, other ≠ job.key → d'.slot other = d.slot other)
    (ghosts : seen.Agree seen' job.key)
    (own : match next with
      | none => Calm d' seen' job.key
      | some rest => rest.key = job.key ∧ Busy D d' seen' rest) :
    Running K D d' nextSeq (next.toList ++ others) seen' := by
  obtain ⟨alone, keys⟩ := List.nodup_cons.mp run.keys
  have elsewhere (other : Job) (member : other ∈ others) : other.key ≠ job.key :=
    fun same => alone (List.mem_map.mpr ⟨other, member, same⟩)
  have busyElse (other : Job) (member : other ∈ others) : Busy D d' seen' other :=
    (run.busy other (List.mem_cons_of_mem _ member)).frame
      (frame _ (run.within other (List.mem_cons_of_mem _ member)) (elsewhere other member))
      (ghosts _ (elsewhere other member)).1 (ghosts _ (elsewhere other member)).2
  have calmElse (key : Bytes) (inside : key ∈ K) (ne : key ≠ job.key)
      (free : key ∉ others.map Job.key) : Calm d' seen' key :=
    (run.calm key inside (fun member => by
      rcases List.mem_cons.mp member with same | inOthers
      · exact ne same
      · exact free inOthers)).frame (frame key inside ne) (ghosts key ne).1 (ghosts key ne).2
  have withinElse (other : Job) (member : other ∈ others) : other.key ∈ K :=
    run.within other (List.mem_cons_of_mem _ member)
  cases next with
  | none =>
      refine ⟨log, keys, withinElse, busyElse, fun key inside free => ?_⟩
      by_cases same : key = job.key
      · rw [same]
        exact own
      · exact calmElse key inside same free
  | some rest =>
      obtain ⟨named, busy⟩ := own
      refine ⟨log, ?_, ?_, ?_, ?_⟩
      · simp only [Option.toList_some, List.singleton_append, List.map_cons, named]
        exact run.keys
      · refine List.forall_mem_cons.mpr ⟨?_, withinElse⟩
        rw [named]
        exact run.within job List.mem_cons_self
      · exact List.forall_mem_cons.mpr ⟨busy, busyElse⟩
      · intro key inside free
        simp only [Option.toList_some, List.singleton_append, List.map_cons, named, List.mem_cons,
          not_or] at free
        exact calmElse key inside free.1 free.2

end Frame

/-! ## One disk step of a mutation -/

section Advance
variable {K D : Set Bytes} {d : Disk} {seen : Observed} {nextSeq seq : ℕ} {others : List Job}
  {row : ObjectMetadata} {data key : Bytes}

theorem Observed.after_agree (seen : Observed) (job : Job) : seen.Agree (seen.after job) job.key := by
  intro other ne
  unfold Observed.after
  split
  · simp [ne]
  · exact ⟨rfl, rfl⟩

theorem Running.putBegin (run : Running K D d nextSeq (.put .begin seq row data :: others) seen) :
    Running K D (d.appendBegin seq .put row.key row.version row.checksum row.size) nextSeq
      (.put .stage seq row data :: others) seen := by
  obtain ⟨⟨fresh, intact, rest, opened, older⟩, unacked⟩ := run.busy _ List.mem_cons_self
  have unused : seq ∉ Wal.committed d.wal.records := run.log.uncommitted _ List.mem_cons_self
  refine run.move (some (.put .stage seq row data)) run.log.advance ?_
    (fun _ _ => ⟨rfl, rfl⟩) ⟨rfl, ⟨fresh, ?_⟩, unacked⟩
  · intro other _ ne
    exact d.slot_appendBegin_ne run.log.whole unused _ _ _ _ ne.symm
  · refine ⟨intact, rest, ?_, older⟩
    change (d.slot row.key).opened = [] at opened
    rw [Job.key, d.slot_appendBegin run.log.whole unused, opened]
    rfl

theorem Running.putStage (run : Running K D d nextSeq (.put .stage seq row data :: others) seen) :
    Running K D (d.stagePayload data) nextSeq (.put .rename seq row data :: others) seen := by
  obtain ⟨⟨fresh, ok⟩, unacked⟩ := run.busy _ List.mem_cons_self
  exact run.move (some (.put .rename seq row data)) run.log.advance (fun _ _ _ => rfl)
    (fun _ _ => ⟨rfl, rfl⟩) ⟨rfl, ⟨fresh, ok⟩, unacked⟩

theorem Running.putRename (digests : Set.InjOn keyDigest K)
    (run : Running K D d nextSeq (.put .rename seq row data :: others) seen) :
    Running K D (d.placePayload row.key data) nextSeq (.put .row seq row data :: others) seen := by
  obtain ⟨⟨fresh, _, _, opened, older⟩, unacked⟩ := run.busy _ List.mem_cons_self
  refine run.move (some (.put .row seq row data)) run.log.advance ?_
    (fun _ _ => ⟨rfl, rfl⟩) ⟨rfl, ⟨fresh, ?_, opened, older⟩, unacked⟩
  · intro other inside ne
    refine d.slot_placePayload_ne data (fun same => ne ?_)
    exact (digests (run.within _ List.mem_cons_self) inside same).symm
  · rw [Job.key, d.slot_placePayload]

theorem Running.putRow (run : Running K D d nextSeq (.put .row seq row data :: others) seen) :
    Running K D (d.putRow row) nextSeq (.put .commit seq row data :: others) seen := by
  obtain ⟨⟨fresh, file, opened, _⟩, unacked⟩ := run.busy _ List.mem_cons_self
  refine run.move (some (.put .commit seq row data)) run.log.advance ?_
    (fun _ _ => ⟨rfl, rfl⟩) ⟨rfl, ⟨fresh, file, opened, ?_⟩, unacked⟩
  · intro other _ ne
    exact d.slot_putRow_ne ne.symm
  · rw [Job.key, d.slot_putRow]

theorem Running.putCommit (run : Running K D d nextSeq (.put .commit seq row data :: others) seen) :
    Running K D (d.appendCommit seq) nextSeq others (seen.after (.put .commit seq row data)) := by
  obtain ⟨⟨fresh, file, opened, found⟩, unacked⟩ := run.busy _ List.mem_cons_self
  refine run.move none run.log.advance ?_ (seen.after_agree _) ⟨?_, ?_, ?_, ?_⟩
  · intro other _ ne
    exact d.slot_appendCommit_ne run.log.whole seq (run.log.owned _ List.mem_cons_self) ne.symm
  · intro other here _
    obtain rfl : row = other := Option.some.inj (found.symm.trans here)
    exact ⟨data, file, fresh.sum⟩
  · have view : d.view row.key = _ := Disk.view_live found fresh.live file fresh.sum
    refine Eq.trans ?_ view.symm
    simp [Observed.after, Job.succeeds, Job.outcome, Outcome.view, Job.key]
  · have none : ((d.appendCommit seq).slot row.key).opened = [] := by
      change (d.slot row.key).opened = _ at opened
      rw [d.slot_appendCommit run.log.whole, opened]
      simp [putRecord, WalRecord.begin]
    intro rec member
    rw [Job.key, none] at member
    exact absurd member List.not_mem_nil
  · intro outcome member
    have stored : outcome = .stored row data := by
      simpa [Observed.after, Job.succeeds, Job.outcome, eq_comm] using member
    rw [stored]
    exact ⟨file, fresh.sum, found, fresh.live⟩

theorem Running.deleteBegin (run : Running K D d nextSeq (.delete .begin seq key :: others) seen) :
    Running K D (d.appendBegin seq .delete key 0 [] 0) nextSeq (.delete .row seq key :: others)
      seen := by
  obtain ⟨⟨_, intact, rest, left⟩, unacked⟩ := run.busy _ List.mem_cons_self
  have unused : seq ∉ Wal.committed d.wal.records := run.log.uncommitted _ List.mem_cons_self
  refine run.move (some (.delete .row seq key)) run.log.advance ?_
    (fun _ _ => ⟨rfl, rfl⟩) ⟨rfl, ⟨rfl, intact, rest, (d.slot key).opened, ?_, left⟩, unacked⟩
  · intro other _ ne
    exact d.slot_appendBegin_ne run.log.whole unused _ _ _ _ ne.symm
  · rw [Job.key, d.slot_appendBegin run.log.whole unused]
    rfl

/-- A delete that finds nothing returns and leaves its record open. -/
theorem Running.deleteRow (run : Running K D d nextSeq (.delete .row seq key :: others) seen) :
    Running K D (d.deleteRow key).1 nextSeq
      ((Job.next d (.delete .row seq key)).toList ++ others) seen := by
  obtain ⟨⟨_, intact, rest, left, opened, dead⟩, unacked⟩ := run.busy _ List.mem_cons_self
  change (d.slot key).opened = _ at opened
  by_cases gone : (d.slot key).Dead
  · obtain ⟨status, failed, same⟩ := Disk.deleteRow_dead gone
    have finished : Job.next d (.delete .row seq key) = none := by simp [Job.next, same, failed]
    rw [finished, same]
    refine run.move none run.log.tail (fun _ _ _ => rfl) (fun _ _ => ⟨rfl, rfl⟩)
      ⟨intact, rest, ?_, ?_⟩
    · intro rec member
      rw [Job.key, opened, List.mem_append, List.mem_singleton] at member
      rcases member with old | rfl
      · exact dead rec old
      · exact ⟨rfl, gone⟩
    · intro outcome member
      rw [unacked] at member
      cases member
  · have alone : left = [] :=
      List.eq_nil_iff_forall_not_mem.mpr (fun rec member => gone (dead rec member).2)
    obtain ⟨row, found, live⟩ := Slot.live_of_not_dead gone
    obtain ⟨ok, slot, frame⟩ := Disk.deleteRow_live found live
    have next : Job.next d (.delete .row seq key) = some (.delete .commit seq key) := by
      simp [Job.next, ok]
    have wal : (d.deleteRow key).1.wal = d.wal := rfl
    rw [next]
    refine run.move (some (.delete .commit seq key)) ?_ (fun other _ ne => frame other ne.symm)
      (fun _ _ => ⟨rfl, rfl⟩) ⟨rfl, ⟨rfl, ?_⟩, unacked⟩
    · rw [wal]
      exact run.log.resume rfl rfl
    · rw [Job.key, slot]
      refine ⟨?_, _, rfl, rfl⟩
      rw [opened, alone]
      rfl

theorem Running.deleteCommit
    (run : Running K D d nextSeq (.delete .commit seq key :: others) seen) :
    Running K D (d.appendCommit seq) nextSeq others (seen.after (.delete .commit seq key)) := by
  obtain ⟨⟨_, opened, row, found, gone⟩, unacked⟩ := run.busy _ List.mem_cons_self
  change (d.slot key).opened = _ at opened
  refine run.move none run.log.advance ?_ (seen.after_agree _) ⟨?_, ?_, ?_, ?_⟩
  · intro other _ ne
    exact d.slot_appendCommit_ne run.log.whole seq (run.log.owned _ List.mem_cons_self) ne.symm
  · intro other here live
    obtain rfl : row = other := Option.some.inj (found.symm.trans here)
    rw [gone] at live
    cases live
  · have view : d.view key = _ := Disk.view_dead found gone
    refine Eq.trans ?_ view.symm
    simp [Observed.after, Job.succeeds, Job.outcome, Job.key]
  · have none : ((d.appendCommit seq).slot key).opened = [] := by
      rw [d.slot_appendCommit run.log.whole, opened]
      simp [deleteRecord, WalRecord.begin]
    intro rec member
    rw [Job.key, none] at member
    exact absurd member List.not_mem_nil
  · intro outcome member
    have removed : outcome = .removed := by
      simpa [Observed.after, Job.succeeds, Job.outcome, eq_comm] using member
    rw [removed]
    exact ⟨row, found, gone⟩

theorem Running.advance (digests : Set.InjOn keyDigest K) {job : Job}
    (run : Running K D d nextSeq (job :: others) seen) :
    Running K D (job.effect d) nextSeq ((job.next d).toList ++ others) (seen.after job) := by
  cases job with
  | put todo seq row data =>
      cases todo with
      | begin => exact run.putBegin
      | stage => exact run.putStage
      | rename => exact run.putRename digests
      | row => exact run.putRow
      | commit => exact run.putCommit
  | delete todo seq key =>
      cases todo with
      | begin => exact run.deleteBegin
      | row => exact run.deleteRow
      | commit => exact run.deleteCommit

end Advance
end Dos.Storage
