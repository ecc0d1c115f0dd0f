import DistributedObjectStorage.Storage.InterruptedWrite

/-!
# Retries after a crash

A retry is known by the request id in the row. A row that recovery rebuilds from
the log has none: the record of a write does not carry it.
-/
namespace Dos.Storage
open Transition

/-- The key is at the version and the checksum that the conditional write stores. -/
def TookEffect (d : Disk) (key data : Bytes) (expectedVersion : ℕ) : Prop :=
  ∃ row, d.metadata.peek key = .ok row ∧ row.version = increment expectedVersion ∧
    row.checksum = sha256Hex data

/-- Repeating the conditional write succeeds and changes nothing. -/
def RetryKnown (s : LocalObjectStore) (key data : Bytes) (expectedVersion : ℕ) (requestId : Bytes) : Prop :=
  ∀ now, ∃ row, s.putConditional key data expectedVersion requestId now = (s, .ok row) ∧
    row.version = increment expectedVersion

/-- Where the steps of a conditional write may be cut: recovery discards it, or
it has stored its row with an id that reads back. A version that has wrapped is
not newer than the row, so recovery discards it as well. -/
def Slot.KeepsId (p : Slot) (data : Bytes) (expectedVersion : ℕ) (requestId : Bytes) : ℕ → Prop
  | 0 => True
  | 1 | 2 => p.Older (increment expectedVersion) → ∀ file ∈ p.file, sha256Hex file ≠ sha256Hex data
  | 3 => ¬p.Older (increment expectedVersion)
  | _ + 4 => cString requestId = requestId

/-- Where a conditional write may be killed: the current row answers it, or
refuses it and is not by chance at the version and checksum of the write, or its
steps are cut where they may be. -/
def Slot.Retryable (p : Slot) (data : Bytes) (expectedVersion : ℕ) (requestId : Bytes) (done : ℕ) : Prop :=
  (∃ row ∈ p.row, cString row.requestId = requestId) ∨
    (p.version ≠ expectedVersion ∧
      ∀ row ∈ p.row, row.version = increment expectedVersion → cString row.checksum ≠ sha256Hex data) ∨
    (p.version = expectedVersion ∧ p.KeepsId data expectedVersion requestId done)

section Retry
variable {d : Disk} {key data requestId : Bytes} {expectedVersion : ℕ}

/-- A retry depends on the id of the row it finds. -/
theorem retryKnown_iff (named : key ≠ []) (given : requestId ≠ []) (nextSeq : ℕ) :
    (TookEffect d key data expectedVersion →
      RetryKnown ⟨d, nextSeq⟩ key data expectedVersion requestId) ↔
      ∀ row ∈ (d.slot key).row, row.version = increment expectedVersion →
        cString row.checksum = sha256Hex data → cString row.requestId = requestId := by
  constructor
  · intro known row found version sum
    have lookup : d.metadata.objects[key]? = some row := found
    obtain ⟨result, answer, _⟩ := known ⟨readRow row, by simp [SqliteMetadataStore.peek, lookup], version, sum⟩ 0
    by_contra differs
    have new : ¬(d.slot key).Recognises (.putConditional key data expectedVersion requestId) := by
      rintro ⟨_, other, here, same⟩
      obtain rfl : row = other := Option.some.inj (found.symm.trans here)
      exact differs same
    have conflict : planPut d (.putConditional key data expectedVersion requestId) 0 =
        .answer (.error (versionConflict (.putConditional key data expectedVersion requestId)
          (increment expectedVersion))) := by
      refine (planPut_new new).trans ?_
      have current : (d.slot key).version = increment expectedVersion := by
        simp [Slot.version, Option.mem_def.mp found, version]
      simp [planWrite, WriteRequest.putConditional, current, increment_ne]
    simp [LocalObjectStore.putConditional, named, LocalObjectStore.doPut, conflict] at answer
  · rintro same ⟨row, peeked, version, sum⟩ now
    cases found : d.metadata.objects[key]? with
    | none => simp [SqliteMetadataStore.peek, found] at peeked
    | some stored =>
        simp only [SqliteMetadataStore.peek, found, Except.ok.injEq] at peeked
        subst peeked
        have recognised : planPut d (.putConditional key data expectedVersion requestId) now =
            .answer (.ok (readRow stored)) :=
          planPut_recognised given found (same stored found version sum)
        refine ⟨readRow stored, ?_, version⟩
        simp [LocalObjectStore.putConditional, named, LocalObjectStore.doPut, recognised]

variable {row : Option ObjectMetadata} {p : Slot}

/-- If the row is that of the write, it has the id of the write. -/
def Identified (data : Bytes) (expectedVersion : ℕ) (requestId : Bytes) (row : Option ObjectMetadata) : Prop :=
  ∀ r ∈ row, r.version = increment expectedVersion → cString r.checksum = sha256Hex data →
    cString r.requestId = requestId

theorem identified_cleared :
    Identified data expectedVersion requestId (p.cleared row) ↔
      Identified data expectedVersion requestId row := by
  unfold Slot.cleared
  split
  · rfl
  · cases row <;> simp [Identified, bury]

theorem identified_older (older : ∀ r ∈ row, r.version = expectedVersion) :
    Identified data expectedVersion requestId row := by
  intro r found version
  exact absurd (version.symm.trans (older r found)) (increment_ne expectedVersion)

theorem identified_recovered {rec : WalRecord} {now : Int} (given : requestId ≠ [])
    (version : rec.version = increment expectedVersion) (sum : rec.checksum = sha256Hex data) :
    ¬Identified data expectedVersion requestId (some (recoveredRow rec now)) := by
  intro identified
  have column : cString rec.checksum = sha256Hex data := by
    rw [sum]
    exact cString_eq (sha256Hex_nonzero data)
  exact given (identified _ rfl version column).symm

/-- The row of a killed write that was new and met the version. -/
theorem identified_reopened (rec : WalRecord) (given : requestId ≠ [])
    (current : p.version = expectedVersion) (put : rec.op = .put) (version : rec.version = increment expectedVersion)
    (sum : rec.checksum = sha256Hex data) {new : ObjectMetadata} (newVersion : new.version = increment expectedVersion)
    (newSum : new.checksum = sha256Hex data) (newId : new.requestId = requestId) (now : Int) (done : ℕ) :
    Identified data expectedVersion requestId (p.reopened rec new data now done) ↔
      p.KeepsId data expectedVersion requestId done := by
  have old : Identified data expectedVersion requestId p.row :=
    identified_older fun r found => by simpa [Slot.version, Option.mem_def.mp found] using current
  have staged (file : Option Bytes) :
      Identified data expectedVersion requestId (recoverRow file now (p.cleared p.row) rec) ↔
        (p.Older (increment expectedVersion) → ∀ f ∈ file, sha256Hex f ≠ sha256Hex data) := by
    rw [← version]
    by_cases completes : Completes file p.row rec
    · rw [recoverRow_completes put (completes_cleared.mpr completes)]
      obtain ⟨older, f, here, digest⟩ := (completes_iff sum p).mp completes
      exact iff_of_false (identified_recovered given version sum) (fun none => none older f here digest)
    · rw [recoverRow_skips put (completes_cleared.not.mpr completes), identified_cleared]
      rw [completes_iff sum] at completes
      exact iff_of_true old (fun older f here digest => completes ⟨older, f, here, digest⟩)
  rcases done with _ | _ | _ | _ | more
  · exact iff_of_true (identified_cleared.mpr old) trivial
  · exact staged p.file
  · exact staged p.file
  · refine (staged (some data)).trans ⟨fun discards older => ?_, fun wrapped older => absurd older wrapped⟩
    exact discards older data rfl rfl
  · rw [Slot.reopened, identified_cleared, Slot.KeepsId]
    have column : cString new.checksum = sha256Hex data := by
      rw [newSum]
      exact cString_eq (sha256Hex_nonzero data)
    constructor
    · intro identified
      simpa only [newId] using identified new rfl newVersion column
    · rintro same _ ⟨⟩ _ _
      rwa [newId]

end Retry

section Cases
variable {p : Slot} {data requestId : Bytes} {expectedVersion done : ℕ}

/-- The id of the current row is that of the request. -/
def Slot.Answers (p : Slot) (requestId : Bytes) : Prop := ∃ row ∈ p.row, cString row.requestId = requestId

theorem identified_answered (known : p.Answers requestId) :
    Identified data expectedVersion requestId (p.cleared p.row) := by
  obtain ⟨row, found, same⟩ := known
  refine identified_cleared.mpr ?_
  rintro other here _ _
  obtain rfl : row = other := Option.some.inj (found.symm.trans here)
  exact same

theorem identified_refused (new : ¬p.Answers requestId) (differs : p.version ≠ expectedVersion) :
    Identified data expectedVersion requestId (p.cleared p.row) ↔
      p.Retryable data expectedVersion requestId done := by
  refine identified_cleared.trans ⟨fun identified => .inr (.inl ⟨differs, ?_⟩), ?_⟩
  · intro row found version sum
    exact new ⟨row, found, identified row found version sum⟩
  · rintro (known | ⟨_, apart⟩ | ⟨current, _⟩)
    · exact absurd known new
    · exact fun row found version sum => absurd sum (apart row found version)
    · exact absurd current differs

theorem retryable_current (new : ¬p.Answers requestId) (current : p.version = expectedVersion) :
    p.Retryable data expectedVersion requestId done ↔ p.KeepsId data expectedVersion requestId done := by
  constructor
  · rintro (known | ⟨differs, _⟩ | ⟨_, keeps⟩)
    · exact absurd known new
    · exact absurd current differs
    · exact keeps
  · exact fun keeps => .inr (.inr ⟨current, keeps⟩)

end Cases

/-- A request that is answered without a disk step leaves nothing to recover. -/
theorem killed_answered {d : Disk} {nextSeq : ℕ} {jobs : List Job} (shape : LogShape d nextSeq jobs)
    {m : Mutation} {req : WriteRequest} (requested : m.request = some req) {key : Bytes}
    (free : key ∉ jobs.map Job.key) {now : Int} {result : StatusOr ObjectMetadata}
    (plan : planPut d req now = .answer result) (done : ℕ) (torn : Bool) (now' : Int) :
    ((recover (LocalObjectStore.killed ⟨d, nextSeq⟩ m now done torn) now').slot key).row =
      (d.slot key).cleared (d.slot key).row := by
  have unchanged : LocalObjectStore.killed ⟨d, nextSeq⟩ m now done torn = d := by
    simp [LocalObjectStore.killed, requested, plan]
  rw [unchanged]
  exact recover_idle (shape.idle key free) now'

/-- Whether the row after the restart tells a retry of the write. -/
theorem identified_killed {d : Disk} {nextSeq : ℕ} {jobs : List Job} (shape : LogShape d nextSeq jobs)
    {key : Bytes} (named : key ≠ []) (free : key ∉ jobs.map Job.key) (data : Bytes) (expectedVersion : ℕ)
    {requestId : Bytes} (given : requestId ≠ []) (now now' : Int) (done : ℕ) (torn : Bool) :
    Identified data expectedVersion requestId
        ((recover (LocalObjectStore.killed ⟨d, nextSeq⟩ (.putConditional key data expectedVersion requestId)
          now done torn) now').slot key).row ↔
      (d.slot key).Retryable data expectedVersion requestId done := by
  have requested : (Mutation.putConditional key data expectedVersion requestId).request =
      some (.putConditional key data expectedVersion requestId) := by
    simp [Mutation.request, named]
  by_cases known : (d.slot key).Answers requestId
  · have recorded := known
    obtain ⟨row, found, same⟩ := recorded
    rw [killed_answered shape requested free (planPut_recognised given found same)]
    exact iff_of_true (identified_answered known) (.inl known)
  · have new : ¬(d.slot key).Recognises (.putConditional key data expectedVersion requestId) :=
      fun recognised => known recognised.2
    have plan : planPut d (.putConditional key data expectedVersion requestId) now =
        planWrite (.putConditional key data expectedVersion requestId) (d.slot key).version now :=
      planPut_new new
    by_cases current : (d.slot key).version = expectedVersion
    · let row := newRow (.putConditional key data expectedVersion requestId) (d.slot key).version now
      have write : planPut d (.putConditional key data expectedVersion requestId) now = .write row :=
        plan.trans (if_neg fun both => both.2 current)
      have slot := recover_killed shape requested free write done torn now'
      have reopened : ((recover (LocalObjectStore.killed ⟨d, nextSeq⟩
          (.putConditional key data expectedVersion requestId) now done torn) now').slot key).row =
          (d.slot key).reopened (putRecord nextSeq row) row data now' done := congrArg Slot.row slot
      rw [reopened, retryable_current known current]
      exact identified_reopened (putRecord nextSeq row) given current rfl rfl rfl rfl rfl rfl now' done
    · have conflict : planPut d (.putConditional key data expectedVersion requestId) now = .answer _ :=
        plan.trans (if_pos ⟨rfl, current⟩)
      rw [killed_answered shape requested free conflict]
      exact identified_refused known current

/-- After a killed `PutConditional` of an idle key took effect, its retry is known
exactly where the slot and the number of steps allow it. -/
theorem killed_putConditional_retry_iff (shard : Bytes → ℕ) {s : Machine}
    (reachable : (Machine.system shard fun _ _ => True).Reachable s) {nextSeq : ℕ} {jobs : List Job}
    (mode : s.mode = .running nextSeq jobs) {key : Bytes} (free : key ∉ jobs.map Job.key)
    (data : Bytes) (expectedVersion : ℕ) {requestId : Bytes} (given : requestId ≠ [])
    (now now' : Int) (done : ℕ) (torn : Bool) :
    let opened := LocalObjectStore.openStore
      (LocalObjectStore.killed ⟨s.disk, nextSeq⟩ (.putConditional key data expectedVersion requestId)
        now done torn) now'
    (TookEffect opened.disk key data expectedVersion →
      RetryKnown opened key data expectedVersion requestId) ↔
      key = [] ∨ (s.disk.slot key).Retryable data expectedVersion requestId done := by
  intro opened
  have shape := (reachable_shaped reachable).running mode
  by_cases empty : key = []
  · subst empty
    refine iff_of_true ?_ (.inl rfl)
    have absent : (opened.disk.slot []).row = none := by
      refine (recover_idle (shape.idle [] free) now').trans ?_
      rw [reachable_unnamed reachable, Slot.cleared]
      split <;> rfl
    rintro ⟨row, peeked, _⟩
    have missing : opened.disk.metadata.objects[([] : Bytes)]? = none := absent
    simp [SqliteMetadataStore.peek, missing] at peeked
  · simp only [empty, false_or]
    refine (retryKnown_iff empty given 1).trans ?_
    exact identified_killed shape empty free data expectedVersion given now now' done torn

section Sample

def sampleId : Bytes := text "r"

/-- The first conditional write of `k`, killed after some steps, and the store
opened again. -/
def reopenedAfter (done : ℕ) : LocalObjectStore :=
  .openStore
    (LocalObjectStore.killed ⟨freshStore.disk, 1⟩ (.putConditional sampleKey [1] 0 sampleId) 0 done false) 0

end Sample

/-- Killed before the COMMIT. -/
theorem killed_putConditional_retry_iff_stored :
    TookEffect (reopenedAfter 4).disk sampleKey [1] 0 ∧
      RetryKnown (reopenedAfter 4) sampleKey [1] 0 sampleId := by
  have took : TookEffect (reopenedAfter 4).disk sampleKey [1] 0 :=
    ⟨⟨sampleKey, 1, sha256Hex [1], 1, 0, false, sampleId⟩, by decide +kernel, rfl, rfl⟩
  obtain ⟨mode, current, plain⟩ : freshStore.mode = .running 1 [] ∧ (freshStore.disk.slot sampleKey).version = 0 ∧
      cString sampleId = sampleId := by decide +kernel
  exact ⟨took, (killed_putConditional_retry_iff (fun _ => 0) (Machine.run_reachable _ _) mode
    List.not_mem_nil [1] 0 (by decide +kernel) 0 0 4 false).mpr (.inr (.inr (.inr ⟨current, plain⟩))) took⟩

/-- Killed between the rename and the row: recovery completes the write, and its
retry is a conflict. -/
theorem killed_retry_conflict :
    (Machine.system (fun _ => 0) fun _ _ => True).Reachable freshStore ∧
      freshStore.mode = .running 1 [] ∧ TookEffect (reopenedAfter 3).disk sampleKey [1] 0 ∧
      (reopenedAfter 3).get sampleKey = .ok [1] ∧
      ((reopenedAfter 3).putConditional sampleKey [1] 0 sampleId 0).2 =
        .error (.conflict (text "version conflict for 'k': expected 0, have 1")) := by
  obtain ⟨mode, row, bytes, retry⟩ : freshStore.mode = .running 1 [] ∧
      (reopenedAfter 3).disk.metadata.peek sampleKey = .ok ⟨sampleKey, 1, sha256Hex [1], 1, 0, false, []⟩ ∧
      (reopenedAfter 3).get sampleKey = .ok [1] ∧
      ((reopenedAfter 3).putConditional sampleKey [1] 0 sampleId 0).2 =
        .error (.conflict (text "version conflict for 'k': expected 0, have 1")) := by decide +kernel
  exact ⟨Machine.run_reachable _ _, mode, ⟨_, row, rfl, rfl⟩, bytes, retry⟩

end Dos.Storage
