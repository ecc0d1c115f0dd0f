import Mathlib.Data.FinEnum
import Mathlib.Data.Set.Finite.List
import DistributedObjectStorage.Storage.StoreReachable

/-!
# Writes are all or nothing

A payload file is named by the digest of its key, and recovery knows an
interrupted payload by its digest only, so both kinds of digests must differ.
Some two keys do share a digest, and they overwrite each other's payload.
-/
namespace Dos.Storage
open Transition

/-- The runs made of `Put` and `PutConditional` calls. -/
def WritesOnly (K D : Set Bytes) (_ : Machine) (act : StoreAction) : Prop :=
  act.Fits K D ∧ ∀ key now, act ≠ .start (.delete key) now

/-- A call finds a version of its key that has a successor. -/
def HasRoom (s : Machine) : StoreAction → Prop
  | .start m _ => s.disk.Room m.key
  | _ => True

/-- No delete is in flight, and none left a record. -/
structure PutsOnly (s : Machine) : Prop where
  records : ∀ rec ∈ Wal.openRecords s.disk.wal.records, rec.op = .put
  jobs : ∀ nextSeq jobs, s.mode = .running nextSeq jobs → ∀ job ∈ jobs, job.op = .put

section PutsOnly
variable {K D : Set Bytes} {s : Machine}

theorem Job.next_op {d : Disk} {job next : Job} (h : next ∈ (job.next d).toList) :
    next.op = job.op := by
  rw [Option.mem_toList] at h
  cases job with
  | put todo seq row data => cases todo <;> cases h <;> rfl
  | delete todo seq key =>
      cases todo with
      | begin => cases h; rfl
      | row =>
          simp only [Job.next] at h
          split at h
          · cases h
            rfl
          · cases h
      | commit => cases h

theorem PutsOnly.begin (puts : PutsOnly s) {nextSeq : ℕ} {jobs : List Job}
    (mode : s.mode = .running nextSeq jobs) {m : Mutation} (noDelete : ∀ key, m ≠ .delete key)
    (now : Int) : PutsOnly (s.begin nextSeq jobs m now) := by
  rcases s.begin_cases nextSeq jobs m now with same | ⟨key, isDelete, _⟩ | ⟨req, row, _, _, same⟩
  · rw [same]
    exact puts
  · exact absurd isDelete (noDelete key)
  · rw [same]
    refine ⟨puts.records, ?_⟩
    rintro _ _ ⟨⟩ job member
    rcases List.mem_append.mp member with old | new
    · exact puts.jobs _ _ mode job old
    · rw [List.mem_singleton.mp new]
      rfl

theorem PutsOnly.move (puts : PutsOnly s) {act : StoreAction} {s' : Machine} (move : Move s act s')
    (noDelete : ∀ key now, act ≠ .start (.delete key) now) : PutsOnly s' := by
  cases move with
  | stay => exact puts
  | begin state _ => exact puts.begin state (fun key same => noDelete key _ (by rw [same])) _
  | advance state found =>
      have own := puts.jobs _ _ state _ (List.mem_of_getElem? found)
      refine ⟨fun rec member => ?_, ?_⟩
      · rcases Job.effect_record member with old | ⟨_, same⟩
        · exact puts.records rec old
        · exact same.trans own
      · rintro _ _ ⟨⟩ other member
        rcases List.mem_append.mp member with new | old
        · exact (Job.next_op new).trans own
        · exact puts.jobs _ _ state other (List.mem_of_mem_eraseIdx old)
  | crash torn =>
      unfold Machine.crash
      split
      · refine ⟨?_, by rintro _ _ ⟨⟩⟩
        simp only
        split <;> exact puts.records
      · exact ⟨puts.records, by rintro _ _ ⟨⟩⟩
  | reopen _ => exact ⟨puts.records, by rintro _ _ ⟨⟩⟩
  | recover now _ =>
      refine ⟨?_, by rintro _ _ ⟨⟩⟩
      rw [(recoverRecord_frame s.disk _ _ now).1]
      exact puts.records
  | clean _ => exact ⟨puts.records, by rintro _ _ ⟨⟩⟩
  | truncate _ =>
      refine ⟨List.forall_mem_nil _, ?_⟩
      rintro _ _ ⟨⟩ job member
      exact absurd member List.not_mem_nil

/-- Without deletes every write may start. -/
theorem writesOnly_reachable {shard : Bytes → ℕ}
    (reachable : (Machine.system shard fun s act => WritesOnly K D s act ∧ HasRoom s act).Reachable s) :
    PutsOnly s ∧ (Machine.system shard (Admissible K D)).Reachable s := by
  induction reachable with
  | start initial =>
      refine ⟨?_, .start initial⟩
      cases initial
      exact ⟨List.forall_mem_nil _, by rintro _ _ ⟨⟩⟩
  | next _ step ih =>
      obtain ⟨puts, admissible⟩ := ih
      obtain ⟨act, ⟨writes, room⟩, rfl⟩ := step
      refine ⟨puts.move (Machine.exec_move shard _ act) writes.2, .next admissible ⟨act, ?_, rfl⟩⟩
      cases act with
      | start m now =>
          refine ⟨writes.1, fun req row requested _ => ⟨fun rec member kind => ?_, ?_⟩⟩
          · rw [puts.records rec member] at kind
            cases kind
          · rw [(Mutation.Fits.request writes.1 requested).1]
            exact room
      | _ => trivial

end PutsOnly

/-! ## What an open finds -/

/-- The state left by the last completed write, or the one the interrupted
write was about to leave. -/
def Observed.AllOrNothing (seen : Observed) (key : Bytes) (view : View) : Prop :=
  view = seen.settled key ∨ ∃ outcome, seen.pending key = some outcome ∧ view = outcome.view key

/-- With distinct digests the payload is the one that was written. -/
theorem Realizes.view {D : Set Bytes} (sums : Set.InjOn sha256Hex D) {d : Disk} {key : Bytes}
    (files : ∀ data ∈ (d.slot key).file, data ∈ D) {outcome : Outcome}
    (realizes : Realizes D (d.slot key) outcome) : d.view key = outcome.view key := by
  cases outcome with
  | stored row data =>
      obtain ⟨payload, sum, found, stored, here, live, version, size, checksum, file, same⟩ := realizes
      obtain rfl : stored = data := sums (files stored file) payload (same.trans sum.symm)
      rw [Disk.view_live here live file (same.trans checksum.symm), version, size, checksum]
      rfl
  | removed =>
      obtain ⟨row, found, gone⟩ := realizes
      exact Disk.view_dead found gone

theorem Machine.Ok.checkpoint {K D : Set Bytes} (sums : Set.InjOn sha256Hex D) {s : Machine}
    (ok : s.Ok K D) (mode : s.mode = .checkpointing) (key : Bytes) :
    s.seen.AllOrNothing key (s.disk.view key) ∧ (s.disk.slot key).Intact := by
  have state := ok.mode
  rw [mode] at state
  by_cases inside : key ∈ K
  · obtain ⟨intact, rested⟩ := (state.1.each key inside).resolved (state.2.done inside)
    refine ⟨?_, intact⟩
    rcases rested with rest | ⟨outcome, pending, realizes⟩
    · exact .inl rest.symm
    · exact .inr ⟨outcome, pending, realizes.view sums (ok.contained.files key inside)⟩
  · obtain ⟨row, settled, _⟩ := ok.contained.outside key inside
    refine ⟨.inl ((Disk.view_absent row).trans settled.symm), fun found here => ?_⟩
    rw [row] at here
    cases here

theorem Machine.Ok.atRest {K D : Set Bytes} {s : Machine} (ok : s.Ok K D) {nextSeq : ℕ}
    {jobs : List Job} (mode : s.mode = .running nextSeq jobs) {key : Bytes}
    (free : key ∉ jobs.map Job.key) :
    s.disk.view key = s.seen.settled key ∧ (s.disk.slot key).Intact := by
  have run := ok.mode
  rw [mode] at run
  by_cases inside : key ∈ K
  · have calm := run.calm key inside free
    exact ⟨calm.settled.symm, calm.intact⟩
  · obtain ⟨row, settled, _⟩ := ok.contained.outside key inside
    refine ⟨(Disk.view_absent row).trans settled.symm, fun found here => ?_⟩
    rw [row] at here
    cases here

/-- The last step of every open finds each key in one of the two states, and
from then on a key at rest shows its last completed write. -/
theorem writes_all_or_nothing (shard : Bytes → ℕ) {K D : Set Bytes} (digests : Set.InjOn sha256Hex K)
    (sums : Set.InjOn sha256Hex D) {s : Machine}
    (reachable : (Machine.system shard fun s act => WritesOnly K D s act ∧ HasRoom s act).Reachable s) :
    (s.mode = .checkpointing →
      (s.exec shard .truncate).mode = .running 1 [] ∧ ∀ key,
        s.seen.AllOrNothing key ((s.exec shard .truncate).disk.view key) ∧
        ∀ message, (s.exec shard .truncate).disk.get key ≠ .error (.checksumMismatch message)) ∧
    (∀ nextSeq jobs, s.mode = .running nextSeq jobs → ∀ key, key ∉ jobs.map Job.key →
      s.disk.view key = s.seen.settled key ∧
      ∀ message, s.disk.get key ≠ .error (.checksumMismatch message)) := by
  have ok := reachable_ok digests (writesOnly_reachable reachable).2
  constructor
  · intro mode
    have opened : s.exec shard .truncate =
        { disk := { s.disk with wal := .empty }
          mode := .running 1 []
          seen := { s.seen with settled := s.disk.view, pending := fun _ => none } } := by
      simp only [Machine.exec, mode]
    rw [opened]
    refine ⟨rfl, fun key => ?_⟩
    obtain ⟨found, intact⟩ := ok.checkpoint sums mode key
    exact ⟨found, Disk.get_intact intact⟩
  · intro nextSeq jobs mode key free
    obtain ⟨settled, intact⟩ := ok.atRest mode free
    exact ⟨settled, Disk.get_intact intact⟩

/-- A write of key `k` that dies between the rename and the metadata commit. -/
def renamedOnly : List StoreAction :=
  Machine.opening .empty 0 ++
    [.start (.put [107] [1]) 0, .step 0, .step 0, .step 0, .crash false, .reopen, .recover 0, .clean]

theorem opened_reachable {K D : Set Bytes} :
    (Machine.system (fun _ => 0) fun s act => WritesOnly K D s act ∧ HasRoom s act).Reachable
      (Machine.run (fun _ => 0) (Machine.opening .empty 0)) := by
  refine (System.Reachable.start rfl).along (.of_forall ?_ _)
  simp [Machine.opening, Disk.empty, Wal.replay, Wal.empty, WritesOnly, HasRoom, StoreAction.Fits]

theorem writes_all_or_nothing_renamedOnly :
    (Machine.run (fun _ => 0) renamedOnly).mode = .checkpointing ∧
      (Machine.run (fun _ => 0) renamedOnly).seen.AllOrNothing [107]
        (((Machine.run (fun _ => 0) renamedOnly).exec (fun _ => 0) .truncate).disk.view [107]) := by
  have mode : (Machine.run (fun _ => 0) renamedOnly).mode = .checkpointing := by decide +kernel
  have reachable : (Machine.system (fun _ => 0) fun s act =>
      WritesOnly {[107]} {[1]} s act ∧ HasRoom s act).Reachable (Machine.run (fun _ => 0) renamedOnly) := by
    have launch : WritesOnly {[107]} {[1]} (Machine.run (fun _ => 0) (Machine.opening .empty 0))
          (.start (.put [107] [1]) 0) ∧
        HasRoom (Machine.run (fun _ => 0) (Machine.opening .empty 0)) (.start (.put [107] [1]) 0) := by
      refine ⟨⟨⟨rfl, rfl⟩, by simp⟩, ?_⟩
      change (Disk.slot _ [107]).version + 1 < 2 ^ 64
      decide +kernel
    rw [Machine.run, renamedOnly, List.foldl_append, List.foldl_cons]
    refine (System.Reachable.next opened_reachable ⟨_, launch, rfl⟩).along (.of_forall ?_ _)
    simp [WritesOnly, HasRoom, StoreAction.Fits]
  have found := writes_all_or_nothing (fun _ => 0) (Set.injOn_singleton _ _)
    (Set.injOn_singleton _ _) reachable
  exact ⟨mode, ((found.1 mode).2 [107]).1⟩

/-! ## Keys that share a payload file -/

/-- There are more keys than digests. -/
theorem exists_shared_digest :
    ∃ first second : Bytes, first ≠ [] ∧ second ≠ [] ∧ first ≠ second ∧
      keyDigest first = keyDigest second := by
  have many : {key : Bytes | key ≠ []}.Infinite := by
    refine Set.infinite_of_injective_forall_mem (f := fun n : ℕ => List.replicate (n + 1) (0 : UInt8))
      ?_ ?_
    · intro m n same
      simpa using congrArg List.length same
    · intro n
      simp [List.replicate_succ]
  have few : {digest : Bytes | digest.length = 64}.Finite := List.finite_length_eq UInt8 64
  obtain ⟨first, h₁, second, h₂, ne, same⟩ := many.exists_ne_map_eq_of_mapsTo
    (f := keyDigest) (fun key _ => sha256Hex_length key) few
  exact ⟨first, second, h₁, h₂, ne, same⟩

section SharedFile
variable {first second : Bytes}

/-- The row of the first write of a key. -/
def firstRow (key data : Bytes) : ObjectMetadata := ⟨key, data.length, sha256Hex data, 1, 0, false, []⟩

theorem planPut_absent {d : Disk} {key : Bytes} (data : Bytes)
    (absent : d.metadata.objects[key]? = none) :
    planPut d (.put key data) 0 = .write (firstRow key data) := by
  have lookup : d.metadata.objects[(WriteRequest.put key data).key]? = none := absent
  simp only [planPut, SqliteMetadataStore.peek, lookup]
  rfl

/-- An uninterrupted write of an absent key. -/
theorem run_firstWrite {s : Machine} {nextSeq : ℕ} {key : Bytes} (data : Bytes)
    (mode : s.mode = .running nextSeq []) (named : key ≠ [])
    (absent : s.disk.metadata.objects[key]? = none) :
    let s' := (Machine.writing (.put key data) 0).foldl (Machine.exec fun _ => 0) s
    s'.mode = .running (nextSeq + 1) [] ∧
      s'.disk = ((((s.disk.appendBegin nextSeq .put key 1 (sha256Hex data) data.length).stagePayload
        data).placePayload key data).putRow (firstRow key data)).appendCommit nextSeq := by
  have plan := planPut_absent data absent
  have requested : (Mutation.put key data).request = some (.put key data) := by
    simp [Mutation.request, named]
  obtain ⟨disk, mode, _⟩ := Machine.run_write (fun _ => 0) 0 mode requested plan rfl
  refine ⟨mode, disk.trans ?_⟩
  simp only [LocalObjectStore.doPut, plan]
  rfl

/-- Recovery leaves the tables alone when every record is complete. -/
theorem recover_complete {d : Disk} (complete : Wal.openRecords d.wal.records = []) (now : Int) :
    recover d now = { d with tmp := [], wal := .empty } := by
  have closed : ∀ rec ∈ d.wal.records, rec.isCommit = true ∨ rec.seq ∈ Wal.committed d.wal.records := by
    intro rec member
    have skipped := List.filter_eq_nil_iff.mp complete rec member
    simp only [Bool.and_eq_true, Bool.not_eq_true', decide_eq_true_eq, not_and, not_not] at skipped
    cases kind : rec.isCommit with
    | true => exact .inl rfl
    | false => exact .inr (skipped kind)
  have fold : ∀ records : List WalRecord, (∀ rec ∈ records, rec ∈ d.wal.records) →
      records.foldl (recoverRecord (Wal.committed d.wal.records) now) d = d := by
    intro records inside
    induction records with
    | nil => rfl
    | cons rec rest ih =>
        obtain ⟨here, later⟩ := List.forall_mem_cons.mp inside
        rw [List.foldl_cons, recoverRecord_closed (closed rec here)]
        exact ih later
  simp only [recover, Wal.replay, fold d.wal.records (fun _ member => member)]

def bothWritten (first second : Bytes) : List StoreAction :=
  Machine.opening .empty 0 ++ Machine.writing (.put first [1]) 0 ++
    Machine.writing (.put second [2]) 0 ++
    [.crash false, .reopen, .recover 0, .recover 0, .recover 0, .recover 0, .clean, .truncate]

theorem bothWritten_mismatch (h₁ : first ≠ []) (h₂ : second ≠ []) (ne : first ≠ second)
    (shared : keyDigest first = keyDigest second) :
    (Machine.run (fun _ => 0) (bothWritten first second)).mode = .running 1 [] ∧
      (Machine.run (fun _ => 0) (bothWritten first second)).disk.get first =
        .error (.checksumMismatch (text "checksum mismatch for key: " ++ first)) := by
  have sums : sha256Hex [2] ≠ sha256Hex [1] := by decide +kernel
  simp only [Machine.run, bothWritten, List.foldl_append]
  have started : ((Machine.opening .empty 0).foldl (Machine.exec fun _ => 0) .initial).disk = .empty ∧
      ((Machine.opening .empty 0).foldl (Machine.exec fun _ => 0) .initial).mode = .running 1 [] :=
    Machine.run_open (fun _ => 0) 0 (s := .initial) rfl
  generalize (Machine.opening .empty 0).foldl _ Machine.initial = s₀ at started ⊢
  obtain ⟨disk₀, mode₀⟩ := started
  have absent₀ (key : Bytes) : s₀.disk.metadata.objects[key]? = none := by simp [disk₀, Disk.empty]
  obtain ⟨mode₁, disk₁⟩ := run_firstWrite [1] mode₀ h₁ (absent₀ first)
  generalize (Machine.writing (.put first [1]) 0).foldl _ _ = s₁ at disk₁ mode₁ ⊢
  rw [disk₀] at disk₁
  have absent₁ : s₁.disk.metadata.objects[second]? = none := by
    rw [disk₁, ← absent₀ second, disk₀]
    exact OrderedMap.lookup_insert_ne Disk.empty.metadata.objects _ ne
  obtain ⟨mode₂, disk₂⟩ := run_firstWrite [2] mode₁ h₂ absent₁
  generalize (Machine.writing (.put second [2]) 0).foldl _ _ = s₂ at disk₂ mode₂ ⊢
  rw [disk₁] at disk₂
  have crashed : s₂.exec (fun _ => 0) (.crash false) =
      { s₂ with mode := .down, seen := { s₂.seen with pending := fun _ => none } } := by
    simp only [Machine.exec, Machine.crash, mode₂]
    rfl
  have acts : Machine.opening s₂.disk 0 =
      [.reopen, .recover 0, .recover 0, .recover 0, .recover 0, .clean, .truncate] := by
    rw [disk₂]
    rfl
  rw [List.foldl_cons, crashed, ← acts]
  obtain ⟨disk₃, mode₃⟩ := Machine.run_open (fun _ => 0) 0
    (s := { s₂ with mode := .down, seen := { s₂.seen with pending := fun _ => none } }) rfl
  refine ⟨mode₃, ?_⟩
  have complete : Wal.openRecords s₂.disk.wal.records = [] := by
    rw [disk₂]
    rfl
  rw [disk₃, recover_complete complete]
  -- the row is the first write's, the file the second's
  have row : s₂.disk.metadata.objects[first]? = some (firstRow first [1]) := by
    rw [disk₂]
    exact (OrderedMap.lookup_insert_ne _ _ ne.symm).trans (OrderedMap.lookup_insert_self _ _ _)
  have file : s₂.disk.files[keyDigest first]? = some [2] := by
    rw [disk₂, shared]
    exact OrderedMap.lookup_insert_self _ _ _
  have column : cString (sha256Hex [1]) = sha256Hex [1] := cString_eq (sha256Hex_nonzero [1])
  simp [Disk.get, SqliteMetadataStore.get, row, firstRow, Disk.readWholeFile, file, readRow, column, sums]

theorem sharedFile_mismatch :
    ∃ D : Set Bytes, Set.InjOn sha256Hex D ∧ ∃ s key message,
      (Machine.system (fun _ => 0) (WritesOnly Set.univ D)).Reachable s ∧ s.mode = .running 1 [] ∧
      s.disk.get key = .error (.checksumMismatch message) := by
  obtain ⟨first, second, h₁, h₂, ne, shared⟩ := exists_shared_digest
  obtain ⟨mode, found⟩ := bothWritten_mismatch h₁ h₂ ne shared
  have sums : sha256Hex [1] ≠ sha256Hex [2] := by decide +kernel
  refine ⟨{[1], [2]}, ?_, _, first, _, (System.Reachable.start rfl).along (.of_forall ?_ _), mode, found⟩
  · exact Set.injOn_pair.mpr (fun same => absurd same sums)
  · simp [bothWritten, Machine.opening, Machine.writing, Disk.empty, Wal.replay, Wal.empty,
      WritesOnly, StoreAction.Fits, Mutation.Fits]

end SharedFile

end Dos.Storage
