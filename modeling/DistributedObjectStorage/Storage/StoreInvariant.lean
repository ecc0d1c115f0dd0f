import Mathlib.Data.Set.Function
import DistributedObjectStorage.Storage.StoreSlot

/-!
# The invariant of interrupted runs

While the store runs, a key is at rest or one mutation owns it, and then the
slot says how far the mutation came. After a crash at most one open record of
a key is left for recovery to act on, and acting on it finishes the mutation
that was in flight.
-/
namespace Dos.Storage
open Transition

/-! ## One key -/

def putRecord (seq : ℕ) (row : ObjectMetadata) : WalRecord :=
  .begin seq .put row.key row.version row.checksum row.size

def deleteRecord (seq : ℕ) (key : Bytes) : WalRecord := .begin seq .delete key 0 [] 0

/-- The row that a write of the key is about to store. -/
structure NewRow (D : Set Bytes) (key : Bytes) (row : ObjectMetadata) (data : Bytes) : Prop where
  named : row.key = key
  sum : sha256Hex data = row.checksum
  live : row.deleted = false
  payload : data ∈ D

/-- How far a write came. -/
def PutOk (p : Slot) (atRest : Prop) (seq : ℕ) (row : ObjectMetadata) (data : Bytes) :
    PutStage → Prop
  | .begin => p.Intact ∧ atRest ∧ p.opened = [] ∧ p.version < row.version
  | .stage | .rename =>
      p.Intact ∧ atRest ∧ p.opened = [putRecord seq row] ∧ p.version < row.version
  | .row => p.file = some data ∧ p.opened = [putRecord seq row] ∧ p.version < row.version
  | .commit => p.file = some data ∧ p.opened = [putRecord seq row] ∧ p.row = some row

/-- How far a delete came. -/
def DeleteOk (p : Slot) (atRest : Prop) (seq : ℕ) (key : Bytes) : DeleteStage → Prop
  | .begin => p.Intact ∧ atRest ∧ p.Leftover
  | .row =>
      p.Intact ∧ atRest ∧ ∃ left, p.opened = left ++ [deleteRecord seq key] ∧
        ∀ rec ∈ left, rec.op = .delete ∧ p.Dead
  | .commit => p.opened = [deleteRecord seq key] ∧ ∃ row, p.row = some row ∧ row.deleted = true

def JobOk (D : Set Bytes) (key : Bytes) (p : Slot) (atRest : Prop) : Job → Prop
  | .put todo seq row data => NewRow D key row data ∧ PutOk p atRest seq row data todo
  | .delete todo seq name => name = key ∧ DeleteOk p atRest seq key todo

/-- The outcome is in place. -/
def Shows (p : Slot) : Outcome → Prop
  | .stored row data =>
      p.file = some data ∧ sha256Hex data = row.checksum ∧ p.row = some row ∧ row.deleted = false
  | .removed => ∃ row, p.row = some row ∧ row.deleted = true

/-- The outcome is in place up to what recovery cannot restore: the payload is
known by its checksum only, and the row has a new time and no request id. -/
def Realizes (D : Set Bytes) (p : Slot) : Outcome → Prop
  | .stored row data =>
      data ∈ D ∧ sha256Hex data = row.checksum ∧ ∃ found stored, p.row = some found ∧
        found.deleted = false ∧ found.version = row.version ∧ found.size = row.size ∧
        found.checksum = row.checksum ∧ p.file = some stored ∧ sha256Hex stored = row.checksum
  | .removed => ∃ row, p.row = some row ∧ row.deleted = true

/-- Acting on the record finishes the mutation. -/
def Finishes (D : Set Bytes) (rec : WalRecord) : Outcome → Prop
  | .stored row data =>
      data ∈ D ∧ sha256Hex data = row.checksum ∧ rec.op = .put ∧ rec.version = row.version ∧
        rec.size = row.size ∧ rec.checksum = row.checksum
  | .removed => rec.op = .delete

/-- A key after a crash: nothing left to do for recovery, or one record. -/
inductive Interrupted (D : Set Bytes) (p : Slot) (atRest : Prop) (pending : Option Outcome) : Prop
  | still : p.Intact → (∀ rec ∈ p.opened, p.Inert rec) →
      (atRest ∨ ∃ outcome ∈ pending, Realizes D p outcome) → Interrupted D p atRest pending
  | halfway {rec : WalRecord} {outcome : Outcome} : p.opened = [rec] → ¬p.Inert rec →
      pending = some outcome → Finishes D rec outcome → Interrupted D p atRest pending

section Crash
variable {D : Set Bytes} {key : Bytes} {p : Slot} {atRest : Prop} {pending : Option Outcome}

theorem Slot.Leftover.inert (left : p.Leftover) : ∀ rec ∈ p.opened, p.Inert rec := by
  intro rec member
  obtain ⟨kind, dead⟩ := left rec member
  simp only [Slot.Inert, kind]
  exact dead

theorem Slot.version_lt_iff {version : ℕ} (positive : 0 < version) :
    p.version < version ↔ ¬∃ row ∈ p.row, version ≤ row.version := by
  unfold Slot.version
  cases p.row with
  | none => simpa using positive
  | some row => simp

/-- A crash inside a write. -/
theorem PutOk.interrupted {seq : ℕ} {row : ObjectMetadata} {data : Bytes} {todo : PutStage}
    (fresh : NewRow D key row data) (ok : PutOk p atRest seq row data todo) :
    Interrupted D p atRest (some (.stored row data)) := by
  -- before the rename the old payload decides: only the same digest makes recovery act
  have early (intact : p.Intact) (rest : atRest) (opened : p.opened = [putRecord seq row]) :
      Interrupted D p atRest (some (.stored row data)) := by
    by_cases inert : p.Inert (putRecord seq row)
    · refine .still intact ?_ (.inl rest)
      rw [opened]
      simpa using inert
    · exact .halfway opened inert rfl ⟨fresh.payload, fresh.sum, rfl, rfl, rfl, rfl⟩
  cases todo with
  | begin =>
      obtain ⟨intact, rest, opened, _⟩ := ok
      refine .still intact ?_ (.inl rest)
      rw [opened]
      exact List.forall_mem_nil _
  | stage => exact early ok.1 ok.2.1 ok.2.2.1
  | rename => exact early ok.1 ok.2.1 ok.2.2.1
  | row =>
      obtain ⟨file, opened, older⟩ := ok
      refine .halfway opened ?_ rfl ⟨fresh.payload, fresh.sum, rfl, rfl, rfl, rfl⟩
      rintro (newer | differs)
      · exact (Slot.version_lt_iff (Nat.zero_lt_of_lt older)).mp older newer
      · exact differs data file fresh.sum
  | commit =>
      obtain ⟨file, opened, found⟩ := ok
      refine .still ?_ ?_ (.inr ⟨_, rfl, fresh.payload, fresh.sum, row, data, found, fresh.live,
        rfl, rfl, rfl, file, fresh.sum⟩)
      · intro other here _
        obtain rfl : row = other := Option.some.inj (found.symm.trans here)
        exact ⟨data, file, fresh.sum⟩
      · rw [opened]
        simp only [List.mem_singleton, forall_eq]
        exact .inl ⟨row, found, le_rfl⟩

/-- A crash inside a delete. -/
theorem DeleteOk.interrupted {seq : ℕ} {todo : DeleteStage} (ok : DeleteOk p atRest seq key todo) :
    Interrupted D p atRest (some .removed) := by
  cases todo with
  | begin => exact .still ok.1 ok.2.2.inert (.inl ok.2.1)
  | row =>
      obtain ⟨intact, rest, left, opened, others⟩ := ok
      by_cases dead : p.Dead
      · refine .still intact ?_ (.inl rest)
        refine Slot.Leftover.inert (fun rec member => ?_)
        rw [opened, List.mem_append, List.mem_singleton] at member
        rcases member with member | rfl
        · exact others rec member
        · exact ⟨rfl, dead⟩
      · have alone : left = [] :=
          List.eq_nil_iff_forall_not_mem.mpr (fun rec member => dead (others rec member).2)
        rw [alone, List.nil_append] at opened
        exact .halfway opened dead rfl rfl
  | commit =>
      obtain ⟨opened, row, found, gone⟩ := ok
      have dead : p.Dead := by
        intro other here
        obtain rfl : row = other := Option.some.inj (found.symm.trans here)
        exact gone
      refine .still ?_ ?_ (.inr ⟨_, rfl, row, found, gone⟩)
      · intro other here live
        simp [dead other here] at live
      · rw [opened]
        simp only [List.mem_singleton, forall_eq]
        exact dead

theorem JobOk.interrupted {job : Job} (ok : JobOk D key p atRest job) :
    Interrupted D p atRest (some job.outcome) := by
  cases job with
  | put todo seq row data => exact ok.2.interrupted ok.1
  | delete todo seq name => exact ok.2.interrupted

end Crash

/-! ## The log -/

/-- Sequence numbers are handed out once, so a COMMIT closes no record of
another mutation in flight. -/
structure LogOk (w : Wal) (nextSeq : ℕ) (jobs : List Job) : Prop where
  whole : w.torn = false
  below : ∀ rec ∈ w.records, rec.seq < nextSeq
  issued : ∀ job ∈ jobs, job.seq < nextSeq
  seqs : (jobs.map Job.seq).Nodup
  uncommitted : ∀ job ∈ jobs, job.seq ∉ Wal.committed w.records
  owned : ∀ job ∈ jobs, ∀ rec ∈ Wal.openRecords w.records, rec.seq = job.seq → rec.key = job.key

section Log
variable {w : Wal} {nextSeq : ℕ} {jobs others : List Job} {job : Job}

theorem Wal.committed_sub {records : List WalRecord} {seq : ℕ} (h : seq ∈ Wal.committed records) :
    ∃ rec ∈ records, rec.seq = seq := by
  obtain ⟨rec, member, same⟩ := List.mem_map.mp h
  exact ⟨rec, (List.mem_filter.mp member).1, same⟩

theorem LogOk.tail (ok : LogOk w nextSeq (job :: others)) : LogOk w nextSeq others where
  whole := ok.whole
  below := ok.below
  issued := fun other member => ok.issued other (List.mem_cons_of_mem _ member)
  seqs := (List.nodup_cons.mp ok.seqs).2
  uncommitted := fun other member => ok.uncommitted other (List.mem_cons_of_mem _ member)
  owned := fun other member => ok.owned other (List.mem_cons_of_mem _ member)

theorem LogOk.perm {jobs' : List Job} (same : jobs.Perm jobs') (ok : LogOk w nextSeq jobs) :
    LogOk w nextSeq jobs' where
  whole := ok.whole
  below := ok.below
  issued := fun job member => ok.issued job (same.mem_iff.mpr member)
  seqs := (same.map Job.seq).nodup_iff.mp ok.seqs
  uncommitted := fun job member => ok.uncommitted job (same.mem_iff.mpr member)
  owned := fun job member => ok.owned job (same.mem_iff.mpr member)

/-- The next stage of a mutation keeps its sequence number. -/
theorem LogOk.resume {next : Job} (ok : LogOk w nextSeq (job :: others)) (seq : next.seq = job.seq)
    (key : next.key = job.key) : LogOk w nextSeq (next :: others) where
  whole := ok.whole
  below := ok.below
  issued := by
    have issued := ok.issued
    simp only [List.forall_mem_cons, seq] at issued ⊢
    exact issued
  seqs := by
    have seqs := ok.seqs
    simp only [List.map_cons, seq] at seqs ⊢
    exact seqs
  uncommitted := by
    have uncommitted := ok.uncommitted
    simp only [List.forall_mem_cons, seq] at uncommitted ⊢
    exact uncommitted
  owned := by
    have owned := ok.owned
    simp only [List.forall_mem_cons, seq, key] at owned ⊢
    exact owned

theorem LogOk.launch (seq : job.seq = nextSeq) (ok : LogOk w nextSeq jobs) :
    LogOk w (nextSeq + 1) (job :: jobs) where
  whole := ok.whole
  below := fun rec member => Nat.lt_succ_of_lt (ok.below rec member)
  issued := by
    simp only [List.forall_mem_cons, seq]
    exact ⟨Nat.lt_succ_self _, fun other member => Nat.lt_succ_of_lt (ok.issued other member)⟩
  seqs := by
    refine List.nodup_cons.mpr ⟨fun member => ?_, ok.seqs⟩
    obtain ⟨other, inside, same⟩ := List.mem_map.mp member
    have := ok.issued other inside
    omega
  uncommitted := by
    refine List.forall_mem_cons.mpr ⟨fun done => ?_, ok.uncommitted⟩
    obtain ⟨rec, member, same⟩ := Wal.committed_sub done
    have := ok.below rec member
    omega
  owned := by
    refine List.forall_mem_cons.mpr ⟨fun rec isOpen same => ?_, ok.owned⟩
    have := ok.below rec (List.mem_filter.mp isOpen).1
    omega

theorem LogOk.begin {rec : WalRecord} (plain : rec.isCommit = false) (seq : rec.seq = job.seq)
    (key : rec.key = job.key) (ok : LogOk w nextSeq (job :: others)) :
    LogOk (w.appendRecord rec) nextSeq (job :: others) := by
  have fresh : rec.seq ∉ Wal.committed w.records := by
    rw [seq]
    exact ok.uncommitted job List.mem_cons_self
  have appended : w.appendRecord rec = { w with records := w.records ++ [rec] } := by
    simp [Wal.appendRecord, ok.whole]
  rw [appended]
  refine ⟨ok.whole, ?_, ok.issued, ok.seqs, ?_, ?_⟩
  · intro r member
    rcases List.mem_append.mp member with old | new
    · exact ok.below r old
    · obtain rfl := List.mem_singleton.mp new
      rw [seq]
      exact ok.issued job List.mem_cons_self
  · intro j member
    rw [committed_begin plain]
    exact ok.uncommitted j member
  · intro j member r isOpen same
    rw [openRecords_begin plain fresh] at isOpen
    rcases List.mem_append.mp isOpen with old | new
    · exact ok.owned j member r old same
    · obtain rfl := List.mem_singleton.mp new
      rcases List.mem_cons.mp member with rfl | inside
      · exact key
      · -- another mutation in flight has another number
        have distinct := (List.nodup_cons.mp ok.seqs).1
        exact absurd (List.mem_map.mpr ⟨j, inside, same.symm.trans seq⟩) distinct

theorem LogOk.commit (ok : LogOk w nextSeq (job :: others)) :
    LogOk (w.appendRecord (.commit job.seq)) nextSeq others := by
  have appended : w.appendRecord (.commit job.seq) =
      { w with records := w.records ++ [.commit job.seq] } := by
    simp [Wal.appendRecord, ok.whole]
  rw [appended]
  refine ⟨ok.whole, ?_, ok.tail.issued, ok.tail.seqs, ?_, ?_⟩
  · intro r member
    rcases List.mem_append.mp member with old | new
    · exact ok.below r old
    · obtain rfl := List.mem_singleton.mp new
      exact ok.issued job List.mem_cons_self
  · intro j member done
    rw [committed_commit, List.mem_append, List.mem_singleton] at done
    rcases done with old | same
    · exact ok.tail.uncommitted j member old
    · exact (List.nodup_cons.mp ok.seqs).1 (List.mem_map.mpr ⟨j, member, same⟩)
  · intro j member r isOpen same
    rw [openRecords_commit] at isOpen
    exact ok.tail.owned j member r (List.mem_filter.mp isOpen).1 same

/-- One disk step of a mutation, whatever it is. -/
theorem LogOk.advance {d : Disk} (ok : LogOk d.wal nextSeq (job :: others)) :
    LogOk (job.effect d).wal nextSeq ((job.next d).toList ++ others) := by
  cases job with
  | put todo seq row data =>
      cases todo with
      | begin =>
          have log : LogOk (d.wal.appendRecord (putRecord seq row)) nextSeq
              (.put .begin seq row data :: others) := ok.begin rfl rfl rfl
          exact log.resume rfl rfl
      | commit => exact ok.commit
      | _ => exact ok.resume rfl rfl
  | delete todo seq key =>
      cases todo with
      | begin =>
          have log : LogOk (d.wal.appendRecord (deleteRecord seq key)) nextSeq
              (.delete .begin seq key :: others) := ok.begin rfl rfl rfl
          exact log.resume rfl rfl
      | row =>
          simp only [Job.next]
          split
          · exact ok.resume rfl rfl
          · exact ok.tail
      | commit => exact ok.commit

end Log
end Dos.Storage
