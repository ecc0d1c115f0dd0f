import DistributedObjectStorage.Storage.StoreShape
import DistributedObjectStorage.Storage.StoreAtomicity
import DistributedObjectStorage.Storage.StoreDurability

/-!
# Power loss

With `synchronous=NORMAL` a power loss may drop the last metadata transactions,
while the log and the payload files were synced. A COMMIT record then closes a
write whose row is gone, and recovery passes over it.
-/
namespace Dos.Storage
open Transition

/-- The row that the next step of a write puts into the metadata. -/
def Job.transaction : Job → Option ObjectMetadata
  | .put .row _ row _ => some row
  | _ => none

def Machine.transaction (s : Machine) : StoreAction → Option ObjectMetadata
  | .step k =>
      match s.mode with
      | .running _ jobs => jobs[k]?.bind Job.transaction
      | _ => none
  | _ => none

/-- A store that was opened on durable metadata, and its transactions since then. -/
structure PowerRun where
  base : SqliteMetadataStore
  machine : Machine
  ledger : List ObjectMetadata

namespace PowerRun

/-- The table after some transactions. -/
def table (base : SqliteMetadataStore) (rows : List ObjectMetadata) : SqliteMetadataStore :=
  rows.foldl .put base

def start (metadata : SqliteMetadataStore) (files : OrderedMap Bytes Bytes) : PowerRun where
  base := metadata
  machine :=
    { disk := ⟨metadata, files, [], .empty⟩
      mode := .running 1 []
      seen := ⟨Disk.view ⟨metadata, files, [], .empty⟩, fun _ => none, fun _ => none⟩ }
  ledger := []

def exec (shard : Bytes → ℕ) (r : PowerRun) (act : StoreAction) : PowerRun where
  base := r.base
  machine := r.machine.exec shard act
  ledger := r.ledger ++ (r.machine.transaction act).toList

/-- Runs of `Put` calls, of keys whose version has a successor. -/
def PutCalls (r : PowerRun) : StoreAction → Prop
  | .start (.put key _) _ => r.machine.disk.Room key
  | .step _ => True
  | _ => False

def system (shard : Bytes → ℕ) (metadata : SqliteMetadataStore) (files : OrderedMap Bytes Bytes) :
    System PowerRun := .guarded (exec shard) PutCalls (start metadata files)

/-- The transactions that survive when the last ones are lost. -/
def kept (r : PowerRun) (lost : ℕ) : List ObjectMetadata := r.ledger.take (r.ledger.length - lost)

/-- What a power loss leaves. -/
def powerLoss (r : PowerRun) (lost : ℕ) : Disk :=
  { r.machine.disk with metadata := table r.base (r.kept lost) }

/-! ## The table -/

theorem table_append (base : SqliteMetadataStore) (rows : List ObjectMetadata) (row : ObjectMetadata) :
    table base (rows ++ [row]) = (table base rows).put row := by
  simp [table]

/-- The last transaction of a key decides. -/
theorem table_cases (base : SqliteMetadataStore) (rows : List ObjectMetadata) (key : Bytes) :
    (table base rows).objects[key]? = base.objects[key]? ∧ (∀ row ∈ rows, row.key ≠ key) ∨
      ∃ before row after, rows = before ++ row :: after ∧ row.key = key ∧
        (∀ later ∈ after, later.key ≠ key) ∧ (table base rows).objects[key]? = some row := by
  induction rows using List.reverseRecOn with
  | nil => exact .inl ⟨rfl, List.forall_mem_nil _⟩
  | append_singleton rows row ih =>
      rw [table_append]
      by_cases same : row.key = key
      · refine .inr ⟨rows, row, [], rfl, same, List.forall_mem_nil _, ?_⟩
        simp [SqliteMetadataStore.put, same]
      · have unchanged : ((table base rows).put row).objects[key]? = (table base rows).objects[key]? :=
          OrderedMap.lookup_insert_ne _ _ same
        rw [unchanged]
        rcases ih with ⟨found, none⟩ | ⟨before, old, after, rfl, named, later, found⟩
        · refine .inl ⟨found, fun r member => ?_⟩
          rcases List.mem_append.mp member with earlier | last
          · exact none r earlier
          · rwa [List.mem_singleton.mp last]
        · refine .inr ⟨before, old, after ++ [row], by simp, named, fun r member => ?_, found⟩
          rcases List.mem_append.mp member with earlier | last
          · exact later r earlier
          · rwa [List.mem_singleton.mp last]

/-- Versions of a key grow along the ledger. -/
def Ascending (rows : List ObjectMetadata) : Prop :=
  rows.Pairwise fun earlier later => earlier.key = later.key → earlier.version < later.version

/-- The version that a table has for a key. -/
def versionOf (metadata : SqliteMetadataStore) (key : Bytes) : ℕ := metadata.objects[key]?.elim 0 (·.version)

section Kept
variable {base : SqliteMetadataStore} {rows kept : List ObjectMetadata} {row : ObjectMetadata}

theorem Ascending.split {before after : List ObjectMetadata} (ascending : Ascending (before ++ row :: after)) :
    (∀ x ∈ before, x.key = row.key → x.version < row.version) ∧
      ∀ x ∈ after, row.key = x.key → row.version < x.version := by
  obtain ⟨_, later, across⟩ := List.pairwise_append.mp ascending
  exact ⟨fun x member => across x member row List.mem_cons_self, (List.pairwise_cons.mp later).1⟩

/-- A newest row that was kept is the row of its key. -/
theorem table_of_kept (ascending : Ascending rows) (part : kept <+: rows)
    (newest : ∀ x ∈ rows, x.key = row.key → x.version ≤ row.version) (inside : row ∈ kept) :
    (table base kept).objects[row.key]? = some row := by
  rcases table_cases base kept row.key with ⟨_, none⟩ | ⟨before, last, after, rfl, named, later, found⟩
  · exact absurd rfl (none row inside)
  · have order := Ascending.split (List.Pairwise.sublist part.sublist ascending)
    rcases List.mem_append.mp inside with early | rest
    · have above := order.1 row early named.symm
      have below := newest last (part.subset (by simp)) named
      omega
    · rcases List.mem_cons.mp rest with rfl | late
      · exact found
      · exact absurd rfl (later row late)

/-- If it was lost, the table is at another version. -/
theorem table_of_lost (ascending : Ascending rows) (part : kept <+: rows)
    (above : ∀ x ∈ rows, versionOf base x.key < x.version) (inside : row ∈ rows) (lost : row ∉ kept)
    {found : ObjectMetadata} (lookup : (table base kept).objects[row.key]? = some found) :
    found.version ≠ row.version := by
  rcases table_cases base kept row.key with ⟨same, _⟩ | ⟨before, last, after, rfl, named, _, here⟩
  · have start := above row inside
    rw [versionOf, ← same, lookup, Option.elim_some] at start
    omega
  · obtain ⟨rest, rfl⟩ := part
    obtain rfl : last = found := Option.some.inj (here.symm.trans lookup)
    rw [List.append_assoc, List.cons_append] at ascending inside
    obtain ⟨earlier, later⟩ := ascending.split
    rcases List.mem_append.mp inside with early | here
    · exact absurd (List.mem_append_left _ early) lost
    · rcases List.mem_cons.mp here with rfl | late
      · exact absurd (by simp) lost
      · have := later row late named
        omega

end Kept

/-! ## Runs -/

/-- How far a write came. -/
def Pending (r : PowerRun) : Job → Prop
  | .put .commit _ row data =>
      row.deleted = false ∧ sha256Hex data = row.checksum ∧ (r.machine.disk.slot row.key).row = some row ∧
        row ∈ r.ledger
  | .put _ _ row data =>
      row.deleted = false ∧ sha256Hex data = row.checksum ∧
        (r.machine.disk.slot row.key).version < row.version
  | .delete _ _ _ => False

structure Recorded (r : PowerRun) : Prop where
  shaped : r.machine.Shaped
  puts : PutsOnly r.machine
  running : ∃ nextSeq jobs, r.machine.mode = .running nextSeq jobs
  table : r.machine.disk.metadata = table r.base r.ledger
  grown : ∀ key, versionOf r.base key ≤ (r.machine.disk.slot key).version
  ascending : Ascending r.ledger
  above : ∀ row ∈ r.ledger,
    versionOf r.base row.key < row.version ∧ row.version ≤ (r.machine.disk.slot row.key).version
  jobs : ∀ nextSeq jobs, r.machine.mode = .running nextSeq jobs →
    ∀ job ∈ jobs, r.Pending job ∧ r.machine.seen.acked job.key = none
  acked : ∀ key outcome, r.machine.seen.acked key = some outcome →
    ∃ row data, outcome = .stored row data ∧ row.key = key ∧ row.deleted = false ∧
      sha256Hex data = row.checksum ∧ (r.machine.disk.slot key).row = some row ∧ row ∈ r.ledger

theorem recorded_start (metadata : SqliteMetadataStore) (files : OrderedMap Bytes Bytes) :
    (start metadata files).Recorded where
  shaped := LogShape.fresh rfl
  puts := ⟨List.forall_mem_nil _,
    by rintro _ _ ⟨⟩ job member; exact absurd member List.not_mem_nil⟩
  running := ⟨1, [], rfl⟩
  table := rfl
  grown := fun key => le_rfl
  ascending := List.Pairwise.nil
  above := List.forall_mem_nil _
  jobs := by rintro _ _ ⟨⟩ job member; exact absurd member List.not_mem_nil
  acked := by rintro _ _ ⟨⟩

section Steps
variable {r r' : PowerRun} {job : Job}

theorem Pending.mono (row : (r'.machine.disk.slot job.key).row = (r.machine.disk.slot job.key).row)
    (ledger : ∀ x ∈ r.ledger, x ∈ r'.ledger) (pending : r.Pending job) : r'.Pending job := by
  cases job with
  | put todo seq new data =>
      have version : (r'.machine.disk.slot new.key).version = (r.machine.disk.slot new.key).version :=
        congrArg (·.elim 0 (·.version)) row
      cases todo with
      | commit =>
          obtain ⟨live, sum, found, member⟩ := pending
          exact ⟨live, sum, row.trans found, ledger new member⟩
      | _ =>
          obtain ⟨live, sum, older⟩ := pending
          exact ⟨live, sum, version ▸ older⟩
  | delete todo seq key => exact pending

/-- The machine part of a step of a run of `Put` calls. -/
theorem Recorded.machine (ok : r.Recorded) (act : StoreAction) (allowed : r.PutCalls act)
    (shard : Bytes → ℕ) : (r.machine.exec shard act).Shaped ∧ PutsOnly (r.machine.exec shard act) := by
  have noDelete (key : Bytes) (now : Int) : act ≠ .start (.delete key) now := by
    rintro rfl
    exact allowed
  exact ⟨ok.shaped.move (r.machine.exec_move shard act), ok.puts.move (r.machine.exec_move shard act) noDelete⟩

theorem Recorded.launch (ok : r.Recorded) {nextSeq : ℕ} {jobs : List Job}
    (mode : r.machine.mode = .running nextSeq jobs) (pending : r.Pending job)
    (shaped : (r.machine.launch nextSeq jobs job).Shaped)
    (puts : PutsOnly (r.machine.launch nextSeq jobs job)) :
    Recorded ⟨r.base, r.machine.launch nextSeq jobs job, r.ledger⟩ where
  shaped := shaped
  puts := puts
  running := ⟨_, _, rfl⟩
  table := ok.table
  grown := ok.grown
  ascending := ok.ascending
  above := ok.above
  jobs := by
    rintro _ _ ⟨⟩ other member
    rcases List.mem_append.mp member with old | new
    · obtain ⟨before, silent⟩ := ok.jobs _ _ mode other old
      refine ⟨before.mono rfl fun _ inside => inside, ?_⟩
      simp only [Machine.launch, Function.update_apply, silent, ite_self]
    · obtain rfl := List.mem_singleton.mp new
      exact ⟨pending.mono rfl fun _ inside => inside, Function.update_self ..⟩
  acked := by
    intro key outcome acked
    simp only [Machine.launch, Function.update_apply] at acked
    split at acked
    · cases acked
    · exact ok.acked key outcome acked

theorem Recorded.start (ok : r.Recorded) (shard : Bytes → ℕ) {key : Bytes} (room : r.machine.disk.Room key)
    (data : Bytes) (now : Int) : (r.exec shard (.start (.put key data) now)).Recorded := by
  have unlogged : r.exec shard (.start (.put key data) now) =
      ⟨r.base, r.machine.exec shard (.start (.put key data) now), r.ledger⟩ := by
    simp [exec, Machine.transaction]
  have parts := ok.machine (.start (.put key data) now) room shard
  have move := r.machine.exec_move shard (.start (.put key data) now)
  rw [unlogged]
  generalize r.machine.exec shard (.start (.put key data) now) = after at move parts
  cases move with
  | stay => exact ok
  | @begin nextSeq jobs m now state free =>
      rcases r.machine.begin_cases nextSeq jobs (.put key data) now with
        same | ⟨other, isDelete, _⟩ | ⟨req, row, requested, plan, same⟩
      · rw [same]
        exact ok
      · cases isDelete
      · rw [same] at parts ⊢
        simp only [Mutation.request, Option.ite_none_left_eq_some, Option.some.injEq] at requested
        obtain ⟨_, rfl⟩ := requested
        obtain ⟨named, sum, live, newer⟩ := planPut_write rfl room plan
        exact ok.launch state ⟨live, sum, named ▸ newer⟩ parts.1 parts.2

/-- A step of a write that is not its transaction and not its last. -/
theorem Recorded.quiet (ok : r.Recorded) {nextSeq : ℕ} {jobs : List Job}
    (mode : r.machine.mode = .running nextSeq jobs) {k : ℕ} (found : jobs[k]? = some job)
    (metadata : (job.effect r.machine.disk).metadata = r.machine.disk.metadata)
    (unfinished : job.succeeds = false)
    (goesOn : ∀ rest, job.next r.machine.disk = some rest → rest.key = job.key ∧ r.Pending rest)
    (shaped : (r.machine.advance nextSeq jobs k job).Shaped)
    (puts : PutsOnly (r.machine.advance nextSeq jobs k job)) :
    Recorded ⟨r.base, r.machine.advance nextSeq jobs k job, r.ledger⟩ := by
  have row (key : Bytes) : ((r.machine.advance nextSeq jobs k job).disk.slot key).row =
      (r.machine.disk.slot key).row := congrArg (·.objects[key]?) metadata
  have version (key : Bytes) : ((r.machine.advance nextSeq jobs k job).disk.slot key).version =
      (r.machine.disk.slot key).version := congrArg (·.elim 0 (·.version)) (row key)
  have seen : (r.machine.advance nextSeq jobs k job).seen = r.machine.seen := by
    simp [Machine.advance, Observed.after, unfinished]
  refine ⟨shaped, puts, ⟨_, _, rfl⟩, metadata.trans ok.table, ?_, ok.ascending, ?_, ?_, ?_⟩
  · intro key
    rw [version]
    exact ok.grown key
  · intro x member
    rw [version]
    exact ok.above x member
  · rintro _ _ ⟨⟩ other member
    rw [seen]
    rcases List.mem_append.mp member with next | old
    · obtain ⟨named, pending⟩ := goesOn other (Option.mem_toList.mp next)
      rw [named]
      exact ⟨pending.mono (row _) fun _ inside => inside,
        (ok.jobs _ _ mode job (List.mem_of_getElem? found)).2⟩
    · obtain ⟨pending, silent⟩ := ok.jobs _ _ mode other (List.mem_of_mem_eraseIdx old)
      exact ⟨pending.mono (row _) fun _ inside => inside, silent⟩
  · intro key outcome acked
    rw [seen] at acked
    rw [row]
    exact ok.acked key outcome acked

variable {nextSeq seq k : ℕ} {jobs : List Job} {row : ObjectMetadata} {data : Bytes}

/-- The metadata transaction of a write. -/
theorem Recorded.transact (ok : r.Recorded) (mode : r.machine.mode = .running nextSeq jobs)
    (found : jobs[k]? = some (.put .row seq row data))
    (shaped : (r.machine.advance nextSeq jobs k (.put .row seq row data)).Shaped)
    (puts : PutsOnly (r.machine.advance nextSeq jobs k (.put .row seq row data))) :
    Recorded ⟨r.base, r.machine.advance nextSeq jobs k (.put .row seq row data), r.ledger ++ [row]⟩ := by
  obtain ⟨⟨live, sum, older⟩, silent⟩ := ok.jobs _ _ mode _ (List.mem_of_getElem? found)
  have own : ((r.machine.disk.putRow row).slot row.key).row = some row :=
    congrArg Slot.row (r.machine.disk.slot_putRow row)
  have other {key : Bytes} (ne : row.key ≠ key) :
      (r.machine.disk.putRow row).slot key = r.machine.disk.slot key :=
    r.machine.disk.slot_putRow_ne ne
  have version : ((r.machine.disk.putRow row).slot row.key).version = row.version :=
    congrArg (·.elim 0 (·.version)) own
  have grows (key : Bytes) : (r.machine.disk.slot key).version ≤
      ((r.machine.disk.putRow row).slot key).version := by
    by_cases same : row.key = key
    · subst same
      rw [version]
      exact older.le
    · rw [other same]
  refine ⟨shaped, puts, ⟨_, _, rfl⟩, ?_, ?_, ?_, ?_, ?_, ?_⟩
  · rw [table_append, ← ok.table]
    rfl
  · exact fun key => (ok.grown key).trans (grows key)
  · refine List.pairwise_append.mpr ⟨ok.ascending, List.pairwise_singleton _ _, ?_⟩
    intro earlier member last single
    obtain rfl := List.mem_singleton.mp single
    intro same
    have below := (ok.above earlier member).2
    rw [same] at below
    omega
  · intro x member
    rcases List.mem_append.mp member with old | new
    · exact ⟨(ok.above x old).1, (ok.above x old).2.trans (grows x.key)⟩
    · obtain rfl := List.mem_singleton.mp new
      exact ⟨(ok.grown _).trans_lt older, version.ge⟩
  · rintro _ _ ⟨⟩ job member
    rcases List.mem_append.mp member with next | old
    · cases Option.mem_toList.mp next
      exact ⟨⟨live, sum, own, List.mem_append_right _ List.mem_cons_self⟩, silent⟩
    · obtain ⟨pending, unacked⟩ := ok.jobs _ _ mode job (List.mem_of_mem_eraseIdx old)
      refine ⟨pending.mono ?_ fun _ inside => List.mem_append_left _ inside, unacked⟩
      exact congrArg Slot.row (other ((ok.shaped.running mode).elsewhere found old))
  · intro key outcome acked
    have ne : row.key ≠ key := by
      rintro rfl
      exact absurd (silent.symm.trans acked) nofun
    obtain ⟨stored, bytes, rfl, named, alive, digest, here, member⟩ := ok.acked key outcome acked
    refine ⟨stored, bytes, rfl, named, alive, digest, ?_, List.mem_append_left _ member⟩
    exact (congrArg Slot.row (other ne)).trans here

/-- The write returns. -/
theorem Recorded.finish (ok : r.Recorded) (mode : r.machine.mode = .running nextSeq jobs)
    (found : jobs[k]? = some (.put .commit seq row data))
    (shaped : (r.machine.advance nextSeq jobs k (.put .commit seq row data)).Shaped)
    (puts : PutsOnly (r.machine.advance nextSeq jobs k (.put .commit seq row data))) :
    Recorded ⟨r.base, r.machine.advance nextSeq jobs k (.put .commit seq row data), r.ledger⟩ := by
  obtain ⟨⟨live, sum, here, member⟩, _⟩ := ok.jobs _ _ mode _ (List.mem_of_getElem? found)
  have acked : (r.machine.advance nextSeq jobs k (.put .commit seq row data)).seen.acked =
      Function.update r.machine.seen.acked row.key (some (.stored row data)) := rfl
  refine ⟨shaped, puts, ⟨_, _, rfl⟩, ok.table, ok.grown, ok.ascending, ok.above, ?_, ?_⟩
  · rintro _ _ ⟨⟩ job inside
    rcases List.mem_append.mp inside with next | old
    · cases Option.mem_toList.mp next
    · obtain ⟨pending, unacked⟩ := ok.jobs _ _ mode job (List.mem_of_mem_eraseIdx old)
      refine ⟨pending.mono rfl fun _ inside => inside, ?_⟩
      have ne : row.key ≠ job.key := (ok.shaped.running mode).elsewhere found old
      rw [acked, Function.update_of_ne ne.symm]
      exact unacked
  · intro key outcome done
    rw [acked, Function.update_apply] at done
    split at done
    · next same =>
        subst same
        cases done
        exact ⟨row, data, rfl, rfl, live, sum, here, member⟩
    · exact ok.acked key outcome done

theorem Recorded.step (ok : r.Recorded) (shard : Bytes → ℕ) (k : ℕ) : (r.exec shard (.step k)).Recorded := by
  obtain ⟨nextSeq, jobs, mode⟩ := ok.running
  obtain ⟨shaped, puts⟩ := ok.machine (.step k) trivial shard
  cases found : jobs[k]? with
  | none =>
      have same : r.exec shard (.step k) = r := by
        simp [exec, Machine.exec, Machine.transaction, mode, found]
      rw [same]
      exact ok
  | some job =>
      have moved : r.machine.exec shard (.step k) = r.machine.advance nextSeq jobs k job := by
        simp [Machine.exec, mode, found]
      have after : r.exec shard (.step k) = ⟨r.base, r.machine.advance nextSeq jobs k job,
          r.ledger ++ job.transaction.toList⟩ := by
        simp [exec, moved, Machine.transaction, mode, found]
      rw [moved] at shaped puts
      rw [after]
      have pending := (ok.jobs _ _ mode job (List.mem_of_getElem? found)).1
      cases job with
      | delete todo seq key => exact pending.elim
      | put todo seq row data =>
          cases todo with
          | row => exact ok.transact mode found shaped puts
          | commit =>
              simp only [Job.transaction, Option.toList_none, List.append_nil]
              exact ok.finish mode found shaped puts
          | _ =>
              simp only [Job.transaction, Option.toList_none, List.append_nil]
              refine ok.quiet mode found rfl rfl ?_ shaped puts
              rintro _ ⟨⟩
              exact ⟨rfl, pending⟩

theorem reachable_recorded {shard : Bytes → ℕ} {metadata : SqliteMetadataStore}
    {files : OrderedMap Bytes Bytes} (reachable : (system shard metadata files).Reachable r) :
    r.Recorded := by
  apply reachable.invariant
  · rintro _ rfl
    exact recorded_start metadata files
  · rintro before _ _ ok ⟨act, allowed, rfl⟩
    unfold PutCalls at allowed
    split at allowed
    · exact ok.start shard allowed _ _
    · exact ok.step shard _
    · exact allowed.elim

end Steps

/-- No record of an idle key is open. -/
theorem Recorded.settled {r : PowerRun} (ok : r.Recorded) {key : Bytes} {outcome : Outcome}
    (acked : r.machine.seen.acked key = some outcome) : (r.machine.disk.slot key).opened = [] := by
  obtain ⟨nextSeq, jobs, mode⟩ := ok.running
  have idle : key ∉ jobs.map Job.key := by
    intro busy
    obtain ⟨job, member, rfl⟩ := List.mem_map.mp busy
    exact absurd ((ok.jobs _ _ mode job member).2.symm.trans acked) nofun
  obtain ⟨left, opened, deletes⟩ := (ok.shaped.running mode).idle key idle
  rw [List.append_nil] at opened
  rw [List.eq_nil_iff_forall_not_mem]
  intro rec member
  have isPut := ok.puts.records rec (List.mem_filter.mp member).1
  rw [deletes rec (opened ▸ member)] at isPut
  cases isPut

/-- A `Put` that returned and was the last write of its key is readable after a
power loss exactly when its metadata transaction was not lost and the payload
file of the key still has its bytes. -/
theorem power_loss_readable_iff (shard : Bytes → ℕ) (metadata : SqliteMetadataStore)
    (files : OrderedMap Bytes Bytes) {r : PowerRun} (reachable : (system shard metadata files).Reachable r)
    {key data : Bytes} {row : ObjectMetadata}
    (acked : r.machine.seen.acked key = some (.stored row data)) (lost : ℕ) (now : Int) :
    ((recover (r.powerLoss lost) now).get key = .ok data ∧
      ∃ head, (recover (r.powerLoss lost) now).head key = .ok head ∧ head.version = row.version) ↔
      row ∈ r.kept lost ∧ r.machine.disk.files[keyDigest key]? = some data := by
  have ok := reachable_recorded reachable
  obtain ⟨_, _, ⟨⟩, named, live, sum, here, member⟩ := ok.acked key _ acked
  subst named
  have slot : (recover (r.powerLoss lost) now).slot row.key =
      ⟨(table r.base (r.kept lost)).objects[row.key]?, r.machine.disk.files[keyDigest row.key]?, []⟩ := by
    have opened : ((r.powerLoss lost).slot row.key).opened = [] := ok.settled acked
    rw [recover_slot, opened]
    rfl
  have part : r.kept lost <+: r.ledger := List.take_prefix _ _
  constructor
  · rintro ⟨read, head, found, version⟩
    refine ⟨?_, (congrArg Slot.file slot).symm.trans (Disk.get_ok_file read)⟩
    obtain ⟨current, lookup, same⟩ := Disk.head_ok found
    by_contra dropped
    rw [same] at version
    exact table_of_lost ok.ascending part (fun x old => (ok.above x old).1) member dropped
      ((congrArg Slot.row slot).symm.trans lookup) version
  · rintro ⟨inside, file⟩
    have newest (x : ObjectMetadata) (old : x ∈ r.ledger) (same : x.key = row.key) :
        x.version ≤ row.version := by
      have below := (ok.above x old).2
      rw [same, Slot.version, here] at below
      exact below
    have found : ((recover (r.powerLoss lost) now).slot row.key).row = some row :=
      (congrArg Slot.row slot).trans (table_of_kept ok.ascending part newest inside)
    refine ⟨Disk.get_of_view (Disk.view_live found live ((congrArg Slot.file slot).trans file) sum), ?_⟩
    exact ⟨readRow row, Disk.head_live found live, rfl⟩

section Sample

/-- One `Put` of `k` that returned. -/
def putOnce : PowerRun :=
  (Machine.writing (.put sampleKey [1]) 0).foldl (exec fun _ => 0) (start ⟨∅⟩ ∅)

theorem putOnce_reachable : (system (fun _ => 0) ⟨∅⟩ ∅).Reachable putOnce := by
  have room : (start ⟨∅⟩ ∅).PutCalls (.start (.put sampleKey [1]) 0) := by
    change (Disk.slot _ sampleKey).version + 1 < 2 ^ 64
    decide +kernel
  have begun : (system (fun _ => 0) ⟨∅⟩ ∅).Reachable
      (exec (fun _ => 0) (start ⟨∅⟩ ∅) (.start (.put sampleKey [1]) 0)) := .next (.start rfl) ⟨_, room, rfl⟩
  rw [putOnce, Machine.writing, List.foldl_cons]
  refine begun.along (.of_forall ?_ _)
  simp [PutCalls]

end Sample

theorem power_loss_readable_iff_kept :
    (recover (putOnce.powerLoss 0) 0).get sampleKey = .ok [1] ∧
      ∃ head, (recover (putOnce.powerLoss 0) 0).head sampleKey = .ok head ∧ head.version = 1 := by
  obtain ⟨acked, inside, file⟩ : putOnce.machine.seen.acked sampleKey = some (.stored sampleRow [1]) ∧
      sampleRow ∈ putOnce.kept 0 ∧ putOnce.machine.disk.files[keyDigest sampleKey]? = some [1] := by
    decide +kernel
  exact (power_loss_readable_iff (fun _ => 0) ⟨∅⟩ ∅ putOnce_reachable acked 0 0).mpr ⟨inside, file⟩

/-- The COMMIT record survives and the row does not: the object is gone. -/
theorem power_loss_loses_put :
    (system (fun _ => 0) ⟨∅⟩ ∅).Reachable putOnce ∧
      putOnce.machine.seen.acked sampleKey = some (.stored sampleRow [1]) ∧
      (recover (putOnce.powerLoss 1) 0).get sampleKey = .error (.notFound (text "no such key: k")) :=
  ⟨putOnce_reachable, by decide +kernel, by decide +kernel⟩

end PowerRun
end Dos.Storage
