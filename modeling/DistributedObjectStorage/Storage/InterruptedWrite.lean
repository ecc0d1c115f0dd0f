import DistributedObjectStorage.Storage.StoreShape
import DistributedObjectStorage.Storage.StoreRows
import DistributedObjectStorage.Storage.StoreDurability

/-!
# Writes that are killed

A write of an idle key is killed after some of its disk steps and the store is
opened again. What recovery makes of the key is read off the slot before the
write, the record of the write and the number of steps.
-/
namespace Dos.Storage
open Transition

def PutStage.all : List PutStage := [.begin, .stage, .rename, .row, .commit]

/-- What a crash leaves when a write has done some of its disk steps. A write
that is refused or recognised has none. -/
def LocalObjectStore.killed (s : LocalObjectStore) (m : Mutation) (now : Int) (done : ℕ) (torn : Bool) :
    Disk :=
  match m.request with
  | none => s.disk
  | some req =>
      match planPut s.disk req now with
      | .answer _ => s.disk
      | .write row =>
          let d := (PutStage.all.take done).foldl
            (fun d todo => (Job.put todo s.nextSeq row req.data).effect d) s.disk
          if torn then { d with wal := d.wal.tear } else d

/-- After all its steps the write has done what `DoPut` does. -/
theorem LocalObjectStore.killed_whole (s : LocalObjectStore) {m : Mutation} {req : WriteRequest}
    (requested : m.request = some req) (now : Int) :
    s.killed m now 5 false = (s.doPut req now).1.disk := by
  simp only [killed, requested, doPut]
  cases planPut s.disk req now <;> rfl

/-- The slot of a key whose write did some of its steps. -/
def Slot.killed (p : Slot) (rec : WalRecord) (row : ObjectMetadata) (data : Bytes) (done : ℕ) : Slot where
  row := if done < 4 then p.row else some row
  file := if done < 3 then p.file else some data
  opened := if done = 0 ∨ 5 ≤ done then p.opened else p.opened ++ [rec]

section Slots
variable {d : Disk} {nextSeq : ℕ} {jobs : List Job}

theorem LogOk.fresh (log : LogOk d.wal nextSeq jobs) : nextSeq ∉ Wal.committed d.wal.records := by
  intro done
  obtain ⟨rec, member, same⟩ := Wal.committed_sub done
  exact absurd (log.below rec member) (by omega)

/-- The COMMIT of a write closes its own record and no other. -/
theorem LogOk.closes (log : LogOk d.wal nextSeq jobs) {rec : WalRecord} (own : rec.seq = nextSeq)
    (key : Bytes) :
    ((d.slot key).opened ++ [rec]).filter (·.seq ≠ nextSeq) = (d.slot key).opened := by
  rw [List.filter_append, List.filter_eq_self.mpr]
  · simp [own]
  · intro old member
    have inside : old ∈ d.wal.records := (List.mem_filter.mp (List.mem_filter.mp member).1).1
    have below := log.below old inside
    simp only [ne_eq, decide_not, Bool.not_eq_true', decide_eq_false_iff_not]
    omega

theorem Disk.slot_tear (torn : Bool) (key : Bytes) :
    (if torn then { d with wal := d.wal.tear } else d).slot key = d.slot key := by
  split <;> rfl

theorem LocalObjectStore.killed_slot (log : LogOk d.wal nextSeq jobs) {m : Mutation} {req : WriteRequest}
    (requested : m.request = some req) {now : Int} {row : ObjectMetadata}
    (plan : planPut d req now = .write row) (done : ℕ) (torn : Bool) :
    (LocalObjectStore.killed ⟨d, nextSeq⟩ m now done torn).slot row.key =
      (d.slot row.key).killed (putRecord nextSeq row) row req.data done := by
  have rest := Disk.slot_tear (d := (PutStage.all.take done).foldl
    (fun d todo => (Job.put todo nextSeq row req.data).effect d) d) torn row.key
  simp only [killed, requested, plan]
  refine rest.trans ?_
  -- the slot after each of the steps
  let begun := d.appendBegin nextSeq .put row.key row.version row.checksum row.size
  let placed := (begun.stagePayload req.data).placePayload row.key req.data
  have first : begun.slot row.key = (d.slot row.key).killed (putRecord nextSeq row) row req.data 1 :=
    d.slot_appendBegin log.whole log.fresh .put row.version row.checksum row.size
  have third : placed.slot row.key = (d.slot row.key).killed (putRecord nextSeq row) row req.data 3 :=
    ((begun.stagePayload req.data).slot_placePayload req.data).trans
      (congrArg (fun p : Slot => { p with file := some req.data }) first)
  have fourth : (placed.putRow row).slot row.key =
      (d.slot row.key).killed (putRecord nextSeq row) row req.data 4 :=
    (placed.slot_putRow row).trans (congrArg (fun p : Slot => { p with row := some row }) third)
  have whole : (placed.putRow row).wal.torn = false := by
    simp [placed, begun, Disk.putRow, Disk.placePayload, Disk.stagePayload, Disk.appendBegin,
      Wal.appendRecord, log.whole]
  rcases done with _ | _ | _ | _ | _ | more
  · rfl
  · exact first
  · exact first
  · exact third
  · exact fourth
  · have all : PutStage.all.take (more + 5) = PutStage.all :=
      List.take_of_length_le (by simp [PutStage.all])
    rw [all]
    refine ((placed.putRow row).slot_appendCommit whole nextSeq).trans ?_
    have last : (d.slot row.key).killed (putRecord nextSeq row) row req.data (more + 5) =
        ⟨some row, some req.data, (d.slot row.key).opened⟩ := by simp [Slot.killed]
    rw [fourth, last]
    exact congrArg (Slot.mk (some row) (some req.data)) (log.closes rfl row.key)

end Slots

/-! ## What is left of an idle key -/

section Recovered
variable {d d' : Disk} {key data : Bytes} {p : Slot}

/-- What recovery makes of the deletes that found nothing. -/
def Slot.cleared (p : Slot) (row : Option ObjectMetadata) : Option ObjectMetadata :=
  if p.opened = [] then row else bury row

/-- The row of a key after its write was killed and the store opened. -/
def Slot.reopened (p : Slot) (rec : WalRecord) (row : ObjectMetadata) (data : Bytes) (now : Int) :
    ℕ → Option ObjectMetadata
  | 0 => p.cleared p.row
  | 1 | 2 => recoverRow p.file now (p.cleared p.row) rec
  | 3 => recoverRow (some data) now (p.cleared p.row) rec
  | _ + 4 => p.cleared (some row)

theorem recover_idle (idle : Leftovers [] (d.slot key).opened) (now : Int) :
    ((recover d now).slot key).row = (d.slot key).cleared (d.slot key).row := by
  obtain ⟨left, opened, deletes⟩ := idle
  rw [recover_slot]
  rw [List.append_nil] at opened
  exact foldl_deletes (opened ▸ deletes)

theorem Slot.killed_reopened (idle : Leftovers [] p.opened) {rec : WalRecord} {row : ObjectMetadata}
    (put : rec.op = .put) (version : rec.version = row.version) (now : Int) (done : ℕ) :
    (p.killed rec row data done).opened.foldl (recoverRow (p.killed rec row data done).file now)
      (p.killed rec row data done).row = p.reopened rec row data now done := by
  obtain ⟨left, opened, deletes⟩ := idle
  rw [List.append_nil] at opened
  subst opened
  have one (file : Option Bytes) (start : Option ObjectMetadata) :
      (p.opened ++ [rec]).foldl (recoverRow file now) start =
        recoverRow file now (p.cleared start) rec := by
    rw [List.foldl_append, foldl_deletes deletes]
    rfl
  match done with
  | 0 => exact foldl_deletes deletes
  | 1 => exact one p.file p.row
  | 2 => exact one p.file p.row
  | 3 => exact one (some data) p.row
  | 4 =>
      -- the row is there: the record has nothing to add
      refine (one (some data) (some row)).trans (recoverRow_skips put ?_)
      have newest : ¬Completes (some data) (some row) rec := by simp [Completes, version]
      unfold Slot.cleared
      split
      · exact newest
      · rwa [completes_bury]
  | more + 5 =>
      have last : p.killed rec row data (more + 5) = ⟨some row, some data, p.opened⟩ := by
        simp [Slot.killed]
      rw [last]
      exact foldl_deletes deletes

/-- A killed write and the store opened again. -/
theorem recover_killed {nextSeq : ℕ} {jobs : List Job} (shape : LogShape d nextSeq jobs) {m : Mutation}
    {req : WriteRequest} (requested : m.request = some req) (free : req.key ∉ jobs.map Job.key)
    {now : Int} {row : ObjectMetadata} (plan : planPut d req now = .write row) (done : ℕ) (torn : Bool)
    (now' : Int) :
    (recover (LocalObjectStore.killed ⟨d, nextSeq⟩ m now done torn) now').slot req.key =
      ⟨(d.slot req.key).reopened (putRecord nextSeq row) row req.data now' done,
        if done < 3 then (d.slot req.key).file else some req.data, []⟩ := by
  obtain ⟨_, _, rfl⟩ := planPut_newRow plan
  have slot := LocalObjectStore.killed_slot shape.log requested plan done torn
  rw [recover_slot]
  exact (congrArg (fun p : Slot => (⟨p.opened.foldl (recoverRow p.file now') p.row, p.file, []⟩ : Slot))
    slot).trans (congrArg (Slot.mk · _ _) (Slot.killed_reopened (shape.idle _ free) rfl rfl now' done))

end Recovered

/-! ## Atomicity -/

/-- `Get` answers as before, or with the bytes of the write, and never finds a
mismatch. -/
def KeptOrWritten (before after : Disk) (key data : Bytes) : Prop :=
  (after.get key = before.get key ∨ after.get key = .ok data) ∧
    ∀ message, after.get key ≠ .error (.checksumMismatch message)

/-- The version is above the one stored. -/
def Slot.Older (p : Slot) (version : ℕ) : Prop := ∀ row ∈ p.row, row.version < version

/-- Where a write of the given version may be killed. -/
def Slot.Atomic (p : Slot) (data : Bytes) (version : ℕ) : ℕ → Prop
  | 0 => p.opened = [] ∨ p.Dead
  | 1 | 2 =>
      (p.opened = [] ∨ p.Dead ∨ p.Older version ∧ ∃ file ∈ p.file, sha256Hex file = sha256Hex data) ∧
        (p.Dead → p.Older version → ∀ file ∈ p.file, sha256Hex file = sha256Hex data → file = data)
  | 3 =>
      p.Dead ∨ p.Older version ∨
        p.opened = [] ∧ ∀ row ∈ p.row, row.checksum = sha256Hex data
  | _ + 4 => p.opened = [] ∨ ∃ row ∈ p.row, row.deleted = true

section Atomicity
variable {d d' : Disk} {key data : Bytes}

theorem keptOrWritten_same (intact : (d.slot key).Intact) (same : d'.get key = d.get key) :
    KeptOrWritten d d' key data :=
  ⟨.inl same, fun message => same ▸ Disk.get_intact intact message⟩

theorem keptOrWritten_data (new : d'.get key = .ok data) : KeptOrWritten d d' key data :=
  ⟨.inr new, fun message => by simp [new]⟩

theorem Disk.get_dead (found : ∃ row ∈ (d.slot key).row, row.deleted = true) :
    d.get key = .error (.notFound (text "tombstoned: " ++ key)) := by
  obtain ⟨row, here, gone⟩ := found
  exact Disk.get_of_view (Disk.view_dead here gone)

theorem Disk.get_absent (absent : (d.slot key).row = none) :
    d.get key = .error (.notFound (text "no such key: " ++ key)) :=
  Disk.get_of_view (Disk.view_absent absent)

theorem Disk.get_of_dead (dead : (d.slot key).Dead) : ∃ message, d.get key = .error (.notFound message) := by
  cases found : (d.slot key).row with
  | none => exact ⟨_, Disk.get_absent found⟩
  | some row => exact ⟨_, Disk.get_dead ⟨row, found, dead row found⟩⟩

theorem Disk.get_congr_dead (dead : (d.slot key).Dead) (same : (d'.slot key).row = (d.slot key).row) :
    d'.get key = d.get key := by
  cases found : (d.slot key).row with
  | none => rw [Disk.get_absent found, Disk.get_absent (same.trans found)]
  | some row =>
      have gone := dead row found
      rw [Disk.get_dead ⟨row, found, gone⟩, Disk.get_dead ⟨row, same.trans found, gone⟩]

/-- The file is not the one of the row. -/
theorem Disk.get_mismatch {row : ObjectMetadata} {stored : Bytes} (found : (d.slot key).row = some row)
    (live : row.deleted = false) (file : (d.slot key).file = some data)
    (sum : sha256Hex stored = row.checksum) (differs : sha256Hex data ≠ row.checksum) :
    d.get key = .error (.checksumMismatch (text "checksum mismatch for key: " ++ key)) := by
  have payload : d.files[keyDigest key]? = some data := file
  obtain ⟨present, column⟩ := Disk.metadata_live found live sum
  simp [Disk.get, present, Disk.readWholeFile, payload, readRow, column, differs]

theorem tombstoned_ne_absent : text "tombstoned: " ++ key ≠ text "no such key: " ++ key := by
  intro same
  have heads := congrArg List.head? same
  have first : text "tombstoned: " = 116 :: (text "tombstoned: ").tail := by decide +kernel
  have second : text "no such key: " = 110 :: (text "no such key: ").tail := by decide +kernel
  rw [first, second] at heads
  simp at heads

/-- A tombstone is what was there before exactly when it was. -/
theorem keptOrWritten_tombstone (intact : (d.slot key).Intact)
    (gone : ∃ row ∈ (d'.slot key).row, row.deleted = true) :
    KeptOrWritten d d' key data ↔ ∃ row ∈ (d.slot key).row, row.deleted = true := by
  constructor
  · rintro ⟨same | new, _⟩
    · rw [Disk.get_dead gone] at same
      cases found : (d.slot key).row with
      | none =>
          rw [Disk.get_absent found] at same
          simp only [Except.error.injEq, Status.notFound, Status.mk.injEq, true_and] at same
          exact absurd same tombstoned_ne_absent
      | some row =>
          cases live : row.deleted with
          | true => exact ⟨row, rfl, live⟩
          | false =>
              obtain ⟨file, here, sum⟩ := intact row found live
              rw [Disk.get_of_view (Disk.view_live found live here sum)] at same
              cases same
    · rw [Disk.get_dead gone] at new
      cases new
  · intro before
    refine keptOrWritten_same intact ?_
    rw [Disk.get_dead gone, Disk.get_dead before]

/-- Burying a row changes nothing exactly when the key is dead. -/
theorem keptOrWritten_buried (intact : (d.slot key).Intact)
    (buried : (d'.slot key).row = bury (d.slot key).row) :
    KeptOrWritten d d' key data ↔ (d.slot key).Dead := by
  cases found : (d.slot key).row with
  | none =>
      rw [found] at buried
      have same : d'.get key = d.get key := by rw [Disk.get_absent buried, Disk.get_absent found]
      simp [keptOrWritten_same intact same, Slot.Dead, found]
  | some row =>
      rw [found] at buried
      rw [keptOrWritten_tombstone intact ⟨_, buried, rfl⟩]
      simp [Slot.Dead, found]

/-- Recovery has nothing but the leftover deletes to act on. -/
theorem keptOrWritten_cleared (intact : (d.slot key).Intact)
    (row : (d'.slot key).row = (d.slot key).cleared (d.slot key).row)
    (file : (d'.slot key).file = (d.slot key).file) :
    KeptOrWritten d d' key data ↔ (d.slot key).opened = [] ∨ (d.slot key).Dead := by
  by_cases none : (d.slot key).opened = []
  · rw [Slot.cleared, if_pos none] at row
    have same : d'.get key = d.get key := congrArg View.bytes (Disk.view_congr row file)
    simp [none, keptOrWritten_same intact same]
  · rw [Slot.cleared, if_neg none] at row
    simp [none, keptOrWritten_buried intact row]

variable {rec : WalRecord} {file : Option Bytes} {now : Int}

theorem completes_iff (sum : rec.checksum = sha256Hex data) (p : Slot) :
    Completes file p.row rec ↔ p.Older rec.version ∧ ∃ f ∈ file, sha256Hex f = sha256Hex data := by
  unfold Completes Slot.Older
  rw [sum]
  cases p.row <;> cases file <;> simp

theorem completes_cleared {p : Slot} {row : Option ObjectMetadata} :
    Completes file (p.cleared row) rec ↔ Completes file row rec := by
  unfold Slot.cleared
  split
  · rfl
  · exact completes_bury

/-- Killed before the rename. -/
theorem atomic_staged (rec : WalRecord) (intact : (d.slot key).Intact) (put : rec.op = .put)
    {version : ℕ} (stamp : rec.version = version) (sum : rec.checksum = sha256Hex data)
    (row : (d'.slot key).row = recoverRow (d.slot key).file now ((d.slot key).cleared (d.slot key).row) rec)
    (same : (d'.slot key).file = (d.slot key).file) :
    KeptOrWritten d d' key data ↔ (d.slot key).Atomic data version 1 := by
  subst stamp
  unfold Slot.Atomic
  by_cases completes : Completes (d.slot key).file (d.slot key).row rec
  · rw [recoverRow_completes put (completes_cleared.mpr completes)] at row
    obtain ⟨older, file, here, digest⟩ := (completes_iff sum _).mp completes
    have shown : d'.get key = .ok file :=
      Disk.get_of_view (Disk.view_live row rfl (same.trans here) (digest.trans sum.symm))
    by_cases dead : (d.slot key).Dead
    · -- the payload that was on disk becomes visible
      have kept : KeptOrWritten d d' key data ↔ file = data := by
        constructor
        · rintro ⟨same | new, _⟩
          · obtain ⟨message, hidden⟩ := Disk.get_of_dead dead
            rw [shown, hidden] at same
            cases same
          · exact Except.ok.inj (shown.symm.trans new)
        · rintro rfl
          exact keptOrWritten_data shown
      rw [kept]
      constructor
      · rintro rfl
        exact ⟨.inr (.inl dead), fun _ _ other inside _ => Option.some.inj (inside.symm.trans here)⟩
      · rintro ⟨_, unique⟩
        exact unique dead older file here digest
    · obtain ⟨old, found, live⟩ := Slot.live_of_not_dead dead
      obtain ⟨stored, inside, intactSum⟩ := intact old found live
      obtain rfl : stored = file := Option.some.inj (inside.symm.trans here)
      have before : d.get key = .ok stored := Disk.get_of_view (Disk.view_live found live inside intactSum)
      refine iff_of_true (keptOrWritten_same intact (shown.trans before.symm)) ?_
      exact ⟨.inr (.inr ⟨older, stored, here, digest⟩), fun gone => absurd gone dead⟩
  · rw [recoverRow_skips put (completes_cleared.not.mpr completes)] at row
    rw [keptOrWritten_cleared intact row same]
    rw [completes_iff sum] at completes
    constructor
    · intro either
      exact ⟨either.imp_right .inl, fun _ older f here digest => absurd ⟨older, f, here, digest⟩ completes⟩
    · rintro ⟨none | dead | both, _⟩
      · exact .inl none
      · exact .inr dead
      · exact absurd both completes

/-- Killed after the rename. -/
theorem atomic_placed (rec : WalRecord) (intact : (d.slot key).Intact) (put : rec.op = .put)
    {version : ℕ} (stamp : rec.version = version) (sum : rec.checksum = sha256Hex data)
    (row : (d'.slot key).row = recoverRow (some data) now ((d.slot key).cleared (d.slot key).row) rec)
    (placed : (d'.slot key).file = some data) :
    KeptOrWritten d d' key data ↔ (d.slot key).Atomic data version 3 := by
  subst stamp
  unfold Slot.Atomic
  by_cases older : (d.slot key).Older rec.version
  · have completes : Completes (some data) (d.slot key).row rec :=
      (completes_iff sum _).mpr ⟨older, data, rfl, rfl⟩
    rw [recoverRow_completes put (completes_cleared.mpr completes)] at row
    have shown : d'.get key = .ok data := Disk.get_of_view (Disk.view_live row rfl placed sum.symm)
    exact iff_of_true (keptOrWritten_data shown) (.inr (.inl older))
  · have skips : ¬Completes (some data) (d.slot key).row rec := fun completes =>
      older ((completes_iff sum _).mp completes).1
    rw [recoverRow_skips put (completes_cleared.not.mpr skips)] at row
    simp only [older, false_or]
    by_cases none : (d.slot key).opened = []
    · rw [Slot.cleared, if_pos none] at row
      by_cases dead : (d.slot key).Dead
      · exact iff_of_true (keptOrWritten_same intact (Disk.get_congr_dead dead row)) (.inl dead)
      · obtain ⟨old, found, live⟩ := Slot.live_of_not_dead dead
        obtain ⟨stored, _, intactSum⟩ := intact old found live
        rw [found] at row
        have known : (d.slot key).Dead ∨ (d.slot key).opened = [] ∧
            (∀ row ∈ (d.slot key).row, row.checksum = sha256Hex data) ↔ sha256Hex data = old.checksum := by
          simp [dead, none, found, eq_comm (a := sha256Hex data)]
        rw [known]
        constructor
        · rintro ⟨_, unbroken⟩
          by_contra differs
          exact unbroken _ (Disk.get_mismatch row live placed intactSum differs)
        · intro same
          exact keptOrWritten_data (Disk.get_of_view (Disk.view_live row live placed same))
    · rw [Slot.cleared, if_neg none] at row
      simp [none, keptOrWritten_buried intact row]

/-- Killed after the row was written. -/
theorem atomic_written (intact : (d.slot key).Intact) {new : ObjectMetadata} (live : new.deleted = false)
    (sum : sha256Hex data = new.checksum) (row : (d'.slot key).row = (d.slot key).cleared (some new))
    (placed : (d'.slot key).file = some data) (version more : ℕ) :
    KeptOrWritten d d' key data ↔ (d.slot key).Atomic data version (more + 4) := by
  unfold Slot.Atomic
  by_cases none : (d.slot key).opened = []
  · rw [Slot.cleared, if_pos none] at row
    exact iff_of_true (keptOrWritten_data (Disk.get_of_view (Disk.view_live row live placed sum))) (.inl none)
  · rw [Slot.cleared, if_neg none] at row
    simp [none, keptOrWritten_tombstone intact ⟨_, row, rfl⟩]

end Atomicity

/-- A killed `PutWithVersion` of an idle, intact key leaves the old answer or the
new bytes exactly where the slot and the number of steps allow it. -/
theorem killed_putWithVersion_iff (shard : Bytes → ℕ) {s : Machine}
    (reachable : (Machine.system shard fun _ _ => True).Reachable s) {nextSeq : ℕ} {jobs : List Job}
    (mode : s.mode = .running nextSeq jobs) {key : Bytes} (free : key ∉ jobs.map Job.key)
    (intact : (s.disk.slot key).Intact) {version : ℕ} (positive : 0 < version) (data : Bytes)
    (now now' : Int) (done : ℕ) (torn : Bool) :
    KeptOrWritten s.disk
        (LocalObjectStore.openStore
          (LocalObjectStore.killed ⟨s.disk, nextSeq⟩ (.putWithVersion key data version) now done torn)
          now').disk key data ↔
      key = [] ∨ (s.disk.slot key).Atomic data version done := by
  have shape := (reachable_shaped reachable).running mode
  by_cases empty : key = []
  · subst empty
    refine iff_of_true ?_ (.inl rfl)
    have absent := reachable_unnamed reachable
    have refused : LocalObjectStore.killed ⟨s.disk, nextSeq⟩ (.putWithVersion [] data version) now done
        torn = s.disk := rfl
    refine (keptOrWritten_cleared intact ?_ ?_).mpr (.inr (by simp [Slot.Dead, absent]))
    · rw [refused]
      exact recover_idle (shape.idle [] free) now'
    · rw [refused]
      exact (congrArg Slot.file (recover_slot s.disk now' []) :)
  · have requested : (Mutation.putWithVersion key data version).request =
        some (.putWithVersion key data version) := by
      simp [Mutation.request, empty, Nat.ne_of_gt positive]
    have unconditional : ¬(s.disk.slot key).Recognises (.putWithVersion key data version) :=
      fun known => known.1 rfl
    let new := newRow (.putWithVersion key data version) (s.disk.slot key).version now
    have plan : planPut s.disk (.putWithVersion key data version) now = .write new :=
      (planPut_new unconditional).trans rfl
    have stamp : new.version = version := if_pos (Nat.ne_of_gt positive)
    have slot := recover_killed shape requested free plan done torn now'
    have row := congrArg Slot.row slot
    have file := congrArg Slot.file slot
    simp only [empty, false_or]
    rcases done with _ | _ | _ | _ | more
    · exact keptOrWritten_cleared intact row file
    · exact atomic_staged (putRecord nextSeq new) intact rfl stamp rfl row file
    · exact atomic_staged (putRecord nextSeq new) intact rfl stamp rfl row file
    · exact atomic_placed (putRecord nextSeq new) intact rfl stamp rfl row file
    · exact atomic_written intact rfl rfl row file version more

section Sample

/-- Key `k` with payload `1` at version 1. -/
def storedOnce : Machine :=
  Machine.run (fun _ => 0) (Machine.opening .empty 0 ++ Machine.writing (.put sampleKey [1]) 0)

theorem storedOnce_reachable : (Machine.system (fun _ => 0) fun _ _ => True).Reachable storedOnce :=
  Machine.run_reachable _ _

theorem storedOnce_run : storedOnce.mode = .running 2 [] ∧ (storedOnce.disk.slot sampleKey).row = some sampleRow ∧
    (storedOnce.disk.slot sampleKey).file = some [1] ∧ (storedOnce.disk.slot sampleKey).opened = [] := by
  decide +kernel

theorem storedOnce_mode : storedOnce.mode = .running 2 [] := storedOnce_run.1

theorem storedOnce_slot : storedOnce.disk.slot sampleKey = ⟨some sampleRow, some [1], []⟩ := by
  obtain ⟨-, row, file, opened⟩ := storedOnce_run
  calc storedOnce.disk.slot sampleKey
      = ⟨(storedOnce.disk.slot sampleKey).row, (storedOnce.disk.slot sampleKey).file,
          (storedOnce.disk.slot sampleKey).opened⟩ := rfl
    _ = _ := by rw [row, file, opened]

theorem storedOnce_intact : (storedOnce.disk.slot sampleKey).Intact := by
  rw [storedOnce_slot]
  rintro row ⟨⟩ _
  exact ⟨[1], rfl, rfl⟩

end Sample

/-- A newer version may be killed after the rename. -/
theorem killed_putWithVersion_iff_newer :
    KeptOrWritten storedOnce.disk
      (LocalObjectStore.openStore
        (LocalObjectStore.killed ⟨storedOnce.disk, 2⟩ (.putWithVersion sampleKey [2] 2) 0 3 false)
        0).disk sampleKey [2] := by
  refine (killed_putWithVersion_iff (fun _ => 0) storedOnce_reachable storedOnce_mode List.not_mem_nil
    storedOnce_intact (by decide) [2] 0 0 3 false).mpr (.inr (.inr (.inl ?_)))
  rw [storedOnce_slot]
  rintro row ⟨⟩
  decide

/-- The version that is stored already, written again with other bytes and killed
after the rename, breaks the object. -/
theorem killed_retry_mismatch :
    (Machine.system (fun _ => 0) fun _ _ => True).Reachable storedOnce ∧
      storedOnce.mode = .running 2 [] ∧ (storedOnce.disk.slot sampleKey).Intact ∧
      storedOnce.disk.get sampleKey = .ok [1] ∧
      (LocalObjectStore.openStore
        (LocalObjectStore.killed ⟨storedOnce.disk, 2⟩ (.putWithVersion sampleKey [2] 1) 0 3 false)
        0).get sampleKey = .error (.checksumMismatch (text "checksum mismatch for key: k")) := by
  refine ⟨storedOnce_reachable, storedOnce_mode, storedOnce_intact, ?_⟩
  decide +kernel

end Dos.Storage
