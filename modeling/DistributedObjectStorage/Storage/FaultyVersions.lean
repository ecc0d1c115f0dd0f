import DistributedObjectStorage.Storage.StoreDurability
import DistributedObjectStorage.Storage.StoreFaults
import DistributedObjectStorage.Storage.StoreVersions

/-!
# Versions under I/O errors

A write reads the current row before it picks a version and gives up when the
read fails. `Recover` goes on when its `Peek` fails, as if the key had no row: it
may then complete a write that newer versions have overtaken. Every other step
leaves a key at its version or raises it.
-/
namespace Dos.Storage
open Transition

/-- The key goes to a higher version, or stays at its version and gets no new
request id. -/
def Slot.Onward (p p' : Slot) : Prop :=
  p.version < p'.version ∨ p'.version = p.version ∧
    ∀ row' ∈ p'.row, row'.requestId ≠ [] → ∃ row ∈ p.row, row.requestId = row'.requestId

/-- An iteration of `Recover` that gets as far as the row: an open put record
with its payload in place, and a metadata write that lands. -/
def Rewrites (committed : List ℕ) (io : RecoverIo) (d : Disk) (rec : WalRecord) : Prop :=
  ¬(rec.isCommit = true ∨ rec.seq ∈ committed) ∧ rec.op = .put ∧ io.readFails = false ∧
    (∃ data ∈ (d.slot rec.key).file, sha256Hex data = rec.checksum) ∧
    (io.write = none ∨ io.write = some .whole)

instance (committed : List ℕ) (io : RecoverIo) (d : Disk) (rec : WalRecord) :
    Decidable (Rewrites committed io d rec) :=
  inferInstanceAs (Decidable (_ ∧ _ ∧ _ ∧ _ ∧ _))

/-- The record that `Recover` looks at next, with the committed sequences. -/
def FaultyMode.pending : FaultyMode → Option (List ℕ × WalRecord)
  | .recovering committed (rec :: _) => some (committed, rec)
  | _ => none

def FaultyAction.recoverIo : FaultyAction → Option RecoverIo
  | .recover _ io => some io
  | _ => none

/-- Every call but `PutWithVersion`. -/
def FaultyAction.ordinary : FaultyAction → Bool
  | .start (.putWithVersion _ _ _) _ _ => false
  | _ => true

/-- A write that returned after another one of its key has the higher version;
the newest success comes first. -/
def Increasing (returned : List Return) : Prop :=
  returned.Pairwise fun later earlier =>
    later.wrote = true → earlier.request.key = later.request.key → earlier.version < later.version

namespace FaultyStore

/-- The stored version of a key, tombstones included; 0 without a row. -/
def version (s : FaultyStore) (key : Bytes) : ℕ := (s.disk.slot key).version

/-- `Recover` cannot read the row of the key and completes an older write. -/
def Backward (s : FaultyStore) (act : FaultyAction) : Prop :=
  ∃ io ∈ act.recoverIo, ∃ entry ∈ s.mode.pending, io.peekFails = true ∧
    Rewrites entry.1 io s.disk entry.2 ∧ entry.2.version < s.version entry.2.key

instance (s : FaultyStore) (act : FaultyAction) : Decidable (s.Backward act) :=
  inferInstanceAs (Decidable (∃ io ∈ act.recoverIo, ∃ entry ∈ s.mode.pending, io.peekFails = true ∧
    Rewrites entry.1 io s.disk entry.2 ∧ entry.2.version < s.version entry.2.key))

/-- A call starts with the key at a version that has a successor. -/
def Headroom (s : FaultyStore) : FaultyAction → Prop
  | .start m _ _ => s.version m.key + 1 < 2 ^ 64
  | _ => True

instance (s : FaultyStore) : ∀ act, Decidable (s.Headroom act)
  | .start m _ _ => inferInstanceAs (Decidable (s.version m.key + 1 < 2 ^ 64))
  | .step .. | .crash _ | .reopen _ | .recover .. | .clean _ | .truncate _ => isTrue trivial

end FaultyStore

/-- The calls in flight: one for each key, each ahead of the table and of all
successes of its key. -/
structure Airborne (d : Disk) (returned : List Return) (flights : List Flight) : Prop where
  keys : (flights.map (·.job.key)).Nodup
  ahead : ∀ f ∈ flights, f.job.Ahead d
  named : ∀ f ∈ flights, ∀ req ∈ f.request, req.key = f.job.key
  newer : ∀ f ∈ flights, ∀ ret ∈ f.result, ∀ old ∈ returned, old.request.key = f.job.key →
    old.version < ret.version

structure FaultyStore.Forward (s : FaultyStore) : Prop where
  flights : ∀ nextSeq flights, s.mode = .running nextSeq flights → Airborne s.disk s.returned flights
  kept : ∀ ret ∈ s.returned, ret.version ≤ s.version ret.request.key
  increasing : Increasing s.returned

/-! ## One step of the disk -/

section Slots
variable {d d' : Disk} {job : Job} {key : Bytes} {p p' : Slot}

theorem Slot.Onward.of_grows (grows : p.Grows p') : p.Onward p' := by
  rcases grows with ⟨version, id⟩ | newer
  · refine .inr ⟨version, fun row' found _ => ?_⟩
    have here : p.row.map (·.requestId) = some row'.requestId := by
      rw [← id, Option.mem_def.mp found]
      rfl
    exact Option.map_eq_some_iff.mp here
  · exact .inl newer

theorem Slot.Onward.of_row (same : p'.row = p.row) : p.Onward p' := .of_grows (.of_row same)

theorem Slot.Onward.le (onward : p.Onward p') : p.version ≤ p'.version := by
  rcases onward with newer | ⟨same, _⟩
  · exact newer.le
  · exact same.ge

theorem onward_recoveredRow {rec : WalRecord} (now : Int) (reached : (d.slot rec.key).version ≤ rec.version) :
    (d.slot key).Onward ((d.putRow (recoveredRow rec now)).slot key) := by
  by_cases same : rec.key = key
  · subst same
    have stored : (d.putRow (recoveredRow rec now)).slot rec.key =
        { d.slot rec.key with row := some (recoveredRow rec now) } := d.slot_putRow (recoveredRow rec now)
    rw [stored]
    rcases reached.lt_or_eq with newer | level
    · exact .inl newer
    · refine .inr ⟨level.symm, fun row' found given => ?_⟩
      cases found
      exact absurd rfl given
  · exact .of_row (congrArg Slot.row (d.slot_putRow_ne same))

/-- A failed step leaves the table alone or does its work. -/
theorem Job.fault_row (fault : Fault) (job : Job) :
    (∀ key, ((job.fault d fault).slot key).row = (d.slot key).row) ∨
      ∀ key, ((job.fault d fault).slot key).row = ((job.effect d).slot key).row := by
  cases job with
  | put todo seq row data =>
      cases todo with
      | row =>
          cases fault with
          | whole => exact .inr fun _ => rfl
          | _ => exact .inl fun _ => rfl
      | _ => cases fault <;> exact .inl fun _ => rfl
  | delete todo seq name =>
      cases todo with
      | row =>
          cases fault with
          | whole => exact .inr fun _ => rfl
          | _ => exact .inl fun _ => rfl
      | _ => cases fault <;> exact .inl fun _ => rfl

/-- The table after a step, failed or not. -/
theorem Job.outcome_row (fault : Option Fault) (job : Job) :
    (∀ key, ((fault.elim (job.effect d) (job.fault d ·)).slot key).row = (d.slot key).row) ∨
      ∀ key, ((fault.elim (job.effect d) (job.fault d ·)).slot key).row = ((job.effect d).slot key).row := by
  cases fault with
  | none => exact .inr fun _ => rfl
  | some fault => exact job.fault_row fault

theorem Job.Ahead.onward (ahead : job.Ahead d) (fault : Option Fault) :
    (d.slot key).Onward ((fault.elim (job.effect d) (job.fault d ·)).slot key) := by
  rcases job.outcome_row (d := d) fault with same | same
  · exact .of_row (same key)
  · refine .of_grows ?_
    have grows : (d.slot key).Grows ((job.effect d).slot key) := ahead.grows
    unfold Slot.Grows at grows ⊢
    rw [Slot.version_congr (same key), same key]
    exact grows

theorem Job.outcome_row_ne (fault : Option Fault) (ne : job.key ≠ key) :
    ((fault.elim (job.effect d) (job.fault d ·)).slot key).row = (d.slot key).row := by
  rcases job.outcome_row (d := d) fault with same | same
  · exact same key
  · exact (same key).trans (Job.effect_row ne)

theorem Job.next_key {rest : Job} (goesOn : job.next d = some rest) : rest.key = job.key := by
  cases Job.next_follows goesOn with
  | put => rfl
  | delete => rfl

end Slots

/-! ## One iteration of `Recover` -/

section Recover
variable {committed : List ℕ} {now : Int} {io : RecoverIo} {d : Disk} {rec : WalRecord}

theorem RecoverIo.attempt_cases (io : RecoverIo) (before after : Disk) :
    (io.attempt before after).1 = before ∨
      (io.attempt before after).1 = after ∧ (io.write = none ∨ io.write = some .whole) := by
  unfold attempt
  split
  · next clean => exact .inr ⟨rfl, .inl clean⟩
  · next late => exact .inr ⟨rfl, .inr late⟩
  · exact .inl rfl

theorem peek_toOption (d : Disk) (key : Bytes) :
    (d.metadata.peek key).toOption = (d.slot key).row.map readRow := by
  simp only [SqliteMetadataStore.peek, Disk.slot]
  cases d.metadata.objects[key]? <;> rfl

theorem version_le_of_behind
    (behind : ¬(d.metadata.peek rec.key).toOption.any (rec.version ≤ ·.version) = true) :
    (d.slot rec.key).version ≤ rec.version := by
  rw [peek_toOption] at behind
  unfold Slot.version
  cases found : (d.slot rec.key).row with
  | none => exact Nat.zero_le _
  | some row =>
      rw [found] at behind
      have older : ¬rec.version ≤ row.version := by simpa [readRow] using behind
      exact (Nat.lt_of_not_le older).le

theorem readWholeFile_ok {data : Bytes} (file : d.readWholeFile (keyDigest rec.key) = .ok data) :
    data ∈ (d.slot rec.key).file := by
  unfold Disk.readWholeFile at file
  split at file
  · cases file
  · next found =>
      cases file
      exact found

/-- Nothing happens, a delete is completed, or a put is completed; if `Peek`
worked, then over an older row. -/
theorem recoverFaulty_cases (committed : List ℕ) (now : Int) (io : RecoverIo) (d : Disk) (rec : WalRecord) :
    (recoverFaulty committed now io d rec).1 = d ∨
      (recoverFaulty committed now io d rec).1 = (d.deleteRow rec.key).1 ∨
      (recoverFaulty committed now io d rec).1 = d.putRow (recoveredRow rec now) ∧
        Rewrites committed io d rec ∧
        (io.peekFails = false → (d.slot rec.key).version ≤ rec.version) := by
  unfold recoverFaulty
  split
  · exact .inl rfl
  · next isOpen =>
      dsimp only
      generalize peeked : (if io.peekFails = true then none else (d.metadata.peek rec.key).toOption) = peek
      cases kind : rec.op with
      | put =>
          dsimp only
          split
          · exact .inl rfl
          · next behind =>
              split
              · exact .inl rfl
              · next readable =>
                  split
                  · exact .inl rfl
                  · next data file =>
                      split
                      · next sum =>
                          rcases io.attempt_cases d (d.putRow (recoveredRow rec now)) with lost | ⟨lands, write⟩
                          · exact .inl lost
                          · refine .inr (.inr ⟨lands, ⟨isOpen, kind, by simpa using readable,
                              ⟨data, readWholeFile_ok file, sum⟩, write⟩, fun works => ?_⟩)
                            rw [← peeked, works] at behind
                            exact version_le_of_behind behind
                      · exact .inl rfl
      | delete =>
          dsimp only
          split
          · rcases io.attempt_cases d (d.deleteRow rec.key).1 with lost | ⟨lands, _⟩
            · exact .inl lost
            · exact .inr (.inl lands)
          · exact .inl rfl

/-- Without a row to compare with, the record decides. -/
theorem recoverFaulty_blind (blind : io.peekFails = true) (rewrites : Rewrites committed io d rec) :
    (recoverFaulty committed now io d rec).1 = d.putRow (recoveredRow rec now) := by
  obtain ⟨isOpen, kind, readable, ⟨data, file, sum⟩, write⟩ := rewrites
  have payload : d.files[keyDigest rec.key]? = some data := file
  simp only [recoverFaulty, if_neg isOpen, blind, kind, readable, Disk.readWholeFile, payload, sum,
    RecoverIo.attempt, Option.any_none, Bool.false_eq_true, if_true, if_false]
  rcases write with clean | late
  · rw [clean]
  · rw [late]

theorem onward_recoverFaulty (now : Int) (key : Bytes)
    (allowed : io.peekFails = true → Rewrites committed io d rec →
      (d.slot rec.key).version ≤ rec.version) :
    (d.slot key).Onward ((recoverFaulty committed now io d rec).1.slot key) := by
  rcases recoverFaulty_cases committed now io d rec with same | same | ⟨same, rewrites, sees⟩
  · rw [same]
    exact .of_row rfl
  · rw [same]
    exact .of_grows (grows_deleteRow rec.key)
  · rw [same]
    apply onward_recoveredRow
    cases peek : io.peekFails with
    | true => exact allowed peek rewrites
    | false => exact sees peek

end Recover

/-! ## What a call reads and returns -/

section Plan
variable {d : Disk} {req : WriteRequest} {now : Int} {row : ObjectMetadata}

/-- A write takes a version above the stored one. -/
theorem planPut_newer (plain : req.explicitVersion = 0) (room : (d.slot req.key).version + 1 < 2 ^ 64)
    (plan : planPut d req now = .write row) : row.key = req.key ∧ (d.slot req.key).version < row.version := by
  obtain ⟨_, current, rfl⟩ := planPut_newRow plan
  refine ⟨rfl, ?_⟩
  simp only [newRow, plain, ne_eq, not_true_eq_false, if_false]
  split
  · next conditional =>
      rw [← current conditional]
      exact lt_increment room
  · exact lt_increment room

/-- A write is answered Ok without a disk step when the row carries its id. -/
theorem planPut_answered (plan : planPut d req now = .answer (.ok row)) :
    req.requestId ≠ [] ∧ ∃ stored, (d.slot req.key).row = some stored ∧
      cString stored.requestId = req.requestId ∧ row = readRow stored := by
  by_cases known : (d.slot req.key).Recognises req
  · obtain ⟨retry, stored, found, same⟩ := known
    rw [planPut_recognised retry found same] at plan
    cases plan
    exact ⟨retry, stored, found, same, rfl⟩
  · rw [planPut_new known] at plan
    unfold planWrite at plan
    split at plan <;> cases plan

theorem ordinary_request {m : Mutation} {peekFails : Bool}
    (ordinary : (FaultyAction.start m now peekFails).ordinary = true) (requested : m.request = some req) :
    req.explicitVersion = 0 := by
  cases m with
  | putWithVersion key data version => cases ordinary
  | delete key => cases requested
  | _ =>
      simp only [Mutation.request, Option.ite_none_left_eq_some, Option.some.injEq] at requested
      rw [← requested.2]
      rfl

end Plan

/-! ## Calls in flight -/

section Flights
variable {d : Disk} {returned : List Return} {flights : List Flight}

theorem Airborne.nil : Airborne d returned [] where
  keys := List.nodup_nil
  ahead := by rintro _ ⟨⟩
  named := by rintro _ ⟨⟩
  newer := by rintro _ ⟨⟩

theorem Airborne.perm {flights' : List Flight} (same : flights.Perm flights')
    (airborne : Airborne d returned flights) : Airborne d returned flights' where
  keys := (same.map _).nodup_iff.mp airborne.keys
  ahead := fun f member => airborne.ahead f (same.mem_iff.mpr member)
  named := fun f member => airborne.named f (same.mem_iff.mpr member)
  newer := fun f member => airborne.newer f (same.mem_iff.mpr member)

theorem Airborne.cons (airborne : Airborne d returned flights) {f : Flight}
    (free : f.job.key ∉ flights.map (·.job.key)) (ahead : f.job.Ahead d)
    (named : ∀ req ∈ f.request, req.key = f.job.key)
    (newer : ∀ ret ∈ f.result, ∀ old ∈ returned, old.request.key = f.job.key → old.version < ret.version) :
    Airborne d returned (f :: flights) where
  keys := List.nodup_cons.mpr ⟨free, airborne.keys⟩
  ahead := List.forall_mem_cons.mpr ⟨ahead, airborne.ahead⟩
  named := List.forall_mem_cons.mpr ⟨named, airborne.named⟩
  newer := List.forall_mem_cons.mpr ⟨newer, airborne.newer⟩

/-- A success of a key with no call in flight. -/
theorem Airborne.answer (airborne : Airborne d returned flights) {ret : Return}
    (free : ret.request.key ∉ flights.map (·.job.key)) : Airborne d (ret :: returned) flights where
  keys := airborne.keys
  ahead := airborne.ahead
  named := airborne.named
  newer := by
    intro f member new result old earlier same
    rcases List.mem_cons.mp earlier with rfl | before
    · exact absurd (List.mem_map.mpr ⟨f, member, same.symm⟩) free
    · exact airborne.newer f member new result old before same

/-- The other calls when one makes a step. -/
theorem Airborne.others (airborne : Airborne d returned flights) {k : ℕ} {f : Flight}
    (found : flights[k]? = some f) (d' : Disk)
    (frame : ∀ key, f.job.key ≠ key → (d'.slot key).row = (d.slot key).row) :
    Airborne d' returned (flights.eraseIdx k) ∧ f.job.key ∉ (flights.eraseIdx k).map (·.job.key) := by
  have apart {g : Flight} (member : g ∈ flights.eraseIdx k) : f.job.key ≠ g.job.key :=
    key_ne_of_mem_eraseIdx (fun f => f.job.key) airborne.keys found member
  refine ⟨⟨?_, ?_, ?_, ?_⟩, ?_⟩
  · exact airborne.keys.sublist ((List.eraseIdx_sublist _ _).map _)
  · intro g member
    exact (airborne.ahead g (List.mem_of_mem_eraseIdx member)).of_row (frame _ (apart member))
  · exact fun g member => airborne.named g (List.mem_of_mem_eraseIdx member)
  · exact fun g member => airborne.newer g (List.mem_of_mem_eraseIdx member)
  · intro member
    obtain ⟨g, inside, same⟩ := List.mem_map.mp member
    exact apart inside same.symm

theorem Flight.result_next {f : Flight} {rest : Job} (goesOn : f.job.next d = some rest) :
    Flight.result ⟨f.request, rest⟩ = f.result := by
  obtain ⟨request, job⟩ := f
  cases Job.next_follows goesOn with
  | put => cases request <;> rfl
  | delete => cases request <;> rfl

theorem Flight.result_request {f : Flight} {ret : Return} (result : ret ∈ f.result) :
    ret.request ∈ f.request ∧ ret.wrote = true := by
  unfold Flight.result at result
  split at result
  · next requested _ =>
      cases result
      exact ⟨requested, rfl⟩
  · cases result

/-- A write returns the version that it has stored. -/
theorem Flight.result_stored {f : Flight} {ret : Return} (ahead : f.job.Ahead d)
    (succeeds : f.job.succeeds = true) (result : ret ∈ f.result) :
    ret.version = (d.slot f.job.key).version := by
  obtain ⟨request, job⟩ := f
  cases job with
  | delete todo seq key => cases request <;> cases result
  | put todo seq row data =>
      cases todo with
      | commit =>
          cases request with
          | none => cases result
          | some req =>
              cases result
              have stored : (d.slot row.key).row = some row := ahead
              change row.version = (d.slot row.key).version
              rw [Slot.version, stored]
              rfl
      | _ => cases succeeds

theorem Job.next_of_succeeds {job : Job} (succeeds : job.succeeds = true) : job.next d = none := by
  cases job with
  | put todo seq row data => cases todo <;> first | rfl | cases succeeds
  | delete todo seq key => cases todo <;> first | rfl | cases succeeds

/-- The step of a call. -/
theorem Airborne.advance {s : FaultyStore} (airborne : Airborne s.disk s.returned flights) {k : ℕ} {f : Flight}
    (found : flights[k]? = some f) (nextSeq : ℕ) (fault : Option Fault) :
    Airborne (s.advance nextSeq flights k f fault).disk (s.advance nextSeq flights k f fault).returned
      ((if fault.isSome then none else f.job.next s.disk).toList.map (⟨f.request, ·⟩) ++
        flights.eraseIdx k) := by
  have member : f ∈ flights := List.mem_of_getElem? found
  obtain ⟨others, free⟩ := airborne.others found (s.advance nextSeq flights k f fault).disk
    fun key ne => Job.outcome_row_ne fault ne
  cases succeeds : f.job.succeeds with
  | true =>
      simp only [Job.next_of_succeeds succeeds, ite_self, Option.toList_none, List.map_nil, List.nil_append,
        FaultyStore.advance, succeeds, if_true]
      cases result : f.result with
      | none => exact others
      | some ret =>
          refine others.answer ?_
          rw [airborne.named f member _ (Flight.result_request result).1]
          exact free
  | false =>
      simp only [FaultyStore.advance, succeeds, Bool.false_eq_true, if_false]
      cases fault with
      | some fault => exact others
      | none =>
          cases goesOn : f.job.next s.disk with
          | none => exact others
          | some rest =>
              have same := Job.next_key goesOn
              refine Airborne.cons (f := ⟨f.request, rest⟩) others ?_ ?_ ?_ ?_
              · exact same ▸ free
              · exact (airborne.ahead f member).next goesOn
              · exact fun req asked => (airborne.named f member req asked).trans same.symm
              · rw [Flight.result_next goesOn]
                intro ret result old earlier here
                exact airborne.newer f member ret result old earlier (here.trans same)

end Flights

/-! ## Steps and runs -/

namespace FaultyStore
section Steps
variable {s s' : FaultyStore} {act : FaultyAction}

/-- No call returns in the step, and none is in flight after it. -/
structure Idle (s s' : FaultyStore) : Prop where
  requests : s'.requests = s.requests
  returned : s'.returned = s.returned
  landed : ∀ nextSeq flights, s'.mode = .running nextSeq flights → flights = []

theorem Idle.crash (s : FaultyStore) (torn : Bool) : Idle s (s.crash torn) := by
  unfold FaultyStore.crash
  split <;> exact ⟨rfl, rfl, by rintro _ _ ⟨⟩⟩

theorem Idle.recovered (s : FaultyStore) (committed : List ℕ) (rec : WalRecord) (rest : List WalRecord)
    (now : Int) (io : RecoverIo) : Idle s (s.recovered committed rec rest now io) := by
  refine ⟨rfl, rfl, fun _ _ mode => ?_⟩
  simp only [FaultyStore.recovered] at mode
  split at mode <;> cases mode

theorem Idle.truncated (s : FaultyStore) (fault : Option Fault) : Idle s (s.truncated fault) := by
  cases fault with
  | none =>
      refine ⟨rfl, rfl, ?_⟩
      rintro _ _ ⟨⟩
      rfl
  | some fault => cases fault <;> exact ⟨rfl, rfl, by rintro _ _ ⟨⟩⟩

theorem crash_row (s : FaultyStore) (torn : Bool) (key : Bytes) :
    ((s.crash torn).disk.slot key).row = (s.disk.slot key).row := by
  unfold FaultyStore.crash
  split
  · simp only
    split <;> rfl
  · rfl

theorem clean_row (d : Disk) (removes : Bool) (key : Bytes) :
    ((if removes = true then { d with tmp := [] } else d).slot key).row = (d.slot key).row := by
  split <;> rfl

theorem truncated_row (s : FaultyStore) (fault : Option Fault) (key : Bytes) :
    ((s.truncated fault).disk.slot key).row = (s.disk.slot key).row := by
  cases fault with
  | none => rfl
  | some fault => cases fault <;> rfl

/-- No other step takes a key back. -/
theorem Forward.onward (forward : s.Forward) (move : FaultyMove s act s') (allowed : ¬s.Backward act)
    (key : Bytes) : (s.disk.slot key).Onward (s'.disk.slot key) := by
  cases move with
  | advance fault state found =>
      exact ((forward.flights _ _ state).ahead _ (List.mem_of_getElem? found)).onward fault
  | crash torn => exact .of_row (s.crash_row torn key)
  | @recover committed rec rest now io state =>
      refine onward_recoverFaulty now key fun blind rewrites => Nat.le_of_not_lt fun older => allowed ?_
      exact ⟨io, rfl, (committed, rec), by rw [state]; rfl, blind, rewrites, older⟩
  | clean removes state => exact .of_row (clean_row s.disk removes key)
  | truncate fault state => exact .of_row (s.truncated_row fault key)
  | _ => exact .of_row rfl

/-- The one step that takes a key back. -/
theorem Backward.lower (backward : s.Backward act) (shard : Bytes → ℕ) :
    ∃ key, (s.exec shard act).version key < s.version key := by
  obtain ⟨io, faults, ⟨committed, rec⟩, pending, blind, rewrites, older⟩ := backward
  cases act with
  | recover now io' =>
      cases faults
      obtain ⟨rest, state⟩ : ∃ rest, s.mode = .recovering committed (rec :: rest) := by
        unfold FaultyMode.pending at pending
        split at pending
        · next state =>
            cases pending
            exact ⟨_, state⟩
        · cases pending
      refine ⟨rec.key, ?_⟩
      have stored : ((s.exec shard (.recover now io)).disk.slot rec.key).row = some (recoveredRow rec now) := by
        simp only [exec, state, recovered, recoverFaulty_blind blind rewrites]
        exact congrArg Slot.row (s.disk.slot_putRow (recoveredRow rec now))
      have version : (s.exec shard (.recover now io)).version rec.key = rec.version := by
        rw [FaultyStore.version, Slot.version, stored]
        rfl
      rw [version]
      exact older
  | _ => cases faults

section Advancing
variable {nextSeq k : ℕ} {flights : List Flight} {f : Flight}

/-- A call that returns has stored its version, and no later call of the key
returns a lower one. -/
theorem Forward.advance (forward : s.Forward) (state : s.mode = .running nextSeq flights)
    (found : flights[k]? = some f) (fault : Option Fault)
    (onward : ∀ key, s.version key ≤ (s.advance nextSeq flights k f fault).version key) :
    (s.advance nextSeq flights k f fault).Forward := by
  have airborne := forward.flights _ _ state
  have member := List.mem_of_getElem? found
  have kept (ret : Return) (before : ret ∈ s.returned) :
      ret.version ≤ (s.advance nextSeq flights k f fault).version ret.request.key :=
    (forward.kept ret before).trans (onward _)
  refine ⟨?_, ?_, ?_⟩
  · rintro _ _ ⟨⟩
    exact airborne.advance found nextSeq fault
  · intro ret inside
    simp only [FaultyStore.advance] at inside
    split at inside
    · next succeeds =>
        rcases List.mem_append.mp inside with new | old
        · have result := Option.mem_toList.mp new
          rw [Flight.result_stored (airborne.ahead f member) succeeds result,
            airborne.named f member _ (Flight.result_request result).1]
          exact onward _
        · exact kept ret old
    · exact kept ret inside
  · simp only [FaultyStore.advance]
    split
    · cases result : f.result with
      | none => exact forward.increasing
      | some ret =>
          refine List.pairwise_cons.mpr ⟨fun old earlier _ same => ?_, forward.increasing⟩
          refine airborne.newer f member ret result old earlier ?_
          rw [same, airborne.named f member _ (Flight.result_request result).1]
    · exact forward.increasing

end Advancing

/-- A step keeps the invariant if no key goes back in it. -/
theorem Forward.move (forward : s.Forward) (move : FaultyMove s act s') (ordinary : act.ordinary = true)
    (room : s.Headroom act) (onward : ∀ key, s.version key ≤ s'.version key) : s'.Forward := by
  have kept (ret : Return) (member : ret ∈ s.returned) : ret.version ≤ s'.version ret.request.key :=
    (forward.kept ret member).trans (onward _)
  have ended (idle : Idle s s') : s'.Forward := by
    refine ⟨fun nextSeq flights mode => ?_, idle.returned ▸ kept, idle.returned ▸ forward.increasing⟩
    rw [idle.landed nextSeq flights mode]
    exact .nil
  cases move with
  | stay => exact forward
  | @delete nextSeq flights key now peekFails state free =>
      refine ⟨?_, kept, forward.increasing⟩
      rintro _ _ ⟨⟩
      refine Airborne.perm (List.perm_append_singleton _ _).symm
        ((forward.flights _ _ state).cons free trivial ?_ ?_)
      · rintro _ ⟨⟩
      · rintro _ ⟨⟩
  | refused now peekFails requested => exact ⟨forward.flights, kept, forward.increasing⟩
  | @answered nextSeq flights m req row now state free requested plan =>
      obtain ⟨_, stored, found, _, rfl⟩ := planPut_answered plan
      refine ⟨?_, List.forall_mem_cons.mpr ⟨?_, kept⟩, List.pairwise_cons.mpr ⟨?_, forward.increasing⟩⟩
      · intro next all mode
        obtain ⟨rfl, rfl⟩ : nextSeq = next ∧ flights = all := by simpa using state.symm.trans mode
        refine (forward.flights _ _ state).answer ?_
        rw [Mutation.request_key requested]
        exact free
      · rw [version, Slot.version, found]
        exact le_rfl
      · rintro _ _ ⟨⟩
  | @write nextSeq flights m req row now state free requested plan =>
      have named := Mutation.request_key requested
      obtain ⟨key, newer⟩ := planPut_newer (ordinary_request ordinary requested) (named ▸ room) plan
      refine ⟨?_, kept, forward.increasing⟩
      rintro _ _ ⟨⟩
      refine Airborne.perm (List.perm_append_singleton _ _).symm
        ((forward.flights _ _ state).cons ?_ ?_ ?_ ?_)
      · change row.key ∉ _
        rw [key, named]
        exact free
      · change (s.disk.slot row.key).version < row.version
        rw [key]
        exact newer
      · rintro _ ⟨⟩
        exact key.symm
      · rintro _ ⟨⟩ old earlier (same : old.request.key = row.key)
        have below := forward.kept old earlier
        rw [same, key] at below
        exact below.trans_lt newer
  | advance fault state found => exact forward.advance state found fault onward
  | crash torn => exact ended (.crash s torn)
  | recover now io state => exact ended (.recovered s _ _ _ now io)
  | truncate fault state => exact ended (.truncated s fault)
  | reopen | clean => exact ended ⟨rfl, rfl, by rintro _ _ ⟨⟩⟩

theorem Forward.closed (d : Disk) : (closed d).Forward where
  flights := by rintro _ _ ⟨⟩
  kept := by rintro _ ⟨⟩
  increasing := List.Pairwise.nil

end Steps

section Runs
variable {shard : Bytes → ℕ}

/-- No key goes back in the step. -/
def Raises (shard : Bytes → ℕ) (s : FaultyStore) (act : FaultyAction) : Prop :=
  ∀ key, s.version key ≤ (s.exec shard act).version key

theorem Along.not_backward {s : FaultyStore} {acts : List FaultyAction}
    (raises : Along (exec shard) (Raises shard) s acts) :
    Along (exec shard) (fun s act => ¬s.Backward act) s acts := by
  induction acts generalizing s with
  | nil => trivial
  | cons act acts ih =>
      refine ⟨fun backward => ?_, ih raises.2⟩
      obtain ⟨key, lower⟩ := backward.lower shard
      exact lower.not_ge (raises.1 key)

/-- The run lemma. -/
theorem Forward.run {s : FaultyStore} {acts : List FaultyAction} (forward : s.Forward)
    (ordinary : ∀ act ∈ acts, act.ordinary = true) (room : Along (exec shard) Headroom s acts)
    (allowed : Along (exec shard) (fun s act => ¬s.Backward act) s acts) :
    Along (exec shard) (Raises shard) s acts ∧ (acts.foldl (exec shard) s).Forward := by
  induction acts generalizing s with
  | nil => exact ⟨trivial, forward⟩
  | cons act acts ih =>
      have move := exec_move shard s act
      have raises : Raises shard s act := fun key => (forward.onward move allowed.1 key).le
      obtain ⟨calls, rest⟩ := List.forall_mem_cons.mp ordinary
      obtain ⟨later, last⟩ := ih (forward.move move calls room.1 raises) rest room.2 allowed.2
      exact ⟨⟨raises, later⟩, last⟩

/-- Over any disk and any run that does not come to the largest version, the
versions are monotonic exactly if no recovery completes an overtaken write because
its `Peek` failed. -/
theorem versions_monotonic_iff (shard : Bytes → ℕ) (d : Disk) {acts : List FaultyAction}
    (ordinary : ∀ act ∈ acts, act.ordinary = true) (room : Along (exec shard) Headroom (closed d) acts) :
    (Along (exec shard) (Raises shard) (closed d) acts ∧ Increasing (runFrom shard d acts).returned) ↔
      Along (exec shard) (fun s act => ¬s.Backward act) (closed d) acts := by
  constructor
  · rintro ⟨raises, _⟩
    exact Along.not_backward raises
  · intro allowed
    obtain ⟨raises, forward⟩ := (Forward.closed d).run ordinary room allowed
    exact ⟨raises, forward.increasing⟩

end Runs

section Sample

def sampleOpening : List FaultyAction := [.reopen [], .clean true, .truncate none]

/-- A write that is alone in the store; its COMMIT append may fail. -/
def sampleWrite (m : Mutation) (commit : Option Fault) : List FaultyAction :=
  [.start m 0 false, .step 0 none, .step 0 none, .step 0 none, .step 0 none, .step 0 commit]

/-- Three versions of `k`. The first has the bytes of the third, and its COMMIT
record is missing. -/
def sampleOverwritten : List FaultyAction :=
  sampleOpening ++ sampleWrite (.put sampleKey [1]) (some .nothing) ++
    sampleWrite (.put sampleKey [2]) none ++ sampleWrite (.put sampleKey [1]) none

/-- The store is killed and opened again; `Peek` may fail for the first record. -/
def sampleReopened (before : List FaultyAction) (peekFails : Bool) : List FaultyAction :=
  before ++
    [.crash false, .reopen (runFrom (fun _ => 0) .empty before).disk.wal.records,
      .recover 0 ⟨peekFails, false, none⟩, .recover 0 .fine, .recover 0 .fine, .recover 0 .fine,
      .recover 0 .fine, .clean true, .truncate none]

end Sample

/-- With a `Peek` that works, the run is monotonic. -/
theorem versions_monotonic_iff_reopened :
    Along (exec fun _ => 0) (Raises fun _ => 0) (closed .empty)
        (sampleReopened sampleOverwritten false ++ sampleWrite (.put sampleKey [3]) none) ∧
      Increasing (runFrom (fun _ => 0) .empty
        (sampleReopened sampleOverwritten false ++ sampleWrite (.put sampleKey [3]) none)).returned :=
  (versions_monotonic_iff (fun _ => 0) .empty (by decide +kernel) (by decide +kernel)).mpr (by decide +kernel)

/-- The first version comes back over the third, and the next write returns a
version that was returned before. -/
theorem failed_peek_lowers_version :
    (∀ act ∈ sampleReopened sampleOverwritten true ++ sampleWrite (.put sampleKey [3]) none, act.ordinary = true) ∧
      (runFrom (fun _ => 0) .empty sampleOverwritten).version sampleKey = 3 ∧
      (runFrom (fun _ => 0) .empty (sampleReopened sampleOverwritten true)).version sampleKey = 1 ∧
      (runFrom (fun _ => 0) .empty
        (sampleReopened sampleOverwritten true ++ sampleWrite (.put sampleKey [3]) none)).returned.map (·.version) =
          [2, 3, 2, 1] := by
  decide +kernel

end FaultyStore
end Dos.Storage
