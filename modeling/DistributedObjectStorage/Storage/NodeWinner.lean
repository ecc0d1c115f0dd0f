import DistributedObjectStorage.Storage.FaultyVersions

/-!
# One winner on a node, under I/O errors

A conditional write stores its request id with the version it creates. As long
as the versions of a key only grow, a second request for the same version finds
the key past it, and only a retry is answered Ok from the row. The id is read
back as a C string, so ids have to stay apart when they are cut.
-/
namespace Dos.Storage
open Transition

/-- A non-empty id names one request. -/
def Distinguished (requests : List WriteRequest) : Prop :=
  ∀ req ∈ requests, ∀ req' ∈ requests, req.requestId ≠ [] → req.requestId = req'.requestId → req = req'

instance (requests : List WriteRequest) : Decidable (Distinguished requests) :=
  inferInstanceAs (Decidable (∀ req ∈ requests, ∀ req' ∈ requests, req.requestId ≠ [] →
    req.requestId = req'.requestId → req = req'))

/-- No id of a key, cut at its first zero byte, is another id of the key. -/
def Legible (requests : List WriteRequest) : Prop :=
  ∀ req ∈ requests, ∀ req' ∈ requests, req.key = req'.key → req'.requestId ≠ [] →
    cString req.requestId = req'.requestId → req.requestId = req'.requestId

instance (requests : List WriteRequest) : Decidable (Legible requests) :=
  inferInstanceAs (Decidable (∀ req ∈ requests, ∀ req' ∈ requests, req.key = req'.key →
    req'.requestId ≠ [] → cString req.requestId = req'.requestId → req.requestId = req'.requestId))

namespace WriteRequest

/-- The row that the request writes. -/
structure Stamps (req : WriteRequest) (row : ObjectMetadata) : Prop where
  key : row.key = req.key
  requestId : row.requestId = req.requestId
  version : req.conditional = true → row.version = req.expectedVersion + 1

/-- The key has left the expected version behind; at the version of the request
it carries no other id. -/
def Done (req : WriteRequest) (p : Slot) : Prop :=
  req.expectedVersion < p.version ∧
    (p.version = req.expectedVersion + 1 → ∀ row ∈ p.row, row.requestId ≠ [] →
      row.requestId = req.requestId ∨ cString row.requestId = req.requestId)

theorem Done.onward {req : WriteRequest} {p p' : Slot} (done : req.Done p) (onward : p.Onward p') :
    req.Done p' := by
  have passed := done.1
  rcases onward with newer | ⟨same, ids⟩
  · refine ⟨passed.trans newer, fun level => ?_⟩
    omega
  · refine ⟨same ▸ passed, fun level row' found given => ?_⟩
    obtain ⟨row, before, id⟩ := ids row' found given
    rw [← id]
    exact done.2 (same ▸ level) row before (id ▸ given)

end WriteRequest

/-- A write in flight works for one of the requests. -/
def Flight.Serves (requests : List WriteRequest) (f : Flight) : Prop :=
  match f.job with
  | .put _ _ row _ => ∃ req ∈ requests, f.request = some req ∧ req.Stamps row
  | .delete _ _ _ => f.request = none

/-- Two successes of one key at one expected version are one request. -/
def Return.Compatible (later earlier : Return) : Prop :=
  later.request.conditional = true → earlier.request.conditional = true →
    later.request.key = earlier.request.key →
    later.request.expectedVersion = earlier.request.expectedVersion →
    later.request = earlier.request ∧ later.request.requestId ≠ []

namespace FaultyStore

structure Single (s : FaultyStore) : Prop where
  forward : s.Forward
  conditional : ∀ req ∈ s.requests, req.requestId ≠ [] → req.conditional = true
  stamped : ∀ key row, (s.disk.slot key).row = some row → row.requestId ≠ [] →
    ∃ req ∈ s.requests, req.key = key ∧ req.requestId = row.requestId ∧
      row.version = req.expectedVersion + 1
  serves : ∀ nextSeq flights, s.mode = .running nextSeq flights → ∀ f ∈ flights, f.Serves s.requests
  known : ∀ ret ∈ s.returned, ret.request ∈ s.requests
  done : ∀ ret ∈ s.returned, ret.request.conditional = true →
    ret.version = ret.request.expectedVersion + 1 ∧ ret.request.Done (s.disk.slot ret.request.key)
  compatible : s.returned.Pairwise Return.Compatible

end FaultyStore

/-! ## Where a request id comes from -/

section Rows
variable {d d' : Disk} {key : Bytes} {row' : ObjectMetadata}

/-- The key has the request id and the version of the row. -/
def Disk.Bears (d : Disk) (key : Bytes) (row' : ObjectMetadata) : Prop :=
  ∃ row, (d.slot key).row = some row ∧ row.requestId = row'.requestId ∧ row.version = row'.version

theorem Disk.Bears.of_row (same : (d'.slot key).row = (d.slot key).row)
    (found : (d'.slot key).row = some row') : d.Bears key row' :=
  ⟨row', same.symm.trans found, rfl, rfl⟩

theorem deleteRow_bears {gone : Bytes} (found : ((d.deleteRow gone).1.slot key).row = some row') :
    d.Bears key row' := by
  obtain ⟨row, here, rfl | rfl⟩ := Disk.deleteRow_row found
  · exact ⟨row', here, rfl, rfl⟩
  · exact ⟨row, here, rfl, rfl⟩

theorem putRow_bears {row : ObjectMetadata} (found : ((d.putRow row).slot key).row = some row') :
    d.Bears key row' ∨ row.key = key ∧ row' = row := by
  by_cases same : row.key = key
  · subst same
    have stored : ((d.putRow row).slot row.key).row = some row := congrArg Slot.row (d.slot_putRow row)
    exact .inr ⟨rfl, Option.some.inj (found.symm.trans stored)⟩
  · exact .inl (.of_row (congrArg Slot.row (d.slot_putRow_ne same)) found)

theorem Job.effect_bears {job : Job} (found : ((job.effect d).slot key).row = some row') :
    d.Bears key row' ∨ ∃ todo seq data, job = .put todo seq row' data ∧ row'.key = key := by
  cases job with
  | put todo seq row data =>
      cases todo with
      | row =>
          rcases putRow_bears found with old | ⟨here, rfl⟩
          · exact .inl old
          · exact .inr ⟨_, _, _, rfl, here⟩
      | _ => exact .inl (.of_row rfl found)
  | delete todo seq name =>
      cases todo with
      | row => exact .inl (deleteRow_bears found)
      | _ => exact .inl (.of_row rfl found)

theorem recoverFaulty_bears {committed : List ℕ} {now : Int} {io : RecoverIo} {rec : WalRecord}
    (found : ((recoverFaulty committed now io d rec).1.slot key).row = some row')
    (given : row'.requestId ≠ []) : d.Bears key row' := by
  rcases recoverFaulty_cases committed now io d rec with same | same | ⟨same, _⟩
  · rw [same] at found
    exact .of_row rfl found
  · rw [same] at found
    exact deleteRow_bears found
  · rw [same] at found
    rcases putRow_bears found with old | ⟨_, rfl⟩
    · exact old
    · exact absurd rfl given

/-- A row with an id was there before, or a write in flight stores it. -/
theorem FaultyMove.id {s s' : FaultyStore} {act : FaultyAction} (move : FaultyMove s act s')
    (found : (s'.disk.slot key).row = some row') (given : row'.requestId ≠ []) :
    s.disk.Bears key row' ∨
      ∃ nextSeq flights f todo seq data, s.mode = .running nextSeq flights ∧ f ∈ flights ∧
        f.job = .put todo seq row' data ∧ row'.key = key := by
  cases move with
  | @advance nextSeq flights k f fault state here =>
      rcases f.job.outcome_row (d := s.disk) fault with same | same
      · exact .inl (.of_row (same key) found)
      · rcases Job.effect_bears ((same key).symm.trans found) with old | ⟨todo, seq, data, job, named⟩
        · exact .inl old
        · exact .inr ⟨nextSeq, flights, f, todo, seq, data, state, List.mem_of_getElem? here, job, named⟩
  | crash torn => exact .inl (.of_row (s.crash_row torn key) found)
  | recover now io state => exact .inl (recoverFaulty_bears found given)
  | clean removes state => exact .inl (.of_row (FaultyStore.clean_row s.disk removes key) found)
  | truncate fault state => exact .inl (.of_row (s.truncated_row fault key) found)
  | _ => exact .inl (.of_row rfl found)

end Rows

/-! ## Steps -/

section Steps
variable {s s' : FaultyStore} {act : FaultyAction} {requests : List WriteRequest}

theorem Flight.Serves.mono {f : Flight} {more : List WriteRequest} (serves : f.Serves requests)
    (grows : requests ⊆ more) : f.Serves more := by
  obtain ⟨request, job⟩ := f
  cases job with
  | put todo seq row data =>
      obtain ⟨req, member, rest⟩ := serves
      exact ⟨req, grows member, rest⟩
  | delete todo seq key => exact serves

theorem Flight.Serves.next {f : Flight} (serves : f.Serves requests) {d : Disk} {rest : Job}
    (goesOn : f.job.next d = some rest) : Flight.Serves requests ⟨f.request, rest⟩ := by
  obtain ⟨request, job⟩ := f
  cases Job.next_follows goesOn with
  | put => exact serves
  | delete => exact serves

/-- Only a conditional write has an id. -/
theorem request_conditional {m : Mutation} {req : WriteRequest} (requested : m.request = some req)
    (given : req.requestId ≠ []) : req.conditional = true := by
  cases m with
  | delete key => cases requested
  | _ =>
      simp only [Mutation.request, Option.ite_none_left_eq_some, Option.some.injEq] at requested
      obtain ⟨_, rfl⟩ := requested
      first | rfl | exact absurd rfl given

theorem planPut_stamps {d : Disk} {req : WriteRequest} {now : Int} {row : ObjectMetadata}
    (plain : req.explicitVersion = 0) (room : (d.slot req.key).version + 1 < 2 ^ 64)
    (plan : planPut d req now = .write row) : req.Stamps row := by
  obtain ⟨_, current, rfl⟩ := planPut_newRow plan
  refine ⟨rfl, rfl, fun conditional => ?_⟩
  rw [current conditional] at room
  simp [newRow, plain, conditional, increment_of_lt room]

theorem FaultyMove.requests_cases (move : FaultyMove s act s') :
    s'.requests = s.requests ∨ ∃ m req, Mutation.request m = some req ∧ s'.requests = req :: s.requests := by
  cases move with
  | refused now peekFails requested => exact .inr ⟨_, _, requested, rfl⟩
  | answered now state free requested plan => exact .inr ⟨_, _, requested, rfl⟩
  | write now state free requested plan => exact .inr ⟨_, _, requested, rfl⟩
  | crash torn => exact .inl (FaultyStore.Idle.crash s torn).requests
  | truncate fault state => exact .inl (FaultyStore.Idle.truncated s fault).requests
  | _ => exact .inl rfl

theorem FaultyMove.requests_subset (move : FaultyMove s act s') : s.requests ⊆ s'.requests := by
  rcases move.requests_cases with same | ⟨_, req, _, more⟩
  · rw [same]
    exact List.Subset.refl _
  · rw [more]
    exact List.subset_cons_self _ _

/-- A success is added by a retry that the row answers, or by the last step of a
write. -/
theorem FaultyMove.returned_cases (move : FaultyMove s act s') :
    s'.returned = s.returned ∨
      (∃ req row now, s' = { s with
          requests := req :: s.requests
          returned := ⟨req, row.version, false⟩ :: s.returned } ∧
        planPut s.disk req now = .answer (.ok row)) ∨
      ∃ ret nextSeq flights f, s'.returned = ret :: s.returned ∧ s.mode = .running nextSeq flights ∧
        f ∈ flights ∧ f.job.succeeds = true ∧ ret ∈ f.result := by
  cases move with
  | answered now state free requested plan => exact .inr (.inl ⟨_, _, _, rfl, plan⟩)
  | @advance nextSeq flights k f fault state found =>
      simp only [FaultyStore.advance]
      split
      · next succeeds =>
          cases result : f.result with
          | none => exact .inl rfl
          | some ret =>
              exact .inr (.inr ⟨ret, nextSeq, flights, f, rfl, state, List.mem_of_getElem? found,
                succeeds, result⟩)
      · exact .inl rfl
  | crash torn => exact .inl (FaultyStore.Idle.crash s torn).returned
  | truncate fault state => exact .inl (FaultyStore.Idle.truncated s fault).returned
  | _ => exact .inl rfl

namespace FaultyStore

theorem Single.serves_move (single : s.Single) (move : FaultyMove s act s') (ordinary : act.ordinary = true)
    (room : s.Headroom act) :
    ∀ nextSeq flights, s'.mode = .running nextSeq flights → ∀ f ∈ flights, f.Serves s'.requests := by
  have ended (idle : Idle s s') :
      ∀ nextSeq flights, s'.mode = .running nextSeq flights → ∀ f ∈ flights, f.Serves s'.requests := by
    intro nextSeq flights mode f member
    rw [idle.landed nextSeq flights mode] at member
    exact absurd member List.not_mem_nil
  cases move with
  | stay => exact single.serves
  | delete now peekFails state free =>
      rintro _ _ ⟨⟩ f member
      rcases List.mem_append.mp member with old | new
      · exact single.serves _ _ state f old
      · rw [List.mem_singleton.mp new]
        rfl
  | refused now peekFails requested =>
      exact fun _ _ state f member => (single.serves _ _ state f member).mono (List.subset_cons_self _ _)
  | answered now running free requested plan =>
      exact fun _ _ state f member => (single.serves _ _ state f member).mono (List.subset_cons_self _ _)
  | write now state free requested plan =>
      rintro _ _ ⟨⟩ f member
      rcases List.mem_append.mp member with old | new
      · exact (single.serves _ _ state f old).mono (List.subset_cons_self _ _)
      · rw [List.mem_singleton.mp new]
        exact ⟨_, List.mem_cons_self, rfl,
          planPut_stamps (ordinary_request ordinary requested) (Mutation.request_key requested ▸ room) plan⟩
  | @advance nextSeq flights k f fault state found =>
      rintro _ _ ⟨⟩ g member
      rcases List.mem_append.mp member with next | old
      · obtain ⟨rest, goesOn, rfl⟩ := List.mem_map.mp next
        cases fault with
        | some fault => cases goesOn
        | none =>
            exact (single.serves _ _ state f (List.mem_of_getElem? found)).next (Option.mem_toList.mp goesOn)
      · exact single.serves _ _ state g (List.mem_of_mem_eraseIdx old)
  | crash torn => exact ended (.crash s torn)
  | recover now io state => exact ended (.recovered s _ _ _ now io)
  | truncate fault state => exact ended (.truncated s fault)
  | reopen | clean => exact ended ⟨rfl, rfl, by rintro _ _ ⟨⟩⟩

theorem Single.conditional_move (single : s.Single) (move : FaultyMove s act s') :
    ∀ req ∈ s'.requests, req.requestId ≠ [] → req.conditional = true := by
  rcases move.requests_cases with same | ⟨m, req, requested, more⟩
  · rw [same]
    exact single.conditional
  · rw [more]
    exact List.forall_mem_cons.mpr ⟨request_conditional requested, single.conditional⟩

theorem Single.stamped_move (single : s.Single) (move : FaultyMove s act s') {key : Bytes}
    {row : ObjectMetadata} (found : (s'.disk.slot key).row = some row) (given : row.requestId ≠ []) :
    ∃ req ∈ s'.requests, req.key = key ∧ req.requestId = row.requestId ∧
      row.version = req.expectedVersion + 1 := by
  rcases move.id found given with ⟨old, before, id, version⟩ | ⟨_, _, f, _, _, _, state, member, job, named⟩
  · obtain ⟨req, known, key, same, stamped⟩ := single.stamped key old before (id ▸ given)
    exact ⟨req, move.requests_subset known, key, same.trans id, version ▸ stamped⟩
  · have serves := single.serves _ _ state f member
    unfold Flight.Serves at serves
    rw [job] at serves
    obtain ⟨req, known, _, stamps⟩ := serves
    refine ⟨req, move.requests_subset known, stamps.key.symm.trans named, stamps.requestId.symm, ?_⟩
    exact stamps.version (single.conditional req known (stamps.requestId ▸ given))

/-- A recognised retry is the request that wrote the row. -/
theorem Single.retry (single : s.Single) {req : WriteRequest} {now : Int} {row : ObjectMetadata}
    (identified : Distinguished (req :: s.requests)) (legible : Legible (req :: s.requests))
    (plan : planPut s.disk req now = .answer (.ok row)) :
    req.requestId ≠ [] ∧ ∃ stored, (s.disk.slot req.key).row = some stored ∧
      stored.requestId = req.requestId ∧ cString stored.requestId = req.requestId ∧
      row.version = stored.version ∧ stored.version = req.expectedVersion + 1 := by
  obtain ⟨retry, stored, found, same, rfl⟩ := planPut_answered plan
  have given : stored.requestId ≠ [] := by
    intro empty
    rw [empty] at same
    exact retry same.symm
  obtain ⟨writer, known, key, id, version⟩ := single.stamped req.key stored found given
  have inside : writer ∈ req :: s.requests := List.mem_cons_of_mem _ known
  have cut : writer.requestId = req.requestId :=
    legible writer inside req List.mem_cons_self key retry (id ▸ same)
  obtain rfl : writer = req := identified writer inside req List.mem_cons_self (cut ▸ retry) cut
  exact ⟨retry, stored, found, id.symm, same, rfl, version⟩

/-- What a new success has to be. -/
structure Fits (s : FaultyStore) (returned : List Return) (ret : Return) : Prop where
  known : ret.request ∈ s.requests
  done : ret.request.conditional = true →
    ret.version = ret.request.expectedVersion + 1 ∧ ret.request.Done (s.disk.slot ret.request.key)
  compatible : ∀ earlier ∈ returned, ret.Compatible earlier

theorem Single.answered (single : s.Single) {req : WriteRequest} {now : Int} {row : ObjectMetadata}
    (identified : Distinguished (req :: s.requests)) (legible : Legible (req :: s.requests))
    (plan : planPut s.disk req now = .answer (.ok row)) :
    Fits { s with requests := req :: s.requests } s.returned ⟨req, row.version, false⟩ := by
  obtain ⟨retry, stored, found, id, cut, same, version⟩ := single.retry identified legible plan
  have level : (s.disk.slot req.key).version = req.expectedVersion + 1 := by
    rw [Slot.version, found]
    exact version
  refine ⟨List.mem_cons_self, fun _ => ⟨same.trans version, ?_, ?_⟩, ?_⟩
  · exact level ▸ Nat.lt_succ_self _
  · intro _ current here _
    obtain rfl : stored = current := Option.some.inj (found.symm.trans here)
    exact .inl id
  · intro earlier before _ conditional (key : req.key = _) (expected : req.expectedVersion = _)
    -- At this version the row has the id of the earlier success.
    obtain ⟨_, _, carries⟩ := single.done earlier before conditional
    rw [← key, ← expected] at carries
    have shared : req.requestId = earlier.request.requestId := by
      rcases carries level stored found (id ▸ retry) with own | read
      · exact id.symm.trans own
      · exact cut.symm.trans read
    refine ⟨identified req List.mem_cons_self earlier.request ?_ retry shared, retry⟩
    exact List.mem_cons_of_mem _ (single.known earlier before)

theorem Single.finished (single : s.Single) {nextSeq : ℕ} {flights : List Flight} {f : Flight}
    {ret : Return} (state : s.mode = .running nextSeq flights) (member : f ∈ flights)
    (succeeds : f.job.succeeds = true) (result : ret ∈ f.result) : Fits s s.returned ret := by
  have airborne := single.forward.flights _ _ state
  have serves := single.serves _ _ state f member
  have ahead := airborne.ahead f member
  have newer := airborne.newer f member ret result
  have named := airborne.named f member _ (Flight.result_request result).1
  obtain ⟨request, job⟩ := f
  cases job with
  | delete todo seq key => cases request <;> cases result
  | put todo seq row data =>
      obtain ⟨req, known, asked, stamps⟩ := serves
      cases asked
      cases result
      cases todo with
      | commit =>
          have stored : (s.disk.slot req.key).row = some row := stamps.key ▸ ahead
          refine ⟨known, fun conditional => ⟨stamps.version conditional, ?_, ?_⟩, ?_⟩
          · have level : (s.disk.slot req.key).version = row.version := by
              rw [Slot.version, stored]
              rfl
            rw [level, stamps.version conditional]
            exact Nat.lt_succ_self _
          · intro _ current here _
            obtain rfl : row = current := Option.some.inj (stored.symm.trans here)
            exact .inl stamps.requestId
          · intro earlier before conditional first (key : req.key = _) (expected : req.expectedVersion = _)
            -- A rival would have returned this version already.
            have lower : earlier.version < row.version := newer earlier before (key ▸ named)
            rw [(single.done earlier before first).1, stamps.version conditional, expected] at lower
            exact absurd lower (lt_irrefl _)
      | _ => cases succeeds

theorem Fits.onward {returned : List Return} {ret : Return} (fits : Fits s returned ret)
    (grows : s.requests ⊆ s'.requests) (onward : ∀ key, (s.disk.slot key).Onward (s'.disk.slot key)) :
    Fits s' returned ret where
  known := grows fits.known
  done := fun conditional => ⟨(fits.done conditional).1, (fits.done conditional).2.onward (onward _)⟩
  compatible := fits.compatible

/-- The step lemma. -/
theorem Single.move (single : s.Single) (move : FaultyMove s act s') (ordinary : act.ordinary = true)
    (room : s.Headroom act) (allowed : ¬s.Backward act) (identified : Distinguished s'.requests)
    (legible : Legible s'.requests) : s'.Single := by
  have onward := single.forward.onward move allowed
  have forward := single.forward.move move ordinary room fun key => (onward key).le
  have grows := move.requests_subset
  have old (ret : Return) (member : ret ∈ s.returned) : Fits s' [] ret := by
    have before : Fits s [] ret := ⟨single.known ret member, single.done ret member, by rintro _ ⟨⟩⟩
    exact before.onward grows onward
  have all : (∀ ret ∈ s'.returned, Fits s' [] ret) ∧ s'.returned.Pairwise Return.Compatible := by
    have extend {ret : Return} (fits : Fits s' s.returned ret) (added : s'.returned = ret :: s.returned) :
        (∀ ret ∈ s'.returned, Fits s' [] ret) ∧ s'.returned.Pairwise Return.Compatible := by
      rw [added]
      refine ⟨List.forall_mem_cons.mpr ⟨⟨fits.known, fits.done, by rintro _ ⟨⟩⟩, old⟩, ?_⟩
      exact List.pairwise_cons.mpr ⟨fits.compatible, single.compatible⟩
    rcases move.returned_cases with same | ⟨req, row, now, rfl, plan⟩ |
      ⟨ret, _, _, f, added, state, member, succeeds, result⟩
    · rw [same]
      exact ⟨old, single.compatible⟩
    · exact extend ((single.answered identified legible plan).onward (List.Subset.refl _) fun _ => .of_row rfl) rfl
    · exact extend ((single.finished state member succeeds result).onward grows onward) added
  exact {
    forward := forward
    conditional := single.conditional_move move
    stamped := fun _ _ => single.stamped_move move
    serves := single.serves_move move ordinary room
    known := fun ret member => (all.1 ret member).known
    done := fun ret member => (all.1 ret member).done
    compatible := all.2 }

theorem Single.empty : (closed .empty).Single where
  forward := .closed _
  conditional := by rintro _ ⟨⟩
  stamped := by
    intro key row found
    have missing : (Disk.empty.slot key).row = none := by simp [Disk.slot, Disk.empty]
    exact absurd (missing.symm.trans found) (by simp)
  serves := by rintro _ _ ⟨⟩
  known := by rintro _ ⟨⟩
  done := by rintro _ ⟨⟩
  compatible := List.Pairwise.nil

end FaultyStore
end Steps

/-! ## Runs -/

namespace FaultyStore
section Runs
variable {shard : Bytes → ℕ} {s : FaultyStore} {acts : List FaultyAction}

/-- How often a step of the run takes the key to the version. -/
def creations (shard : Bytes → ℕ) (key : Bytes) (version : ℕ) : FaultyStore → List FaultyAction → ℕ
  | _, [] => 0
  | s, act :: acts =>
      (if s.version key ≠ version ∧ (s.exec shard act).version key = version then 1 else 0) +
        creations shard key version (s.exec shard act) acts

/-- Every conditional write in flight writes the version after the expected one. -/
def WritesNext (s : FaultyStore) : Prop :=
  ∀ nextSeq flights, s.mode = .running nextSeq flights → ∀ f ∈ flights, ∀ req, f.request = some req →
    req.conditional = true → ∃ todo seq row data, f.job = .put todo seq row data ∧ row.key = req.key ∧
      row.version = req.expectedVersion + 1

theorem creations_reached {key : Bytes} {version : ℕ} (reached : version ≤ s.version key)
    (raises : Along (exec shard) (Raises shard) s acts) : creations shard key version s acts = 0 := by
  induction acts generalizing s with
  | nil => rfl
  | cons act acts ih =>
      have further : version ≤ (s.exec shard act).version key := reached.trans (raises.1 key)
      have later := ih further raises.2
      have none : ¬(s.version key ≠ version ∧ (s.exec shard act).version key = version) := by
        rintro ⟨left, back⟩
        have := raises.1 key
        omega
      rw [creations, if_neg none, later]

theorem creations_le_one (key : Bytes) (version : ℕ) (raises : Along (exec shard) (Raises shard) s acts) :
    creations shard key version s acts ≤ 1 := by
  induction acts generalizing s with
  | nil => exact Nat.zero_le _
  | cons act acts ih =>
      rw [creations]
      split
      · next created => rw [creations_reached created.2.ge raises.2]
      · rw [Nat.zero_add]
        exact ih raises.2

theorem requests_subset_run (shard : Bytes → ℕ) (s : FaultyStore) (acts : List FaultyAction) :
    s.requests ⊆ (acts.foldl (exec shard) s).requests := by
  induction acts generalizing s with
  | nil => exact List.Subset.refl _
  | cons act acts ih => exact List.Subset.trans (exec_move shard s act).requests_subset (ih _)

/-- The run lemma. The conditions on the ids are about all requests of the run. -/
theorem Single.run (single : s.Single) (ordinary : ∀ act ∈ acts, act.ordinary = true)
    (identified : Distinguished (acts.foldl (exec shard) s).requests)
    (legible : Legible (acts.foldl (exec shard) s).requests) (room : Along (exec shard) Headroom s acts)
    (allowed : Along (exec shard) (fun s act => ¬s.Backward act) s acts) :
    (acts.foldl (exec shard) s).Single := by
  induction acts generalizing s with
  | nil => exact single
  | cons act acts ih =>
      obtain ⟨calls, rest⟩ := List.forall_mem_cons.mp ordinary
      have inside := requests_subset_run shard (s.exec shard act) acts
      have next : (s.exec shard act).Single :=
        single.move (exec_move shard s act) calls room.1 allowed.1
          (fun req one req' two => identified req (inside one) req' (inside two))
          (fun req one req' two => legible req (inside one) req' (inside two))
      exact ih next rest identified legible room.2 allowed.2

theorem Single.writesNext (single : s.Single) : s.WritesNext := by
  intro nextSeq flights state f member req asked conditional
  have serves := single.serves nextSeq flights state f member
  obtain ⟨request, job⟩ := f
  cases job with
  | delete todo seq key => cases serves.symm.trans asked
  | put todo seq row data =>
      obtain ⟨own, _, same, stamps⟩ := serves
      obtain rfl : own = req := Option.some.inj (same.symm.trans asked)
      exact ⟨todo, seq, row, data, rfl, stamps.key, stamps.version conditional⟩

/-- In every run of a store that does not come to the largest version, whose
request ids stay apart when they are read back, and in which no recovery goes
back for a failed `Peek`: the successes for
one key and expected version are retries of one request, a conditional request
writes and returns one version only, and every version is created once. -/
theorem node_single_winner (shard : Bytes → ℕ) {acts : List FaultyAction}
    (ordinary : ∀ act ∈ acts, act.ordinary = true)
    (identified : Distinguished (runFrom shard .empty acts).requests)
    (legible : Legible (runFrom shard .empty acts).requests)
    (room : Along (exec shard) Headroom (closed .empty) acts)
    (allowed : Along (exec shard) (fun s act => ¬s.Backward act) (closed .empty) acts) :
    (runFrom shard .empty acts).returned.Pairwise Return.Compatible ∧
      (∀ ret ∈ (runFrom shard .empty acts).returned, ret.request.conditional = true →
        ret.version = ret.request.expectedVersion + 1) ∧
      (runFrom shard .empty acts).WritesNext ∧
      ∀ key version, creations shard key version (closed .empty) acts ≤ 1 := by
  have single : (runFrom shard .empty acts).Single := Single.empty.run ordinary identified legible room allowed
  have raises := (Single.empty.forward.run ordinary room allowed).1
  refine ⟨single.compatible, fun ret member conditional => (single.done ret member conditional).1,
    single.writesNext, fun key version => creations_le_one key version raises⟩

end Runs

section Sample

/-- A first write whose COMMIT append fails, its retry, a rival, and a write of
the next version; then a restart and the first request once more. -/
def sampleRivals : List FaultyAction :=
  sampleReopened
      (sampleOpening ++ sampleWrite (.putConditional sampleKey [1] 0 (text "a")) (some .nothing) ++
        [.start (.putConditional sampleKey [1] 0 (text "a")) 0 false,
          .start (.putConditional sampleKey [2] 0 (text "b")) 0 false] ++
        sampleWrite (.putConditional sampleKey [3] 1 (text "c")) none) false ++
    [.start (.putConditional sampleKey [1] 0 (text "a")) 0 false]

/-- A second request whose id is the first one's up to its zero byte. -/
def sampleCutId : List FaultyAction :=
  sampleOpening ++ sampleWrite (.putConditional sampleKey [1] 0 [97, 0, 98]) none ++
    [.start (.putConditional sampleKey [2] 0 [97]) 0 false]

/-- Three conditional writes, the first without its COMMIT record and with the
bytes of the third; a restart in which `Peek` fails for the first record; and a
second write over version 1. -/
def sampleSetBack : List FaultyAction :=
  sampleReopened
      (sampleOpening ++ sampleWrite (.putConditional sampleKey [1] 0 (text "a")) (some .nothing) ++
        sampleWrite (.putConditional sampleKey [2] 1 (text "b")) none ++
        sampleWrite (.putConditional sampleKey [1] 2 (text "c")) none) true ++
    sampleWrite (.putConditional sampleKey [3] 1 (text "d")) none

end Sample

theorem node_single_winner_retried :
    (runFrom (fun _ => 0) .empty sampleRivals).returned.map (fun ret => (ret.request.requestId, ret.version)) =
        [(text "c", 2), (text "a", 1), (text "a", 1)] ∧
      (runFrom (fun _ => 0) .empty sampleRivals).returned.Pairwise Return.Compatible ∧
      creations (fun _ => 0) sampleKey 1 (closed .empty) sampleRivals ≤ 1 := by
  obtain ⟨identified, legible, results⟩ : Distinguished (runFrom (fun _ => 0) .empty sampleRivals).requests ∧
      Legible (runFrom (fun _ => 0) .empty sampleRivals).requests ∧
      (runFrom (fun _ => 0) .empty sampleRivals).returned.map (fun ret => (ret.request.requestId, ret.version)) =
        [(text "c", 2), (text "a", 1), (text "a", 1)] := by decide +kernel
  obtain ⟨compatible, _, _, once⟩ := node_single_winner (fun _ => 0)
    (show ∀ act ∈ sampleRivals, act.ordinary = true by decide +kernel) identified legible (by decide +kernel)
    (by decide +kernel)
  exact ⟨results, compatible, once sampleKey 1⟩

/-- Two requests win version 0 when the id of one is the other's up to its zero
byte; two requests win version 1 after a recovery that went back. -/
theorem two_winners_on_node :
    (Distinguished (runFrom (fun _ => 0) .empty sampleCutId).requests ∧
      (runFrom (fun _ => 0) .empty sampleCutId).returned =
        [⟨.putConditional sampleKey [2] 0 [97], 1, false⟩,
          ⟨.putConditional sampleKey [1] 0 [97, 0, 98], 1, true⟩]) ∧
    Distinguished (runFrom (fun _ => 0) .empty sampleSetBack).requests ∧
      (runFrom (fun _ => 0) .empty sampleSetBack).returned =
        [⟨.putConditional sampleKey [3] 1 (text "d"), 2, true⟩,
          ⟨.putConditional sampleKey [1] 2 (text "c"), 3, true⟩,
          ⟨.putConditional sampleKey [2] 1 (text "b"), 2, true⟩,
          ⟨.putConditional sampleKey [1] 0 (text "a"), 1, true⟩] := by
  decide +kernel

end FaultyStore
end Dos.Storage
