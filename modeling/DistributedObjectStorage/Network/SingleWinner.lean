import DistributedObjectStorage.Cluster.Placement
import DistributedObjectStorage.Library.Quorum
import DistributedObjectStorage.Network.ConditionalRace
import DistributedObjectStorage.Storage.StoreVersions

/-!
# One winner for each expected version

A node accepts one conditional write of a key at a version: the row then carries
its request id, and only a retry with this id is answered Ok again. Two quorums
of one placement share a node. The id is read back as a C string, so this needs
ids that stay apart when they are cut at the first zero byte.
-/
namespace Dos.Network
open ControlPlane Storage Transition

namespace ConditionalRequest

/-- The row that the request writes. -/
structure Stamps (req : ConditionalRequest) (row : ObjectMetadata) : Prop where
  key : row.key = req.key
  version : row.version = req.expectedVersion + 1
  requestId : row.requestId = req.requestId

/-- Two requests compete for one version. -/
def Rivals (req req' : ConditionalRequest) : Prop :=
  req.key = req'.key ∧ req.expectedVersion = req'.expectedVersion

/-- The key has left the expected version behind; at the version of the request
it carries its id. -/
def Done (req : ConditionalRequest) (p : Slot) : Prop :=
  req.expectedVersion < p.version ∧
    (p.version = req.expectedVersion + 1 →
      ∃ id, p.row.map (·.requestId) = some id ∧ (id = req.requestId ∨ cString id = req.requestId))

theorem Done.grows {req : ConditionalRequest} {p p' : Slot} (done : req.Done p) (grows : p.Grows p') :
    req.Done p' := by
  rcases grows with ⟨version, id⟩ | newer
  · unfold Done
    rw [version, id]
    exact done
  · have := done.1
    refine ⟨by omega, fun same => ?_⟩
    omega

end ConditionalRequest

/-- A row with a request id was written by one of the requests. -/
def Stamped (requests : List ConditionalRequest) (row : ObjectMetadata) : Prop :=
  row.requestId ≠ [] → ∃ req ∈ requests, req.Stamps row

/-- An id that reads back from a row as the id of a request of the key belongs to
this request. -/
def Readable (requests : List ConditionalRequest) : Prop :=
  ∀ req ∈ requests, ∀ req' ∈ requests, req.key = req'.key → req'.requestId ≠ [] →
    cString req.requestId = req'.requestId → req = req'

theorem stamped_lasting (requests : List ConditionalRequest) : Lasting (Stamped requests) where
  bury := fun row stamped given => by
    obtain ⟨req, member, stamps⟩ := stamped given
    exact ⟨req, member, stamps.key, stamps.version, stamps.requestId⟩
  recover := fun _ _ _ _ given => absurd rfl given

/-! ## One node -/

namespace Server

/-- A write in flight is for one of the requests, and no rival of it was
answered Ok. -/
def Serves (requests : List ConditionalRequest) (n : Server) : Job → Prop
  | .put _ seq row _ =>
      (∃ c req, n.owner seq = some c ∧ requests[c]? = some req ∧ req.Stamps row) ∧
        ∀ c req, (c, .ok) ∈ n.answers → requests[c]? = some req → req.key = row.key →
          req.expectedVersion + 1 ≠ row.version
  | .delete _ _ _ => True

structure Sound (requests : List ConditionalRequest) (n : Server) : Prop where
  ordered : n.machine.Ordered
  rows : n.machine.Rows (Stamped requests)
  done : ∀ c, (c, .ok) ∈ n.answers →
    ∃ req, requests[c]? = some req ∧ req.Done (n.machine.disk.slot req.key)
  single : ∀ c c' req req', (c, .ok) ∈ n.answers → (c', .ok) ∈ n.answers →
    requests[c]? = some req → requests[c']? = some req' → req.Rivals req' →
    c = c' ∨ req.requestId ≠ [] ∧ req.requestId = req'.requestId
  jobs : ∀ nextSeq jobs, n.machine.mode = .running nextSeq jobs → ∀ job ∈ jobs, n.Serves requests job

section Steps
variable {shard : Bytes → ℕ} {requests : List ConditionalRequest} {n : Server} {c : ℕ}
  {req : ConditionalRequest}

/-- A later call changes nothing for the calls before it. -/
theorem Sound.invoke (sound : n.Sound requests) (new : ConditionalRequest) :
    n.Sound (requests ++ [new]) := by
  have kept {c : ℕ} {req : ConditionalRequest} (found : requests[c]? = some req) :
      (requests ++ [new])[c]? = some req := by
    obtain ⟨bound, _⟩ := List.getElem?_eq_some_iff.mp found
    rw [List.getElem?_append_left bound, found]
  have known {c : ℕ} {req : ConditionalRequest} (answered : (c, .ok) ∈ n.answers)
      (found : (requests ++ [new])[c]? = some req) : requests[c]? = some req := by
    obtain ⟨old, here, _⟩ := sound.done c answered
    rw [← found, kept here, here]
  refine ⟨sound.ordered, sound.rows.mono ?_, ?_, ?_, ?_⟩
  · intro row stamped given
    obtain ⟨old, member, stamps⟩ := stamped given
    exact ⟨old, List.mem_append_left _ member, stamps⟩
  · intro c answered
    obtain ⟨old, here, done⟩ := sound.done c answered
    exact ⟨old, kept here, done⟩
  · intro c c' req req' answered answered' found found'
    exact sound.single c c' req req' answered answered' (known answered found) (known answered' found')
  · intro nextSeq jobs mode job member
    have serves := sound.jobs nextSeq jobs mode job member
    cases job with
    | put todo seq row data =>
        obtain ⟨⟨c, old, owner, here, stamps⟩, alone⟩ := serves
        refine ⟨⟨c, old, owner, kept here, stamps⟩, fun c req answered found => ?_⟩
        exact alone c req answered (known answered found)
    | delete todo seq key => trivial

/-- An answer that is not Ok says nothing. -/
theorem Sound.refuse (sound : n.Sound requests) {code : StatusCode} (failed : code ≠ .ok) :
    Sound requests { n with answers := n.answers ++ [(c, code)] } := by
  have old {c' : ℕ} (answered : (c', StatusCode.ok) ∈ n.answers ++ [(c, code)]) :
      (c', .ok) ∈ n.answers := by
    rcases List.mem_append.mp answered with old | new
    · exact old
    · cases List.mem_singleton.mp new
      exact absurd rfl failed
  refine ⟨sound.ordered, sound.rows, fun c' answered => sound.done c' (old answered), ?_, ?_⟩
  · intro c c' req req' answered answered'
    exact sound.single c c' req req' (old answered) (old answered')
  · intro nextSeq jobs mode job member
    have serves := sound.jobs nextSeq jobs mode job member
    cases job with
    | put todo seq row data => exact ⟨serves.1, fun c' req' answered => serves.2 c' req' (old answered)⟩
    | delete todo seq key => trivial

/-- A request is answered Ok when its row is there and no rival was answered. -/
theorem Sound.answer (sound : n.Sound requests) (found : requests[c]? = some req)
    (done : req.Done (n.machine.disk.slot req.key))
    (alone : ∀ c' req', (c', .ok) ∈ n.answers → requests[c']? = some req' → req.Rivals req' →
      c = c' ∨ req.requestId ≠ [] ∧ req.requestId = req'.requestId)
    (idle : ∀ nextSeq jobs, n.machine.mode = .running nextSeq jobs → req.key ∉ jobs.map Job.key) :
    Sound requests { n with answers := n.answers ++ [(c, .ok)] } := by
  have cases {c' : ℕ} (answered : (c', StatusCode.ok) ∈ n.answers ++ [(c, .ok)]) :
      (c', .ok) ∈ n.answers ∨ c' = c := by
    simpa using answered
  refine ⟨sound.ordered, sound.rows, ?_, ?_, ?_⟩
  · intro c' answered
    rcases cases answered with old | rfl
    · exact sound.done c' old
    · exact ⟨req, found, done⟩
  · intro first second one two answered answered' here there rivals
    rcases cases answered with old | rfl
    · rcases cases answered' with old' | rfl
      · exact sound.single first second one two old old' here there rivals
      · obtain rfl : req = two := Option.some.inj (found.symm.trans there)
        rcases alone first one old here ⟨rivals.1.symm, rivals.2.symm⟩ with same | ⟨given, same⟩
        · exact .inl same.symm
        · exact .inr ⟨same ▸ given, same.symm⟩
    · obtain rfl : req = one := Option.some.inj (found.symm.trans here)
      rcases cases answered' with old' | rfl
      · exact alone second two old' there rivals
      · exact .inl rfl
  · intro nextSeq jobs mode job member
    have serves := sound.jobs nextSeq jobs mode job member
    cases job with
    | put todo seq row data =>
        refine ⟨serves.1, fun c' req' answered here named => ?_⟩
        rcases cases answered with old | rfl
        · exact serves.2 c' req' old here named
        · obtain rfl : req = req' := Option.some.inj (found.symm.trans here)
          exact absurd (List.mem_map.mpr ⟨_, member, named.symm⟩) (idle nextSeq jobs mode)
    | delete todo seq key => trivial

theorem nextSeqOf_running {s : Machine} {nextSeq : ℕ} {jobs : List Job} (mode : s.mode = .running nextSeq jobs) :
    nextSeqOf s = nextSeq := by
  simp only [nextSeqOf, mode]

/-- The next sequence number belongs to no write in flight. -/
theorem Sound.claim (sound : n.Sound requests) (c : ℕ) :
    Sound requests { n with owner := Function.update n.owner (nextSeqOf n.machine) (some c) } := by
  refine ⟨sound.ordered, sound.rows, sound.done, sound.single, ?_⟩
  intro nextSeq jobs (mode : n.machine.mode = .running nextSeq jobs) job member
  have serves := sound.jobs nextSeq jobs mode job member
  cases job with
  | put todo seq row data =>
      obtain ⟨⟨other, req, owner, here, stamps⟩, alone⟩ := serves
      have issued : seq < nextSeq := (sound.ordered.shaped.running mode).log.issued _ member
      have older : seq ≠ nextSeqOf n.machine := by
        rw [nextSeqOf_running mode]
        exact issued.ne
      exact ⟨⟨other, req, (Function.update_of_ne older ..).trans owner, here, stamps⟩, alone⟩
  | delete todo seq key => trivial

/-- What goes on is a write that was in flight before. -/
theorem put_of_next {d : Disk} {job : Job} {todo : PutStage} {seq : ℕ} {row : ObjectMetadata} {data : Bytes}
    (goesOn : job.next d = some (.put todo seq row data)) : ∃ before, job = .put before seq row data := by
  cases Job.next_follows goesOn
  exact ⟨_, rfl⟩

/-- Only a conditional write starts a write. -/
theorem put_of_move {s s' : Machine} {act : StoreAction} (move : Move s act s') (calm : spontaneous act = true)
    {nextSeq : ℕ} {jobs : List Job} (mode : s'.mode = .running nextSeq jobs) {todo : PutStage} {seq : ℕ}
    {row : ObjectMetadata} {data : Bytes} (member : .put todo seq row data ∈ jobs) :
    ∃ next all before, s.mode = .running next all ∧ .put before seq row data ∈ all := by
  cases move with
  | stay => exact ⟨_, _, _, mode, member⟩
  | @begin next all m now state free =>
      cases m with
      | delete key =>
          cases mode
          rcases List.mem_append.mp member with old | new
          · exact ⟨_, _, _, state, old⟩
          · cases List.mem_singleton.mp new
      | _ => cases calm
  | @advance next all k job state found =>
      cases mode
      rcases List.mem_append.mp member with new | old
      · obtain ⟨before, rfl⟩ := put_of_next (Option.mem_toList.mp new)
        exact ⟨_, _, before, state, List.mem_of_getElem? found⟩
      · exact ⟨_, _, _, state, List.mem_of_mem_eraseIdx old⟩
  | crash torn =>
      unfold Machine.crash at mode
      split at mode <;> cases mode
  | truncate state =>
      cases mode
      exact absurd member List.not_mem_nil
  | _ => cases mode

/-- The store goes on by itself. -/
theorem Sound.moved (sound : n.Sound requests) {act : StoreAction} (calm : spontaneous act = true)
    {s' : Machine} (move : Move n.machine act s') : Sound requests { n with machine := s' } := by
  have quiet (m : Mutation) (now : Int) (write : WriteRequest) (started : act = .start m now)
      (requested : m.request = some write) : False := by
    subst started
    cases m with
    | delete key => cases requested
    | _ => cases calm
  refine ⟨?_, ?_, ?_, sound.single, ?_⟩
  · exact sound.ordered.move move fun m now write _ started requested _ =>
      (quiet m now write started requested).elim
  · exact sound.rows.move (stamped_lasting requests)
      (fun m now write _ started requested _ => (quiet m now write started requested).elim) move
  · intro c answered
    obtain ⟨req, here, done⟩ := sound.done c answered
    exact ⟨req, here, done.grows (sound.ordered.grows move req.key)⟩
  · intro nextSeq jobs mode job member
    cases job with
    | put todo seq row data =>
        obtain ⟨next, all, before, running, old⟩ := put_of_move move calm mode member
        exact sound.jobs next all running _ old
    | delete todo seq key => trivial

/-- A write starts at the version it expects, so no rival was answered. -/
theorem Sound.launch (sound : n.Sound requests) (found : requests[c]? = some req) {nextSeq : ℕ}
    {jobs : List Job} (mode : n.machine.mode = .running nextSeq jobs) (owner : n.owner nextSeq = some c)
    {row : ObjectMetadata} {data : Bytes} (free : req.key ∉ jobs.map Job.key) (stamps : req.Stamps row)
    (current : (n.machine.disk.slot req.key).version = req.expectedVersion) :
    Sound requests { n with machine := n.machine.launch nextSeq jobs (.put .begin nextSeq row data) } := by
  have ahead : (n.machine.disk.slot row.key).version < row.version := by
    rw [stamps.key, stamps.version, current]
    exact Nat.lt_succ_self _
  have alone (c' : ℕ) (req' : ConditionalRequest) (answered : (c', .ok) ∈ n.answers)
      (here : requests[c']? = some req') (named : req'.key = row.key) :
      req'.expectedVersion + 1 ≠ row.version := by
    obtain ⟨_, there, later, _⟩ := sound.done c' answered
    cases here.symm.trans there
    rw [named, stamps.key, current] at later
    rw [stamps.version]
    omega
  have each {P : Job → Prop} (old : ∀ job ∈ jobs, P job) (new : P (.put .begin nextSeq row data)) :
      ∀ next all, (n.machine.launch nextSeq jobs (.put .begin nextSeq row data)).mode = .running next all →
        ∀ job ∈ all, P job := by
    rintro _ _ ⟨⟩ job member
    rcases List.mem_append.mp member with before | last
    · exact old job before
    · rw [List.mem_singleton.mp last]
      exact new
  refine ⟨⟨?_, ?_, ?_⟩, ?_, sound.done, sound.single, ?_⟩
  · rw [← stamps.key] at free
    exact (sound.ordered.shaped.running mode).launch rfl free rfl
  · exact ⟨sound.ordered.rows.stored, sound.ordered.rows.log, by rintro _ _ ⟨⟩,
      each (sound.ordered.rows.jobs _ _ mode) (Nat.zero_lt_of_lt ahead)⟩
  · exact each (sound.ordered.jobs _ _ mode) ahead
  · refine ⟨sound.rows.stored, sound.rows.log, by rintro _ _ ⟨⟩, each (sound.rows.jobs _ _ mode) ?_⟩
    exact fun _ => ⟨req, List.mem_of_getElem? found, stamps⟩
  · exact each (sound.jobs _ _ mode) ⟨⟨c, req, owner, found, stamps⟩, alone⟩

/-- A write plan: the request is new and finds the version it expects. -/
theorem plan_write {d : Disk} {now : Int} {row : ObjectMetadata} (room : req.expectedVersion + 1 < 2 ^ 64)
    (plan : planPut d (.putConditional req.key req.data req.expectedVersion req.requestId) now = .write row) :
    req.Stamps row ∧ (d.slot req.key).version = req.expectedVersion := by
  obtain ⟨_, current, rfl⟩ := planPut_newRow plan
  exact ⟨⟨rfl, increment_of_lt room, rfl⟩, current rfl⟩

/-- An answer Ok without a disk step: the row carries the id of the request. -/
theorem plan_answer {d : Disk} {now : Int} {result : StatusOr ObjectMetadata}
    (plan : planPut d (.putConditional req.key req.data req.expectedVersion req.requestId) now = .answer result)
    (ok : codeOf result = .ok) :
    req.requestId ≠ [] ∧ ∃ row, (d.slot req.key).row = some row ∧ cString row.requestId = req.requestId := by
  by_cases known : (d.slot req.key).Recognises
      (.putConditional req.key req.data req.expectedVersion req.requestId)
  · exact known
  · have refused := (planPut_new known).symm.trans plan
    unfold planWrite at refused
    split at refused
    · cases refused
      cases ok
    · cases refused

/-- What the arrival of a request leads to: nothing while the lock is taken or
the node is down, an answer at once, or a write. -/
inductive Served (n : Server) (c : ℕ) (req : ConditionalRequest) : Machine → List (ℕ × StatusCode) → Prop
  | silent : Served n c req n.machine n.answers
  | answered {nextSeq jobs} (code : StatusCode) : n.machine.mode = .running nextSeq jobs →
      req.key ∉ jobs.map Job.key →
      (code = .ok → req.requestId ≠ [] ∧ ∃ row, (n.machine.disk.slot req.key).row = some row ∧
        cString row.requestId = req.requestId) →
      Served n c req n.machine (n.answers ++ [(c, code)])
  | launched {nextSeq jobs row} : n.machine.mode = .running nextSeq jobs → req.key ∉ jobs.map Job.key →
      req.Stamps row → (n.machine.disk.slot req.key).version = req.expectedVersion →
      Served n c req (n.machine.launch nextSeq jobs (.put .begin nextSeq row req.data)) n.answers

theorem served (shard : Bytes → ℕ) (n : Server) (c : ℕ) {req : ConditionalRequest}
    (room : req.expectedVersion + 1 < 2 ^ 64) (now : Int) :
    Served n c req (n.serve shard c req.mutation now).machine (n.serve shard c req.mutation now).answers := by
  have nothing : Served n c req n.machine (n.answers ++ []) := by
    rw [List.append_nil]
    exact .silent
  cases mode : n.machine.mode with
  | running nextSeq jobs =>
      simp only [serve, Machine.exec, answerOf, mode]
      by_cases locked : jobs.any (fun job => shard job.key = shard req.mutation.key) = true
      · simp only [if_pos locked]
        exact nothing
      · have free : req.key ∉ jobs.map Job.key := Machine.free_of_shard locked
        simp only [if_neg locked]
        simp only [Machine.begin, ConditionalRequest.mutation, Mutation.request]
        by_cases empty : req.key = []
        · simp only [if_pos empty]
          exact .answered .invalidArgument mode free (absurd · (by decide))
        · simp only [if_neg empty]
          cases plan : planPut n.machine.disk
              (.putConditional req.key req.data req.expectedVersion req.requestId) now with
          | answer result => exact .answered (codeOf result) mode free (plan_answer plan)
          | write row =>
              obtain ⟨stamps, current⟩ := plan_write room plan
              simp only [Option.map_none, Option.toList_none, List.append_nil]
              exact .launched mode free stamps current
  | _ =>
      simp only [serve, Machine.exec, answerOf, mode]
      exact nothing

/-- A retry is answered for the request that wrote the row. -/
theorem Sound.recognise (sound : n.Sound requests) (readable : Readable requests)
    (found : requests[c]? = some req) (given : req.requestId ≠ []) {row : ObjectMetadata}
    (here : (n.machine.disk.slot req.key).row = some row) (same : cString row.requestId = req.requestId) :
    req.Done (n.machine.disk.slot req.key) ∧
      ∀ c' req', (c', .ok) ∈ n.answers → requests[c']? = some req' → req.Rivals req' →
        req.requestId = req'.requestId := by
  have marked : row.requestId ≠ [] := by
    intro empty
    rw [empty] at same
    exact given same.symm
  obtain ⟨named, stamped⟩ := sound.rows.stored req.key row here
  obtain ⟨writer, member, stamps⟩ := stamped marked
  obtain rfl : writer = req := by
    refine readable writer member req (List.mem_of_getElem? found) (stamps.key.symm.trans named) given ?_
    rw [← stamps.requestId, same]
  have version : (n.machine.disk.slot writer.key).version = writer.expectedVersion + 1 := by
    rw [Slot.version, here]
    exact stamps.version
  have id : (n.machine.disk.slot writer.key).row.map (·.requestId) = some writer.requestId := by
    rw [here, Option.map_some, stamps.requestId]
  refine ⟨⟨by omega, fun _ => ⟨_, id, .inl rfl⟩⟩, fun c' req' answered there rivals => ?_⟩
  obtain ⟨_, known, _, current⟩ := sound.done c' answered
  cases there.symm.trans known
  rw [← rivals.1, ← rivals.2] at current
  obtain ⟨stored, carried, whole | cut⟩ := current version
  · cases id.symm.trans carried
    exact whole
  · cases id.symm.trans carried
    exact (same.symm.trans (congrArg cString stamps.requestId)).trans cut

/-- The request of a call arrives. -/
theorem Sound.serve (sound : n.Sound requests) (readable : Readable requests)
    (room : req.expectedVersion + 1 < 2 ^ 64) (found : requests[c]? = some req) (now : Int) :
    (n.serve shard c req.mutation now).Sound requests := by
  have claimed := sound.claim c
  have arrival := served shard n c room now
  have owner : (n.serve shard c req.mutation now).owner =
      Function.update n.owner (nextSeqOf n.machine) (some c) := rfl
  generalize n.serve shard c req.mutation now = after at arrival owner
  obtain ⟨machine, owners, answers⟩ := after
  subst owner
  cases arrival with
  | silent => exact claimed
  | answered code mode free known =>
      by_cases ok : code = .ok
      · subst ok
        obtain ⟨given, row, here, same⟩ := known rfl
        obtain ⟨done, alone⟩ := sound.recognise readable found given here same
        refine claimed.answer found done (fun c' req' answered there rivals => ?_) ?_
        · exact .inr ⟨given, alone c' req' answered there rivals⟩
        · intro nextSeq jobs running
          cases mode.symm.trans running
          exact free
      · exact claimed.refuse ok
  | launched mode free stamps current =>
      refine claimed.launch found mode ?_ free stamps current
      rw [nextSeqOf_running mode]
      exact Function.update_self ..

theorem writeEnded_some {s : Machine} {act : StoreAction} {seq : ℕ} (ended : writeEnded s act = some seq) :
    ∃ k nextSeq jobs row data, act = .step k ∧ s.mode = .running nextSeq jobs ∧
      jobs[k]? = some (.put .commit seq row data) := by
  unfold writeEnded at ended
  split at ended
  · next k =>
      split at ended
      · next nextSeq jobs mode =>
          split at ended
          · next found =>
              cases ended
              exact ⟨k, nextSeq, jobs, _, _, rfl, mode, found⟩
          · cases ended
      · cases ended
  · cases ended

/-- A write that completes answers its call, and no rival was answered before. -/
theorem Sound.move (sound : n.Sound requests) {act : StoreAction} (calm : spontaneous act = true) :
    (n.move shard act).Sound requests := by
  have moved := sound.moved calm (n.machine.exec_move shard act)
  cases ended : writeEnded n.machine act with
  | none =>
      have same : n.move shard act = { n with machine := n.machine.exec shard act } := by
        simp [Server.move, ended]
      rw [same]
      exact moved
  | some seq =>
      obtain ⟨k, nextSeq, jobs, row, data, rfl, mode, found⟩ := writeEnded_some ended
      have member := List.mem_of_getElem? found
      obtain ⟨⟨c, req, owner, here, stamps⟩, alone⟩ := sound.jobs _ _ mode _ member
      have same : n.move shard (.step k) =
          { n with
            machine := n.machine.exec shard (.step k)
            answers := n.answers ++ [(c, .ok)] } := by
        simp [Server.move, ended, owner]
      have stepped : n.machine.exec shard (.step k) =
          n.machine.advance nextSeq jobs k (.put .commit seq row data) := by
        simp [Machine.exec, mode, found]
      have stored : (n.machine.disk.slot req.key).row = some row := by
        rw [← stamps.key]
        exact sound.ordered.jobs _ _ mode _ member
      rw [same]
      rw [stepped] at moved ⊢
      refine moved.answer here ?_ (fun c' req' answered there rivals => ?_) ?_
      · change req.Done ⟨(n.machine.disk.slot req.key).row, _, _⟩
        rw [stored]
        refine ⟨?_, fun _ => ⟨row.requestId, rfl, .inl stamps.requestId⟩⟩
        change req.expectedVersion < row.version
        rw [stamps.version]
        exact Nat.lt_succ_self _
      · refine absurd ?_ (alone c' req' answered there (rivals.1.symm.trans stamps.key.symm))
        rw [stamps.version, rivals.2]
      · rintro _ _ ⟨⟩ busy
        obtain ⟨other, inside, named⟩ := List.mem_map.mp busy
        refine (sound.ordered.shaped.running mode).elsewhere found inside ?_
        exact stamps.key.trans named.symm

end Steps
end Server

/-! ## The cluster -/

namespace Race

def requests (s : Race) : List ConditionalRequest := s.calls.map (·.request)

/-- The call returned success. -/
def Won (call : ConditionalCall) : Prop := call.result.any Except.isOk = true

instance (call : ConditionalCall) : Decidable (Won call) := inferInstanceAs (Decidable (_ = true))

/-- One replication factor, majority quorums, and each given request id names
one request. -/
def Proper (replicationFactor : ℕ) (s : Race) : RaceAction → Prop
  | .invoke caller req =>
      caller.opts.replicationFactor = replicationFactor ∧
        replicationFactor < 2 * caller.opts.writeQuorum ∧
        (req.requestId ≠ [] → ∀ other ∈ s.requests, other.requestId = req.requestId → other = req)
  | _ => True

/-- The ids of a key stay apart when one of them is cut at the first zero byte. -/
def Uncut (s : Race) : RaceAction → Prop
  | .invoke _ req => ∀ other ∈ s.requests, other.key = req.key →
      (req.requestId ≠ [] → cString other.requestId = req.requestId → other.requestId = req.requestId) ∧
        (other.requestId ≠ [] → cString req.requestId = other.requestId → req.requestId = other.requestId)
  | _ => True

/-- The version after the expected one does not wrap. -/
def Bounded : RaceAction → Prop
  | .invoke _ req => req.expectedVersion + 1 < 2 ^ 64
  | _ => True

instance (rf : ℕ) (s : Race) : ∀ act, Decidable (s.Proper rf act)
  | .invoke caller req => inferInstanceAs (Decidable (caller.opts.replicationFactor = rf ∧
      rf < 2 * caller.opts.writeQuorum ∧
      (req.requestId ≠ [] → ∀ other ∈ s.requests, other.requestId = req.requestId → other = req)))
  | .serve .. | .receive .. | .giveUp .. | .finish _ | .removeObject _ | .node .. => isTrue trivial

instance (s : Race) : ∀ act, Decidable (s.Uncut act)
  | .invoke _ req => inferInstanceAs (Decidable (∀ other ∈ s.requests, other.key = req.key →
      (req.requestId ≠ [] → cString other.requestId = req.requestId → other.requestId = req.requestId) ∧
        (other.requestId ≠ [] → cString req.requestId = other.requestId → req.requestId = other.requestId)))
  | .serve .. | .receive .. | .giveUp .. | .finish _ | .removeObject _ | .node .. => isTrue trivial

instance : ∀ act, Decidable (Bounded act)
  | .invoke _ req => inferInstanceAs (Decidable (req.expectedVersion + 1 < 2 ^ 64))
  | .serve .. | .receive .. | .giveUp .. | .finish _ | .removeObject _ | .node .. => isTrue trivial

/-- A disk with a closed log, whose rows were written without request ids. -/
structure Plain (d : Disk) : Prop where
  log : d.wal = .empty
  rows : ∀ key, ∀ row ∈ (d.slot key).row, row.key = key ∧ 0 < row.version ∧ row.requestId = []

/-- The futures are for distinct nodes of the placement, an Ok was sent by the
node, and a success has a majority behind it. -/
structure Backed (cluster : ClusterMap) (rf : ℕ) (nodes : Bytes → Server) (c : ℕ) (call : ConditionalCall) :
    Prop where
  majority : rf < 2 * call.caller.opts.writeQuorum
  placed : (call.futures.map (·.1)).Sublist (cluster.placementFor call.request.key rf)
  sent : ∀ id, (id, some .ok) ∈ call.futures → (c, .ok) ∈ (nodes id).answers
  won : Won call → ∃ Q, Quorum.Majority (cluster.placementFor call.request.key rf).toFinset Q ∧
    ∀ id ∈ Q, (c, .ok) ∈ (nodes id).answers

structure Sound (cluster : ClusterMap) (rf : ℕ) (s : Race) : Prop where
  members : s.metadata.cluster = cluster
  nodes : ∀ id, (s.nodes id).Sound s.requests
  readable : Readable s.requests
  bounded : ∀ req ∈ s.requests, req.expectedVersion + 1 < 2 ^ 64
  identified : ∀ req ∈ s.requests, ∀ req' ∈ s.requests, req.requestId ≠ [] →
    req.requestId = req'.requestId → req = req'
  calls : ∀ c call, s.calls[c]? = some call → Backed cluster rf s.nodes c call

section Steps
variable {shard : Bytes → ℕ} {cluster : ClusterMap} {rf : ℕ} {s : Race}

theorem sound_start (metadata : MetadataRepository) {disks : Bytes → Disk} (plain : ∀ id, Plain (disks id)) :
    (start metadata disks).Sound metadata.cluster rf := by
  refine ⟨rfl, fun id => ?_, ?_, ?_, ?_, ?_⟩
  · have stored (key : Bytes) (row : ObjectMetadata) (found : row ∈ ((disks id).slot key).row) :
        row.key = key ∧ 0 < row.version :=
      ⟨((plain id).rows key row found).1, ((plain id).rows key row found).2.1⟩
    refine ⟨.closed (plain id).log stored _, ⟨?_, ?_, ?_, ?_⟩, ?_, ?_, ?_⟩
    · intro key row found
      obtain ⟨named, _, unmarked⟩ := (plain id).rows key row found
      exact ⟨named, fun given => absurd unmarked given⟩
    · intro rec member
      simp only [start, (plain id).log] at member
      exact absurd member List.not_mem_nil
    · rintro _ _ ⟨⟩
    · rintro _ _ ⟨⟩
    · exact fun c answered => absurd answered List.not_mem_nil
    · exact fun c c' req req' answered => absurd answered List.not_mem_nil
    · rintro _ _ ⟨⟩
  · exact List.forall_mem_nil _
  · exact List.forall_mem_nil _
  · exact List.forall_mem_nil _
  · rintro c call ⟨⟩

/-- What a call rests on is kept while the nodes send more. -/
theorem Backed.later {nodes nodes' : Bytes → Server} {c : ℕ} {call : ConditionalCall}
    (backed : Backed cluster rf nodes c call)
    (more : ∀ id, ∀ answer ∈ (nodes id).answers, answer ∈ (nodes' id).answers) :
    Backed cluster rf nodes' c call where
  majority := backed.majority
  placed := backed.placed
  sent := fun id ready => more id _ (backed.sent id ready)
  won := fun won => by
    obtain ⟨Q, majority, sent⟩ := backed.won won
    exact ⟨Q, majority, fun id member => more id _ (sent id member)⟩

/-- One node changes. -/
theorem Sound.node (sound : s.Sound cluster rf) {id : Bytes} {n : Server} (ok : n.Sound s.requests)
    (more : ∀ answer ∈ (s.nodes id).answers, answer ∈ n.answers) :
    Sound cluster rf { s with nodes := Function.update s.nodes id n } := by
  refine ⟨sound.members, ?_, sound.readable, sound.bounded, sound.identified, fun c call found => ?_⟩
  · exact (Function.forall_update_iff s.nodes fun _ server => server.Sound s.requests).mpr
      ⟨ok, fun other _ => sound.nodes other⟩
  · refine (sound.calls c call found).later ?_
    exact (Function.forall_update_iff s.nodes fun other server =>
      ∀ answer ∈ (s.nodes other).answers, answer ∈ server.answers).mpr
        ⟨more, fun _ _ _ member => member⟩

theorem map_set_of_eq {α β : Type} {l : List α} {i : ℕ} {old new : α} {f : α → β} (found : l[i]? = some old)
    (same : f new = f old) : (l.set i new).map f = l.map f := by
  obtain ⟨bound, rfl⟩ := List.getElem?_eq_some_iff.mp found
  rw [List.map_set, same]
  have inside : i < (l.map f).length := by simpa using bound
  have kept : (l.map f).set i (l.map f)[i] = l.map f := List.set_getElem_self inside
  rwa [List.getElem_map] at kept

/-- A call goes on. -/
theorem Sound.call (sound : s.Sound cluster rf) {c : ℕ} {call after : ConditionalCall}
    (found : s.calls[c]? = some call) (same : after.request = call.request)
    (backed : Backed cluster rf s.nodes c after) {metadata : MetadataRepository}
    (members : metadata.cluster = cluster) : Sound cluster rf ⟨metadata, s.nodes, s.calls.set c after⟩ := by
  have requests : Race.requests ⟨metadata, s.nodes, s.calls.set c after⟩ = s.requests :=
    map_set_of_eq found same
  refine ⟨members, ?_, ?_, ?_, ?_, ?_⟩
  · rw [requests]
    exact sound.nodes
  · rw [requests]
    exact sound.readable
  · rw [requests]
    exact sound.bounded
  · rw [requests]
    exact sound.identified
  · intro other later (here : (s.calls.set c after)[other]? = some later)
    rw [List.getElem?_set] at here
    split at here
    · next mine =>
        subst mine
        split at here
        · cases here
          exact backed
        · cases here
    · exact sound.calls other later here

theorem invoked_request (metadata : MetadataRepository) (caller : Caller) (req : ConditionalRequest) :
    (invoked metadata caller req).request = req := by
  simp only [invoked]
  split <;> rfl

theorem invoked_backed (metadata : MetadataRepository) (caller : Caller) (req : ConditionalRequest)
    (majority : caller.opts.replicationFactor < 2 * caller.opts.writeQuorum) (nodes : Bytes → Server) (c : ℕ) :
    Backed metadata.cluster caller.opts.replicationFactor nodes c (invoked metadata caller req) := by
  simp only [invoked]
  split
  · refine ⟨majority, List.nil_sublist _, fun id ready => absurd ready List.not_mem_nil, ?_⟩
    rintro ⟨⟩
  · refine ⟨majority, ?_, fun id ready => ?_, ?_⟩
    · rw [List.map_map]
      exact (List.map_id _).symm ▸ List.Sublist.refl _
    · obtain ⟨_, _, ⟨⟩⟩ := List.mem_map.mp ready
    · rintro ⟨⟩

/-- What holds of all pairs, one more element included. -/
theorem forall_pairs_concat {α : Type} {P : α → α → Prop} {l : List α} {x : α}
    (old : ∀ a ∈ l, ∀ b ∈ l, P a b) (left : ∀ a ∈ l, P a x) (right : ∀ b ∈ l, P x b) (self : P x x) :
    ∀ a ∈ l ++ [x], ∀ b ∈ l ++ [x], P a b := by
  simp only [List.forall_mem_append, List.forall_mem_singleton]
  exact ⟨fun a inside => ⟨old a inside, left a inside⟩, right, self⟩

theorem Sound.invoke (sound : s.Sound cluster rf) {caller : Caller} {req : ConditionalRequest}
    (proper : s.Proper rf (.invoke caller req)) (uncut : s.Uncut (.invoke caller req))
    (bounded : Bounded (.invoke caller req)) :
    (s.exec shard (.invoke caller req)).Sound cluster rf := by
  obtain ⟨rfl, majority, identifies⟩ := proper
  have requests : (s.exec shard (.invoke caller req)).requests = s.requests ++ [req] := by
    simp [Race.requests, exec, invoked_request]
  refine ⟨sound.members, fun id => ?_, ?_, ?_, ?_, ?_⟩
  · rw [requests]
    exact (sound.nodes id).invoke req
  · rw [requests]
    refine forall_pairs_concat sound.readable ?_ ?_ fun _ _ _ => rfl
    · intro other old named given cut
      exact identifies given other old ((uncut other old named).1 given cut)
    · intro other old named given cut
      have same := (uncut other old named.symm).2 given cut
      exact (identifies (same ▸ given) other old same.symm).symm
  · rw [requests]
    exact List.forall_mem_append.mpr ⟨sound.bounded, List.forall_mem_singleton.mpr bounded⟩
  · rw [requests]
    refine forall_pairs_concat sound.identified ?_ ?_ fun _ _ => rfl
    · intro other old given same
      exact identifies (same ▸ given) other old same
    · intro other old given same
      exact (identifies given other old same.symm).symm
  · intro c call (found : (s.calls ++ [invoked s.metadata caller req])[c]? = some call)
    rw [List.getElem?_append] at found
    split at found
    · exact sound.calls c call found
    · obtain rfl := List.mem_singleton.mp (List.mem_of_getElem? found)
      have backed := invoked_backed s.metadata caller req majority s.nodes c
      rw [sound.members] at backed
      exact backed

theorem ready_cases (i : ℕ) (code : StatusCode) (accept : Bytes → Bool) (call : ConditionalCall) :
    ready i code accept call = call ∨
      ∃ id, call.futures[i]? = some (id, none) ∧ accept id = true ∧
        ready i code accept call = { call with futures := call.futures.set i (id, some code) } := by
  unfold ready
  split
  · next id found =>
      split
      · next accepted => exact .inr ⟨id, found, accepted, rfl⟩
      · exact .inl rfl
  · exact .inl rfl

theorem ready_request (i : ℕ) (code : StatusCode) (accept : Bytes → Bool) (call : ConditionalCall) :
    (ready i code accept call).request = call.request := by
  rcases ready_cases i code accept call with same | ⟨_, _, _, same⟩ <;> rw [same]

theorem Backed.ready {nodes : Bytes → Server} {c i : ℕ} {code : StatusCode} {accept : Bytes → Bool}
    {call : ConditionalCall} (backed : Backed cluster rf nodes c call)
    (honest : ∀ id, accept id = true → code = .ok → (c, .ok) ∈ (nodes id).answers) :
    Backed cluster rf nodes c (Race.ready i code accept call) := by
  rcases ready_cases i code accept call with same | ⟨id, found, accepted, same⟩
  · rw [same]
    exact backed
  · rw [same]
    refine ⟨backed.majority, ?_, fun other sent => ?_, backed.won⟩
    · have ids : (call.futures.set i (id, some code)).map (·.1) = call.futures.map (·.1) :=
        map_set_of_eq found rfl
      exact ids ▸ backed.placed
    · rcases List.mem_or_eq_of_mem_set sent with old | new
      · exact backed.sent other old
      · cases new
        exact honest id accepted rfl

/-- A future becomes ready. -/
theorem Sound.ready (sound : s.Sound cluster rf) {c i : ℕ} {code : StatusCode} {accept : Bytes → Bool}
    (honest : ∀ id, accept id = true → code = .ok → (c, .ok) ∈ (s.nodes id).answers) :
    (s.updateCall c (Race.ready i code accept)).Sound cluster rf := by
  unfold updateCall
  split
  · exact sound
  · next call found =>
      exact sound.call found (ready_request i code accept call) ((sound.calls c call found).ready honest)
        sound.members

theorem conclude_members (metadata : MetadataRepository) (call : ConditionalCall) :
    (conclude metadata call).1.cluster = metadata.cluster := by
  simp only [conclude]
  split
  · rfl
  · split <;> rfl

theorem conclude_ok {metadata : MetadataRepository} {call : ConditionalCall}
    (ok : (conclude metadata call).2.isOk = true) :
    call.caller.opts.writeQuorum ≤ (Traffic.ackedFutures call.futures).length := by
  simp only [conclude] at ok
  split at ok
  · next enough => exact enough
  · split at ok <;> cases ok

/-- The acknowledgements of a call are a majority of the placement. -/
theorem Backed.quorum {nodes : Bytes → Server} {c : ℕ} {call : ConditionalCall}
    (backed : Backed cluster rf nodes c call)
    (enough : call.caller.opts.writeQuorum ≤ (Traffic.ackedFutures call.futures).length) :
    ∃ Q, Quorum.Majority (cluster.placementFor call.request.key rf).toFinset Q ∧
      ∀ id ∈ Q, (c, .ok) ∈ (nodes id).answers := by
  have acked : (Traffic.ackedFutures call.futures).Sublist (cluster.placementFor call.request.key rf) :=
    (List.Sublist.map _ List.filter_sublist).trans backed.placed
  have distinct := cluster.placementFor_nodup call.request.key rf
  have bounded := cluster.placementFor_length call.request.key rf
  refine ⟨(Traffic.ackedFutures call.futures).toFinset, ⟨?_, ?_⟩, fun id member => ?_⟩
  · exact fun id member => List.mem_toFinset.mpr (acked.subset (List.mem_toFinset.mp member))
  · rw [List.toFinset_card_of_nodup distinct, List.toFinset_card_of_nodup (distinct.sublist acked)]
    have := backed.majority
    omega
  · obtain ⟨future, ready, rfl⟩ := List.mem_map.mp (List.mem_toFinset.mp member)
    obtain ⟨inside, ok⟩ := List.mem_filter.mp ready
    have ok : future.2 = some .ok := of_decide_eq_true ok
    exact backed.sent future.1 (ok ▸ inside)

theorem Sound.finish (sound : s.Sound cluster rf) (c : ℕ) : (s.exec shard (.finish c)).Sound cluster rf := by
  simp only [exec]
  split
  · exact sound
  · next call found =>
      split
      · have backed := sound.calls c call found
        have later : Backed cluster rf s.nodes c { call with result := some (conclude s.metadata call).2 } := by
          refine ⟨backed.majority, backed.placed, backed.sent, ?_⟩
          exact fun won => backed.quorum (conclude_ok won)
        refine sound.call found ?_ later ((conclude_members s.metadata call).trans sound.members)
        rfl
      · exact sound

/-- The step lemma. -/
theorem Sound.step (sound : s.Sound cluster rf) {act : RaceAction} (proper : s.Proper rf act)
    (uncut : s.Uncut act) (bounded : Bounded act) : (s.exec shard act).Sound cluster rf := by
  cases act with
  | invoke caller req => exact sound.invoke proper uncut bounded
  | serve c id now =>
      simp only [exec]
      split
      · exact sound
      · next call found =>
          split
          · have request : s.requests[c]? = some call.request := by
              simp [Race.requests, found]
            have room := sound.bounded _ (List.mem_of_getElem? request)
            refine sound.node ((sound.nodes id).serve sound.readable room request now) ?_
            exact fun answer member => List.mem_append_left _ member
          · exact sound
  | receive c i code =>
      refine sound.ready fun id accepted ok => ?_
      subst ok
      exact of_decide_eq_true accepted
  | giveUp c i => exact sound.ready fun id _ ok => absurd ok (by decide)
  | finish c => exact sound.finish c
  | removeObject key =>
      exact ⟨(s.metadata.removeObject_cluster key).trans sound.members, sound.nodes, sound.readable,
        sound.bounded, sound.identified, sound.calls⟩
  | node id act =>
      simp only [exec]
      split
      · next calm =>
          refine sound.node ((sound.nodes id).move calm) ?_
          exact fun answer member => List.mem_append_left _ member
      · exact sound

end Steps

/-- In every run of conditional writes and deletes from nodes without request
ids, two successful calls for one key and expected version are for the same
request, as long as the ids of the key stay apart when cut at a zero byte and no
version wraps. -/
theorem one_winner (shard : Bytes → ℕ) (metadata : MetadataRepository) (replicationFactor : ℕ)
    {disks : Bytes → Disk} (plain : ∀ id, Plain (disks id)) {s : Race}
    (reachable : (system shard metadata disks fun s act =>
      s.Proper replicationFactor act ∧ s.Uncut act ∧ Bounded act).Reachable s)
    {c c' : ℕ} {call call' : ConditionalCall} (first : s.calls[c]? = some call)
    (second : s.calls[c']? = some call') (key : call.request.key = call'.request.key)
    (version : call.request.expectedVersion = call'.request.expectedVersion)
    (won : Won call) (won' : Won call') :
    c = c' ∨ call.request.requestId ≠ [] ∧ call.request = call'.request := by
  have sound : s.Sound metadata.cluster replicationFactor := by
    apply reachable.invariant
    · rintro _ rfl
      exact sound_start metadata plain
    · rintro before _ _ sound ⟨act, ⟨proper, uncut, bounded⟩, rfl⟩
      exact sound.step proper uncut bounded
  obtain ⟨Q, majority, sent⟩ := (sound.calls c call first).won won
  obtain ⟨R, majority', sent'⟩ := (sound.calls c' call' second).won won'
  rw [← key] at majority'
  obtain ⟨id, inQ, inR⟩ := majority.meet majority'
  have here : s.requests[c]? = some call.request := by simp [Race.requests, first]
  have there : s.requests[c']? = some call'.request := by simp [Race.requests, second]
  rcases (sound.nodes id).single c c' _ _ (sent id inQ) (sent' id inR) here there ⟨key, version⟩ with
    same | ⟨given, same⟩
  · exact .inl same
  · exact .inr ⟨given, sound.identified _ (List.mem_of_getElem? here) _ (List.mem_of_getElem? there)
      given same⟩

section Sample

theorem plain_empty : Plain .empty where
  log := rfl
  rows := by rintro key row ⟨⟩

/-- Both nodes come up and store the first request; the second finds its row. -/
def inTurn (first second : ConditionalRequest) : List RaceAction :=
  let caller : Caller := ⟨[text "a", text "b"], ⟨2, 2⟩⟩
  let up (id : Bytes) := [.reopen, .clean, .truncate].map (RaceAction.node id)
  let store (id : Bytes) := List.replicate 5 (RaceAction.node id (.step 0))
  up (text "a") ++ up (text "b") ++
    [.invoke caller first, .serve 0 (text "a") 0, .serve 0 (text "b") 0] ++
    store (text "a") ++ store (text "b") ++ [.receive 0 0 .ok, .receive 0 1 .ok, .finish 0] ++
    [.invoke caller second, .serve 1 (text "a") 0, .serve 1 (text "b") 0,
      .receive 1 0 .ok, .receive 1 1 .ok, .finish 1]

def after (acts : List RaceAction) : Race :=
  acts.foldl (exec fun _ => 0) (start Traffic.pair.1 fun _ => .empty)

theorem after_reachable {allowed : Race → RaceAction → Prop} {acts : List RaceAction}
    (along : Along (exec fun _ => 0) allowed (start Traffic.pair.1 fun _ => .empty) acts) :
    (system (fun _ => 0) Traffic.pair.1 (fun _ => .empty) allowed).Reachable (after acts) :=
  (System.Reachable.start rfl).along along

/-- A request for the first version of `k`. -/
def firstVersion (data requestId : Bytes) : ConditionalRequest := ⟨Traffic.objectKey, data, 0, requestId⟩

def retried : List RaceAction := inTurn (firstVersion [1] (text "r")) (firstVersion [1] (text "r"))

/-- The ids are `a\0b` and `a`. -/
def collided : List RaceAction := inTurn (firstVersion [1] [97, 0, 98]) (firstVersion [2] [97])

end Sample

/-- A call and its retry both succeed. -/
theorem one_winner_retry :
    ∃ call call', (after retried).calls = [call, call'] ∧ Won call ∧ Won call' ∧
      call.request = call'.request := by
  obtain ⟨along, two, wins⟩ :
      Along (exec fun _ => 0) (fun s act => s.Proper 2 act ∧ s.Uncut act ∧ Bounded act)
          (start Traffic.pair.1 fun _ => .empty) retried ∧
        (after retried).calls.length = 2 ∧
        ∀ call ∈ (after retried).calls,
          Won call ∧ call.request.key = Traffic.objectKey ∧ call.request.expectedVersion = 0 := by
    decide +kernel
  obtain ⟨call, call', calls⟩ := List.length_eq_two.mp two
  rw [calls] at wins
  obtain ⟨won, key, version⟩ := wins call (by simp)
  obtain ⟨won', key', version'⟩ := wins call' (by simp)
  have first : (after retried).calls[0]? = some call := congrArg (·[0]?) calls
  have second : (after retried).calls[1]? = some call' := congrArg (·[1]?) calls
  have same := one_winner (fun _ => 0) Traffic.pair.1 2 (fun _ => plain_empty) (after_reachable along)
    first second (key.trans key'.symm) (version.trans version'.symm) won won'
  exact ⟨call, call', calls, won, won', (same.resolve_left Nat.zero_ne_one).2⟩

/-- The row of the first request reads back with the id of the second, which is
taken for a retry: both succeed. -/
theorem cut_id_wins_twice :
    (system (fun _ => 0) Traffic.pair.1 (fun _ => .empty) (Proper 2)).Reachable (after collided) ∧
      (after collided).requests = [firstVersion [1] [97, 0, 98], firstVersion [2] [97]] ∧
      ∀ call ∈ (after collided).calls, Won call := by
  obtain ⟨along, rest⟩ :
      Along (exec fun _ => 0) (Proper 2) (start Traffic.pair.1 fun _ => .empty) collided ∧
        (after collided).requests = [firstVersion [1] [97, 0, 98], firstVersion [2] [97]] ∧
        ∀ call ∈ (after collided).calls, Won call := by
    decide +kernel
  exact ⟨after_reachable along, rest⟩

end Race
end Dos.Network
