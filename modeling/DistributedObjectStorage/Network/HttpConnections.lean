import Mathlib.Data.List.Nodup
import DistributedObjectStorage.Common.ThreadPool
import DistributedObjectStorage.Network.HttpServer

/-!
# Connections of the HTTP server

The accept loop hands a connection to the pool, or serves it itself when the
pool refuses. A worker catches what a task throws; nothing catches what leaves
the accept thread, and the process ends. Nothing limits the time that a read or a
write takes, and SIGPIPE has its default effect.
-/
namespace Dos.Network.HttpServer
open Scanning Transition

/-! ## One connection -/

/-- If the line announces a length, it is a number. -/
def Countable (row : Bytes) : Prop :=
  ∀ name value, headerField row = some (name, value) → isContentLength name = true → Numeric value

/-- Every announcement of a length in the header block is a number. -/
def Answerable (arrived : Bytes) : Prop :=
  ∀ headerEnd, find blankLine arrived = some headerEnd →
    ∀ row ∈ ((lines 10 (arrived.take headerEnd)).map dropCr).drop 1, Countable row

theorem contentLengthStep_ok_iff {row : Bytes} (n : ℕ) :
    (∃ m, contentLengthStep n row = .ok m) ↔ Countable row := by
  unfold contentLengthStep
  split
  · next name value field =>
      by_cases length : isContentLength name = true
      · rw [if_pos length, stoul_ok_iff]
        constructor
        · intro numeric name' value' field' _
          cases field.symm.trans field'
          exact numeric
        · exact fun all => all name value field length
      · rw [if_neg length]
        refine ⟨fun _ name' value' field' length' => ?_, fun _ => ⟨n, rfl⟩⟩
        cases field.symm.trans field'
        exact absurd length' length
  · next none =>
      refine ⟨fun _ name value field => ?_, fun _ => ⟨n, rfl⟩⟩
      cases none.symm.trans field

theorem foldlM_ok_iff {rows : List Bytes} (n : ℕ) :
    (∃ m, rows.foldlM contentLengthStep n = .ok m) ↔ ∀ row ∈ rows, Countable row := by
  induction rows generalizing n with
  | nil => exact ⟨fun _ _ none => absurd none List.not_mem_nil, fun _ => ⟨n, rfl⟩⟩
  | cons row rows ih =>
      rw [List.foldlM_cons, List.forall_mem_cons, ← contentLengthStep_ok_iff n]
      cases step : contentLengthStep n row with
      | error error =>
          constructor
          · rintro ⟨m, ok⟩
            cases ok
          · rintro ⟨⟨m, ok⟩, -⟩
            cases ok
      | ok m =>
          change (∃ m', rows.foldlM contentLengthStep m = .ok m') ↔ _
          rw [ih m]
          exact ⟨fun rest => ⟨⟨m, rfl⟩, rest⟩, fun both => both.2⟩

theorem parseHead_ok_iff {head : Bytes} :
    (∃ parsed, parseHead head = .ok parsed) ↔
      ∀ row ∈ ((lines 10 head).map dropCr).drop 1, Countable row := by
  rw [← foldlM_ok_iff 0]
  unfold parseHead
  dsimp only
  cases (((lines 10 head).map dropCr).drop 1).foldlM contentLengthStep 0 with
  | error error =>
      constructor
      · rintro ⟨parsed, ok⟩
        cases ok
      · rintro ⟨m, ok⟩
        cases ok
  | ok m => exact ⟨fun _ => ⟨m, rfl⟩, fun _ => ⟨_, rfl⟩⟩

/-- What becomes of the response: it is taken or refused, its reader is gone and the
write raises SIGPIPE, or nobody reads it and the write does not return. -/
inductive Peer where
  | takes | gone | stalls
  deriving DecidableEq, Repr

/-- After the last block `read` returns the end or an error if the connection ends,
and does not return otherwise. -/
structure Connection extends Socket where
  ends : Bool
  peer : Peer

/-- What `ServeConnection` does in the end: close the descriptor and return, let an
exception out, wait for ever, or end the process by a signal. -/
inductive Outcome where
  | closes | throws | hangs | killed
  deriving DecidableEq, Repr

/-- The length of the body according to the header block. -/
def announced (arrived : Bytes) : ℕ :=
  match find blankLine arrived with
  | none => 0
  | some headerEnd => ((parseHead (arrived.take headerEnd)).toOption.map Prod.snd).getD 0

/-- Without a blank line, and with a body that is too short, there was a read after
the last block. -/
def outcome (handler : HttpRequest → HttpResponse) (c : Connection) : Outcome :=
  match serveConnection handler c.toSocket with
  | .closed => if c.ends then .closes else .hangs
  | .threw _ => .throws
  | .answered req _ =>
      if req.body.length < announced c.arrived ∧ c.ends = false then .hangs
      else match c.peer with
        | .takes => .closes
        | .gone => .killed
        | .stalls => .hangs

/-- The header block has arrived, and the body that it announces. -/
def Complete (arrived : Bytes) : Prop :=
  ∃ headerEnd, find blankLine arrived = some headerEnd ∧
    ∀ req n, parseHead (arrived.take headerEnd) = .ok (req, n) → headerEnd + 4 + n ≤ arrived.length

/-- There is a request for the handler. -/
def HasRequest (arrived : Bytes) : Prop :=
  ∃ headerEnd parsed, find blankLine arrived = some headerEnd ∧ parseHead (arrived.take headerEnd) = .ok parsed

/-- The client sends what it announces or ends its side, and lets the server write. -/
structure Connection.Finishes (c : Connection) : Prop where
  sent : c.ends = true ∨ Complete c.arrived
  written : HasRequest c.arrived → c.peer ≠ .stalls

section Outcomes
variable {handler : HttpRequest → HttpResponse} {c : Connection} {headerEnd : ℕ}

theorem outcome_absent (absent : find blankLine c.arrived = none) :
    outcome handler c = if c.ends then .closes else .hangs := by
  rw [outcome, serveConnection_absent absent]

theorem outcome_threw (found : find blankLine c.arrived = some headerEnd) {error : StoulError}
    (threw : parseHead (c.arrived.take headerEnd) = .error error) : outcome handler c = .throws := by
  have inside : ¬ c.arrived.length < headerEnd + 4 := Nat.not_lt_of_le (find_le found)
  rw [outcome, serveConnection_found found List.prefix_rfl, if_neg inside, threw]

/-- The body is short exactly when too few bytes arrive, whatever the blocks. -/
theorem outcome_parsed (found : find blankLine c.arrived = some headerEnd) {req : HttpRequest} {n : ℕ}
    (parsed : parseHead (c.arrived.take headerEnd) = .ok (req, n)) :
    outcome handler c =
      if c.arrived.length < headerEnd + 4 + n ∧ c.ends = false then .hangs
      else match c.peer with
        | .takes => .closes
        | .gone => .killed
        | .stalls => .hangs := by
  have head : headerEnd + 4 ≤ c.arrived.length := find_le found
  have length : announced c.arrived = n := by simp [announced, found, parsed, Except.toOption]
  have few := (readUntil_nil_start (fun s => decide (headerEnd + 4 + n ≤ s.length)) c.reads).length_le
  have enough (all : headerEnd + 4 + n ≤ c.arrived.length) := le_length_readUntil Nat.le.refl all
  have short : ((readUntil (fun s => decide (headerEnd + 4 + n ≤ s.length)) [] c.reads).1.drop
      (headerEnd + 4)).length < n ↔ c.arrived.length < headerEnd + 4 + n := by
    change _ ≤ c.arrived.length at few
    rw [List.length_drop]
    constructor
    · intro less
      by_contra all
      have := enough (Nat.le_of_not_lt all)
      omega
    · omega
  rw [outcome, serveConnection_found found List.prefix_rfl, if_neg (Nat.not_lt_of_le head), parsed]
  simp only [length, short]

/-- Whether the function returns depends on the bytes that arrive and on the client,
and not on the blocks or the handler. -/
theorem outcome_hangs_iff : outcome handler c ≠ .hangs ↔ c.Finishes := by
  cases found : find blankLine c.arrived with
  | none =>
      have nothing : ¬Complete c.arrived := by
        rintro ⟨_, here, -⟩
        cases found.symm.trans here
      rw [outcome_absent found]
      constructor
      · intro returns
        refine ⟨.inl ?_, ?_⟩
        · by_contra never
          exact returns (if_neg never)
        · rintro ⟨_, _, here, -⟩
          cases found.symm.trans here
      · intro finishes
        rw [if_pos (finishes.sent.resolve_right nothing)]
        exact Outcome.noConfusion
  | some headerEnd =>
      cases parsed : parseHead (c.arrived.take headerEnd) with
      | error error =>
          rw [outcome_threw found parsed]
          refine ⟨fun _ => ⟨.inr ⟨headerEnd, found, fun req n ok => ?_⟩, ?_⟩, fun _ => Outcome.noConfusion⟩
          · cases parsed.symm.trans ok
          · rintro ⟨_, _, here, ok⟩
            cases found.symm.trans here
            cases parsed.symm.trans ok
      | ok pair =>
          obtain ⟨req, n⟩ := pair
          have request : HasRequest c.arrived := ⟨headerEnd, _, found, parsed⟩
          have complete : Complete c.arrived ↔ headerEnd + 4 + n ≤ c.arrived.length := by
            simp [Complete, found, parsed]
          rw [outcome_parsed found parsed]
          constructor
          · intro returns
            by_cases waits : c.arrived.length < headerEnd + 4 + n ∧ c.ends = false
            · exact absurd (if_pos waits) returns
            · rw [if_neg waits] at returns
              refine ⟨?_, fun _ stalls => by simp [stalls] at returns⟩
              rw [complete]
              by_cases all : headerEnd + 4 + n ≤ c.arrived.length
              · exact .inr all
              · exact .inl (Bool.not_eq_false _ |>.mp fun never => waits ⟨Nat.lt_of_not_le all, never⟩)
          · intro finishes
            have waits : ¬(c.arrived.length < headerEnd + 4 + n ∧ c.ends = false) := by
              rintro ⟨less, never⟩
              rcases finishes.sent with ends | all
              · cases ends.symm.trans never
              · exact Nat.not_lt_of_le (complete.mp all) less
            have written := finishes.written request
            rw [if_neg waits]
            cases peer : c.peer <;> simp_all

theorem outcome_closes_iff : outcome handler c = .closes ↔
    c.Finishes ∧ Answerable c.arrived ∧ (HasRequest c.arrived → c.peer ≠ .gone) := by
  rw [← @outcome_hangs_iff handler c]
  cases found : find blankLine c.arrived with
  | none =>
      rw [outcome_absent found]
      have answerable : Answerable c.arrived := fun _ here => by cases found.symm.trans here
      have nothing : ¬HasRequest c.arrived := by
        rintro ⟨_, _, here, -⟩
        cases found.symm.trans here
      cases c.ends <;> simp [answerable, nothing]
  | some headerEnd =>
      have answerable : Answerable c.arrived ↔ ∃ parsed, parseHead (c.arrived.take headerEnd) = .ok parsed := by
        rw [parseHead_ok_iff, Answerable, found]
        simp
      cases parsed : parseHead (c.arrived.take headerEnd) with
      | error error =>
          rw [outcome_threw found parsed, answerable, parsed]
          simp
      | ok pair =>
          obtain ⟨req, n⟩ := pair
          have request : HasRequest c.arrived := ⟨headerEnd, _, found, parsed⟩
          rw [outcome_parsed found parsed, answerable, parsed]
          split
          · simp
          · cases c.peer <;> simp [request]

end Outcomes

/-! ## The process -/

/-- The accepted connections are numbered, and the number of a connection is its
descriptor and the number of the task that serves it. The accept thread may be
stuck in a connection. The connections served and the descriptors closed are written
by the steps and never read. -/
structure Process where
  pool : ThreadPool
  connections : List Connection
  stuck : Option ℕ
  served : List ℕ
  closed : List ℕ
  terminated : Bool

inductive ServerAction where
  | accept (c : Connection)
  | fetch (worker : ℕ)
  | run (worker : ℕ)
  | shutdown
  | join (call : ℕ)

namespace Process

def create (numThreads maxQueueSize : ℕ) : Process where
  pool := .create numThreads maxQueueSize
  connections := []
  stuck := none
  served := []
  closed := []
  terminated := false

/-- What the end of `ServeConnection` leaves behind. -/
def conclude (s : Process) (fd : ℕ) (out : Outcome) : Process :=
  { s with
    served := s.served ++ [fd]
    closed := if out = .closes then s.closed ++ [fd] else s.closed }

variable (handler : HttpRequest → HttpResponse)

/-- A turn of the accept loop. An exception that leaves the accept thread ends
the process. -/
def accept (s : Process) (c : Connection) : Process :=
  let s' := { s with pool := s.pool.exec .submit, connections := s.connections ++ [c] }
  if s.pool.submit.2.isOk then s'
  else
    let out := outcome handler c
    if out = .hangs then { s' with stuck := some s.connections.length }
    else { s'.conclude s.connections.length out with terminated := out ≠ .closes }

/-- A worker serves the connection of its task and catches an exception. -/
def run (s : Process) (k : ℕ) : Process :=
  match s.pool.workers[k]? with
  | some (.running fd) =>
      match s.connections[fd]? with
      | some c =>
          let out := outcome handler c
          if out = .hangs then s
          else { s.conclude fd out with pool := s.pool.exec (.run k (out = .throws)), terminated := out = .killed }
      | none => s
  | _ => s

/-- `Shutdown` joins the accept thread before it turns to the pool. -/
def exec (s : Process) (act : ServerAction) : Process :=
  if s.terminated then s
  else match act with
    | .accept c => if s.stuck = none then s.accept handler c else s
    | .fetch k => { s with pool := s.pool.exec (.fetch k) }
    | .run k => s.run handler k
    | .shutdown => if s.stuck = none then { s with pool := s.pool.exec .shutdown } else s
    | .join k => { s with pool := s.pool.exec (.join k) }

def system (numThreads maxQueueSize : ℕ) : System Process :=
  .guarded (exec handler) (fun _ _ => True) (create numThreads maxQueueSize)

/-- The thread of every connection that is being served gets to its end, every one
that was served is closed, once, no other one is, and the process goes on. -/
structure Contained (s : Process) : Prop where
  alive : s.terminated = false
  accepting : s.stuck = none
  finishes : ∀ k fd, s.pool.workers[k]? = some (.running fd) → fd ∈ (s.exec handler (.run k)).served
  closedOnce : ∀ fd ∈ s.served, s.closed.count fd = 1
  others : ∀ fd, fd ∉ s.served → fd ∉ s.closed

/-- `ServeConnection` has been called. -/
def Begun (s : Process) (fd : ℕ) : Prop :=
  fd ∈ s.served ∨ .running fd ∈ s.pool.workers ∨ s.stuck = some fd

/-- The connection closes its descriptor in the end. -/
def closes (s : Process) (fd : ℕ) : Bool := (s.connections[fd]?).any fun c => outcome handler c = .closes

/-! ## What the steps keep -/

/-- Every connection is served at most once, and closed as the function says. -/
structure Settled (s : Process) : Prop where
  known : ∀ fd ∈ s.served, fd < s.connections.length
  nodup : s.served.Nodup
  closed : s.closed = s.served.filter (s.closes handler)
  ended : s.terminated = true → ∃ fd ∈ s.served, s.closes handler fd = false
  waiting : ∀ fd, s.stuck = some fd → ∃ c, s.connections[fd]? = some c ∧ outcome handler c = .hangs

/-- A connection is served by a worker, or by the accept loop after a refusal. -/
structure Tracked (limit : ℕ) (s : Process) : Prop extends Settled handler s where
  pool : s.pool.Accounted limit
  numbered : s.connections.length = s.pool.answers.length
  origin : ∀ fd ∈ s.served, fd ∈ s.pool.ran ∨ fd ∉ s.pool.accepted

section Steps
variable {handler} {limit : ℕ} {s : Process} {fd : ℕ} {c : Connection}

theorem Settled.connect (h : Settled handler s) (c : Connection) :
    Settled handler { s with connections := s.connections ++ [c] } := by
  have same : ∀ fd ∈ s.served, closes handler { s with connections := s.connections ++ [c] } fd =
      s.closes handler fd := by
    intro fd member
    rw [closes, closes, List.getElem?_append_left (h.known fd member)]
  refine ⟨?_, h.nodup, ?_, ?_, ?_⟩
  · intro fd member
    rw [List.length_append]
    exact Nat.lt_add_right _ (h.known fd member)
  · exact h.closed.trans (List.filter_congr fun fd member => (same fd member).symm)
  · intro terminated
    obtain ⟨fd, member, open'⟩ := h.ended terminated
    exact ⟨fd, member, (same fd member).trans open'⟩
  · intro fd waits
    obtain ⟨other, found, hangs⟩ := h.waiting fd waits
    refine ⟨other, ?_, hangs⟩
    rw [List.getElem?_append_left (List.getElem?_eq_some_iff.mp found).1]
    exact found

theorem closes_of_found (found : s.connections[fd]? = some c) :
    s.closes handler fd = decide (outcome handler c = .closes) := by
  rw [closes, found]
  rfl

theorem Settled.conclude (h : Settled handler s) (found : s.connections[fd]? = some c) (fresh : fd ∉ s.served)
    (terminated : Bool) (ended : terminated = true → outcome handler c ≠ .closes) :
    Settled handler { s.conclude fd (outcome handler c) with terminated := terminated } := by
  refine ⟨?_, ?_, ?_, ?_, h.waiting⟩
  · intro fd' member
    rcases List.mem_append.mp member with earlier | new
    · exact h.known fd' earlier
    · rw [List.mem_singleton.mp new]
      exact (List.getElem?_eq_some_iff.mp found).1
  · exact List.nodup_append.mpr ⟨h.nodup, by simp, by
      rintro a member b new rfl
      exact fresh (List.mem_singleton.mp new ▸ member)⟩
  · change (if _ then s.closed ++ [fd] else s.closed) = (s.served ++ [fd]).filter (s.closes handler)
    rw [List.filter_append, ← h.closed]
    by_cases closing : outcome handler c = .closes <;> simp [closing, closes_of_found found]
  · intro now
    refine ⟨fd, List.mem_append_right _ List.mem_cons_self, ?_⟩
    exact (closes_of_found found).trans (decide_eq_false (ended now))

theorem Tracked.create (numThreads maxQueueSize : ℕ) :
    Tracked handler (max 1 maxQueueSize) (create numThreads maxQueueSize) where
  known := List.forall_mem_nil _
  nodup := List.nodup_nil
  closed := rfl
  ended := nofun
  waiting := nofun
  pool := .create numThreads maxQueueSize
  numbered := rfl
  origin := List.forall_mem_nil _

theorem accepted_exec (p : ThreadPool) {act : PoolAction} (other : act ≠ .submit) :
    (p.exec act).accepted = p.accepted := by
  rw [ThreadPool.accepted, p.exec_answers other]
  rfl

/-- Only the newest task is accepted by a call of `Submit`. -/
theorem mem_accepted_submit {p : ThreadPool} {task : ℕ} (accepted : task ∈ (p.exec .submit).accepted) :
    task ∈ p.accepted ∨ task = p.answers.length ∧ p.submit.2 = .success := by
  rw [ThreadPool.accepted_answer (p := p) rfl, List.mem_append] at accepted
  rcases accepted with earlier | new
  · exact .inl earlier
  · split at new
    · next ok => exact .inr ⟨List.mem_singleton.mp new, ok⟩
    · cases new

/-- A worker gets to the end of its connection exactly when that one ends. -/
theorem mem_served_run {k : ℕ} (working : s.pool.workers[k]? = some (.running fd))
    (found : s.connections[fd]? = some c) (fresh : fd ∉ s.served) :
    fd ∈ (s.run handler k).served ↔ outcome handler c ≠ .hangs := by
  unfold Process.run
  simp only [working, found]
  split
  · next hangs => exact ⟨fun member => absurd member fresh, fun returns => absurd hangs returns⟩
  · next returns => exact ⟨fun _ => returns, fun _ => List.mem_append_right _ List.mem_cons_self⟩

variable (h : Tracked handler limit s)
include h

/-- A step of the pool alone. -/
theorem Tracked.quiet {act : PoolAction} (other : act ≠ .submit)
    (idle : ∀ k throws, act ≠ .run k throws) : Tracked handler limit { s with pool := s.pool.exec act } := by
  refine { h with pool := h.pool.exec act, numbered := ?_, origin := ?_ }
  · rw [s.pool.exec_answers other]
    exact h.numbered
  · rw [s.pool.exec_ran idle, accepted_exec _ other]
    exact h.origin

/-- The answer to a connection changes nothing for those that were served. -/
theorem Tracked.origin_submit :
    ∀ fd ∈ s.served, fd ∈ (s.pool.exec .submit).ran ∨ fd ∉ (s.pool.exec .submit).accepted := by
  intro fd member
  rw [s.pool.exec_ran (by simp)]
  refine (h.origin fd member).imp_right fun refused accepted => ?_
  rcases mem_accepted_submit accepted with earlier | ⟨new, -⟩
  · exact refused earlier
  · have known := h.known fd member
    rw [new, h.numbered] at known
    exact Nat.lt_irrefl _ known

theorem Tracked.accept (c : Connection) : Tracked handler limit (s.accept handler c) := by
  have numbered : (s.connections ++ [c]).length = (s.pool.exec .submit).answers.length := by
    change _ = (s.pool.answers ++ [s.pool.submit.2]).length
    rw [List.length_append, List.length_append, h.numbered]
    rfl
  have settled := h.toSettled.connect c
  have fresh : s.connections.length ∉ s.served := fun member => Nat.lt_irrefl _ (h.known _ member)
  have found : (s.connections ++ [c])[s.connections.length]? = some c := by simp
  unfold Process.accept
  dsimp only
  split
  · exact { settled with pool := h.pool.submit, numbered := numbered, origin := h.origin_submit }
  · next refused =>
      split
      · next hangs =>
          refine { settled with pool := h.pool.submit, numbered := numbered, origin := h.origin_submit, waiting := ?_ }
          rintro _ ⟨⟩
          exact ⟨c, found, hangs⟩
      · have concluded := settled.conclude found fresh (decide (outcome handler c ≠ .closes)) (by simp)
        refine { concluded with pool := h.pool.submit, numbered := numbered, origin := ?_ }
        intro fd member
        rcases List.mem_append.mp member with earlier | new
        · exact h.origin_submit fd earlier
        · refine .inr fun accepted => ?_
          rw [List.mem_singleton.mp new] at accepted
          rcases mem_accepted_submit accepted with earlier | ⟨-, ok⟩
          · have known := (List.getElem?_eq_some_iff.mp (ThreadPool.mem_accepted.mp earlier)).1
            rw [h.numbered] at known
            exact Nat.lt_irrefl _ known
          · rw [ok] at refused
            exact refused rfl

/-- The task of a worker was accepted and has not run before. -/
theorem Tracked.fresh_of_running {k : ℕ} (found : s.pool.workers[k]? = some (.running fd)) :
    fd < s.connections.length ∧ fd ∉ s.served := by
  have working : fd ∈ s.pool.workers.filterMap Worker.task :=
    List.mem_filterMap.mpr ⟨.running fd, List.mem_of_getElem? found, rfl⟩
  have started : fd ∈ s.pool.started := h.pool.inFlight.mem_iff.mpr (List.mem_append_right _ working)
  have answer := h.pool.answer_of_started started
  have once := h.pool.inFlight.nodup_iff.mp h.pool.started_nodup
  refine ⟨h.numbered ▸ (List.getElem?_eq_some_iff.mp answer).1, fun member => ?_⟩
  rcases h.origin fd member with ran | refused
  · exact (List.nodup_append.mp once).2.2 fd ran fd working rfl
  · exact refused (ThreadPool.mem_accepted.mpr answer)

theorem Tracked.run (k : ℕ) : Tracked handler limit (s.run handler k) := by
  unfold Process.run
  split
  · next fd working =>
      split
      · next c found =>
          dsimp only
          split
          · exact h
          · have concluded := h.toSettled.conclude found (h.fresh_of_running working).2
              (decide (outcome handler c = .killed)) (by simp +contextual)
            refine { concluded with pool := h.pool.exec (.run k _), numbered := ?_, origin := ?_ }
            · rw [s.pool.exec_answers (by simp)]
              exact h.numbered
            · intro fd' member
              rw [ThreadPool.run_ran working, accepted_exec _ (by simp), List.mem_append]
              rcases List.mem_append.mp member with earlier | new
              · exact (h.origin fd' earlier).imp_left .inl
              · exact .inl (.inr new)
      · exact h
  · exact h

theorem Tracked.exec (act : ServerAction) : Tracked handler limit (s.exec handler act) := by
  unfold Process.exec
  split
  · exact h
  · cases act with
    | accept c =>
        dsimp only
        split
        · exact h.accept c
        · exact h
    | fetch k => exact h.quiet (by simp) (by simp)
    | run k => exact h.run k
    | shutdown =>
        dsimp only
        split
        · exact h.quiet (by simp) (by simp)
        · exact h
    | join k => exact h.quiet (by simp) (by simp)

/-- What a contained process has served ends by closing. -/
theorem Tracked.closing (contained : s.Contained handler) (found : s.connections[fd]? = some c)
    (member : fd ∈ s.served) : outcome handler c = .closes := by
  have closed : fd ∈ s.closed := List.count_pos_iff.mp (by rw [contained.closedOnce fd member]; decide)
  rw [h.closed] at closed
  have closing := (List.mem_filter.mp closed).2
  rw [closes_of_found found] at closing
  exact of_decide_eq_true closing

end Steps

theorem reachable_tracked {handler : HttpRequest → HttpResponse} {numThreads maxQueueSize : ℕ} {s : Process}
    (reachable : (system handler numThreads maxQueueSize).Reachable s) :
    Tracked handler (max 1 maxQueueSize) s := by
  apply reachable.invariant
  · intro s initial
    rw [show s = create numThreads maxQueueSize from initial]
    exact .create numThreads maxQueueSize
  · intro s s' _ h step
    obtain ⟨act, -, rfl⟩ := step
    exact h.exec act

/-- Over every run, with any saturation of the pool: the connections are contained
precisely when the client of each one that is or was served lets the server finish,
and each one that was served announced its length by numbers and has waited for the
response. -/
theorem contained_iff {handler : HttpRequest → HttpResponse} {numThreads maxQueueSize : ℕ} {s : Process}
    (reachable : (system handler numThreads maxQueueSize).Reachable s) :
    s.Contained handler ↔ ∀ fd c, s.connections[fd]? = some c → (s.Begun fd → c.Finishes) ∧
      (fd ∈ s.served → Answerable c.arrived ∧ (HasRequest c.arrived → c.peer ≠ .gone)) := by
  have h := reachable_tracked reachable
  have turn (alive : s.terminated = false) (k : ℕ) : s.exec handler (.run k) = s.run handler k := by
    simp [exec, alive]
  constructor
  · intro contained fd c found
    have ends (member : fd ∈ s.served) := outcome_closes_iff.mp (h.closing contained found member)
    refine ⟨?_, fun member => (ends member).2⟩
    rintro (member | running | waits)
    · exact (ends member).1
    · obtain ⟨k, working⟩ := List.mem_iff_getElem?.mp running
      have ends := contained.finishes k fd working
      rw [turn contained.alive] at ends
      exact outcome_hangs_iff.mp ((mem_served_run working found (h.fresh_of_running working).2).mp ends)
    · cases contained.accepting.symm.trans waits
  · intro all
    have closing : ∀ fd ∈ s.served, s.closes handler fd = true := by
      intro fd member
      have found := List.getElem?_eq_getElem (h.known fd member)
      obtain ⟨finishes, rest⟩ := all fd _ found
      rw [closes_of_found found]
      exact decide_eq_true (outcome_closes_iff.mpr ⟨finishes (.inl member), rest member⟩)
    have closed : s.closed = s.served := h.closed.trans (List.filter_eq_self.mpr closing)
    have alive : s.terminated = false := by
      by_contra terminated
      obtain ⟨fd, member, left⟩ := h.ended (by simpa using terminated)
      cases left.symm.trans (closing fd member)
    refine ⟨alive, ?_, ?_, ?_, ?_⟩
    · cases waits : s.stuck with
      | none => rfl
      | some fd =>
          obtain ⟨c, found, hangs⟩ := h.waiting fd waits
          exact absurd hangs (outcome_hangs_iff.mpr ((all fd c found).1 (.inr (.inr waits))))
    · intro k fd working
      obtain ⟨known, fresh⟩ := h.fresh_of_running working
      have found := List.getElem?_eq_getElem known
      have finishes := (all fd _ found).1 (.inr (.inl (List.mem_of_getElem? working)))
      rw [turn alive]
      exact (mem_served_run working found fresh).mpr (outcome_hangs_iff.mpr finishes)
    · intro fd member
      rw [closed]
      exact List.count_eq_one_of_mem h.nodup member
    · intro fd other
      rw [closed]
      exact other

/-- The upload of a client that keeps the connection open for its answer. -/
def patient : Connection := { inTwoBlocks with ends := false, peer := .takes }

/-- A request whose length is no number. -/
def badLength : Connection where
  reads := [text "PUT /objects/k HTTP/1.1" ++ crlf ++ text "Content-Length: x" ++ blankLine]
  nonempty := by decide +kernel
  fits := by decide +kernel
  ends := true
  peer := .takes

/-- One worker and a queue of one: the first connection waits when the second
comes, and the third finds the queue empty again. -/
def threeConnections (second : Connection) : List ServerAction :=
  [.accept patient, .accept second, .fetch 0, .run 0, .accept patient, .fetch 0, .run 0]

/-- A server with one worker and a queue of one. -/
def after (acts : List ServerAction) : Process := acts.foldl (exec fun _ => {}) (create 1 1)

theorem contained_threeConnections :
    (after (threeConnections patient)).served = [1, 0, 2] ∧
      (after (threeConnections patient)).Contained fun _ => {} := by
  have reachable : (system (fun _ => {}) 1 1).Reachable (after (threeConnections patient)) :=
    System.Reachable.along (.start rfl) (.of_forall (fun _ _ _ => trivial) _)
  refine ⟨by decide +kernel, (contained_iff reachable).mpr ?_⟩
  intro fd c found
  have same : c = patient := by
    have all : (after (threeConnections patient)).connections = [patient, patient, patient] := rfl
    rw [all] at found
    simpa using List.mem_of_getElem? found
  obtain ⟨finishes, rest⟩ := outcome_closes_iff.mp (show outcome (fun _ => {}) patient = .closes by decide +kernel)
  rw [same]
  exact ⟨fun _ => finishes, fun _ => rest⟩

/-- On the accept thread the exception ends the process; in a worker it leaves the
connection open. -/
theorem badLength_not_contained :
    ((after (threeConnections badLength)).terminated = true ∧
        ¬(after (threeConnections badLength)).Contained fun _ => {}) ∧
      (after [.accept badLength, .fetch 0, .run 0]).served = [0] ∧
      (after [.accept badLength, .fetch 0, .run 0]).closed = [] ∧
      ¬(after [.accept badLength, .fetch 0, .run 0]).Contained fun _ => {} := by
  have ended : (after (threeConnections badLength)).terminated = true := by decide +kernel
  have served : (after [.accept badLength, .fetch 0, .run 0]).served = [0] := by decide +kernel
  have closed : (after [.accept badLength, .fetch 0, .run 0]).closed = [] := by decide +kernel
  refine ⟨⟨ended, fun contained => ?_⟩, served, closed, fun contained => ?_⟩
  · cases ended.symm.trans contained.alive
  · have once := contained.closedOnce 0 (served ▸ List.mem_cons_self)
    rw [closed] at once
    cases once

end Process
end Dos.Network.HttpServer
