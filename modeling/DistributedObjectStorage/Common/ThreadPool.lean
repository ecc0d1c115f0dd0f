import Mathlib.Data.List.Perm.Subperm
import DistributedObjectStorage.Common.Status
import DistributedObjectStorage.Library.Transition

/-!
# The worker pool

Submitters, workers and callers of `Shutdown` meet under one mutex. A step is
one section under it, the run of one task, or one join. A worker that waits on
the condition variable may wake at any time; it goes on only when its predicate
holds.
-/
namespace Dos
open Transition

/-- Where a worker stands: before its section, inside a task, or out of its loop. -/
inductive Worker where
  | idle
  | running (task : ℕ)
  | exited
  deriving DecidableEq, Repr

def Worker.task : Worker → Option ℕ
  | .running task => some task
  | _ => none

/-- A call of `Shutdown` past its section, with the number of workers joined. -/
inductive ShutdownCall where
  | joining (joined : ℕ)
  | returned
  deriving DecidableEq, Repr

/-- The workers that the call has joined are out of their loops. -/
def ShutdownCall.Joined (workers : List Worker) : ShutdownCall → Prop
  | .joining joined => ∀ worker ∈ workers.take joined, worker = .exited
  | .returned => ∀ worker ∈ workers, worker = .exited

section Workers
variable {workers : List Worker} {k : ℕ} {before : Worker}

theorem Worker.tasks_cons (worker : Worker) (workers : List Worker) :
    ((worker :: workers).filterMap Worker.task).Perm
      (workers.filterMap Worker.task ++ worker.task.toList) := by
  rw [← List.singleton_append, List.filterMap_append]
  have own : [worker].filterMap Worker.task = worker.task.toList := by
    cases worker <;> rfl
  rw [own]
  exact List.perm_append_comm

/-- One worker changes what it does. -/
theorem Worker.tasks_set (found : workers[k]? = some before) (after : Worker) :
    ((workers.set k after).filterMap Worker.task ++ before.task.toList).Perm
      (workers.filterMap Worker.task ++ after.task.toList) := by
  obtain ⟨inside, rfl⟩ := List.getElem?_eq_some_iff.mp found
  have new := ((List.set_perm_cons_eraseIdx inside after).filterMap Worker.task).trans (Worker.tasks_cons ..)
  have old := ((List.getElem_cons_eraseIdx_perm inside).symm.filterMap Worker.task).trans (Worker.tasks_cons ..)
  refine (new.append_right _).trans (.trans ?_ (old.symm.append_right _))
  rw [List.append_assoc, List.append_assoc]
  exact List.perm_append_comm.append_left _

theorem Worker.exited_of_mem_set {after : Worker} (busy : after ≠ .exited)
    (member : .exited ∈ workers.set k after) : .exited ∈ workers := by
  rcases List.mem_or_eq_of_mem_set member with old | new
  · exact old
  · exact absurd new.symm busy

/-- A worker that still works is none that was joined. -/
theorem ShutdownCall.Joined.set {call : ShutdownCall} (joined : call.Joined workers)
    (found : workers[k]? = some before) (busy : before ≠ .exited) (after : Worker) :
    call.Joined (workers.set k after) := by
  cases call with
  | returned => exact absurd (joined before (List.mem_of_getElem? found)) busy
  | joining count =>
      have later : count ≤ k := by
        by_contra early
        have member : before ∈ workers.take count := by
          apply List.mem_of_getElem? (i := k)
          rw [List.getElem?_take_of_lt (Nat.lt_of_not_le early)]
          exact found
        exact busy (joined before member)
      intro worker member
      rw [List.take_set_of_le later] at member
      exact joined worker member

end Workers

/-- A task is named by the number of its `Submit`. The answers to all submitters
and the tasks started and run are written by the steps and never read. -/
structure ThreadPool where
  maxQueueSize : ℕ
  queue : List ℕ
  stopping : Bool
  workers : List Worker
  completed : ℕ
  rejected : ℕ
  failed : ℕ
  shutdowns : List ShutdownCall
  answers : List Status
  started : List ℕ
  ran : List ℕ

inductive PoolAction where
  | submit
  | fetch (worker : ℕ)
  | run (worker : ℕ) (throws : Bool)
  | shutdown
  | join (call : ℕ)
  deriving DecidableEq, Repr

namespace ThreadPool

def create (numThreads maxQueueSize : ℕ) : ThreadPool where
  maxQueueSize := max 1 maxQueueSize
  queue := []
  stopping := false
  workers := List.replicate (max 1 numThreads) .idle
  completed := 0
  rejected := 0
  failed := 0
  shutdowns := []
  answers := []
  started := []
  ran := []

def submit (p : ThreadPool) : ThreadPool × Status :=
  if p.stopping then
    ({ p with rejected := p.rejected + 1 }, .unavailable (text "thread pool is shutting down"))
  else if p.maxQueueSize ≤ p.queue.length then
    ({ p with rejected := p.rejected + 1 }, .unavailable (text "task queue is full"))
  else ({ p with queue := p.queue ++ [p.answers.length] }, .success)

/-- The section of a worker: it blocks, leaves its loop or takes a task. -/
def fetch (p : ThreadPool) (k : ℕ) : ThreadPool :=
  match p.workers[k]? with
  | some .idle =>
      match p.queue with
      | [] => if p.stopping then { p with workers := p.workers.set k .exited } else p
      | task :: rest =>
          { p with
            queue := rest
            workers := p.workers.set k (.running task)
            started := p.started ++ [task] }
  | _ => p

/-- A task that throws counts as failed; the worker goes on. -/
def run (p : ThreadPool) (k : ℕ) (throws : Bool) : ThreadPool :=
  match p.workers[k]? with
  | some (.running task) =>
      { p with
        workers := p.workers.set k .idle
        completed := if throws then p.completed else p.completed + 1
        failed := if throws then p.failed + 1 else p.failed
        ran := p.ran ++ [task] }
  | _ => p

/-- Only the first call goes on to join the workers. -/
def shutdown (p : ThreadPool) : ThreadPool :=
  if p.stopping then { p with shutdowns := p.shutdowns ++ [.returned] }
  else { p with stopping := true, shutdowns := p.shutdowns ++ [.joining 0] }

/-- The next join blocks until its worker is out of the loop. -/
def join (p : ThreadPool) (k : ℕ) : ThreadPool :=
  match p.shutdowns[k]? with
  | some (.joining joined) =>
      match p.workers[joined]? with
      | none => { p with shutdowns := p.shutdowns.set k .returned }
      | some .exited => { p with shutdowns := p.shutdowns.set k (.joining (joined + 1)) }
      | some _ => p
  | _ => p

def exec (p : ThreadPool) : PoolAction → ThreadPool
  | .submit => { p.submit.1 with answers := p.answers ++ [p.submit.2] }
  | .fetch k => p.fetch k
  | .run k throws => p.run k throws
  | .shutdown => p.shutdown
  | .join k => p.join k

/-- Workers and the owner give no answers, and only a worker with a task runs one. -/
theorem exec_frame (p : ThreadPool) {act : PoolAction} (other : act ≠ .submit)
    (idle : ∀ k throws, act ≠ .run k throws) : (p.exec act).answers = p.answers ∧ (p.exec act).ran = p.ran := by
  cases act with
  | submit => exact absurd rfl other
  | fetch k =>
      simp only [exec, fetch]
      split
      · split
        · split <;> exact ⟨rfl, rfl⟩
        · exact ⟨rfl, rfl⟩
      · exact ⟨rfl, rfl⟩
  | run k throws => exact absurd rfl (idle k throws)
  | shutdown =>
      simp only [exec, shutdown]
      split <;> exact ⟨rfl, rfl⟩
  | join k =>
      simp only [exec, join]
      split
      · split <;> exact ⟨rfl, rfl⟩
      · exact ⟨rfl, rfl⟩

/-- Only `Submit` gives answers. -/
theorem exec_answers (p : ThreadPool) {act : PoolAction} (other : act ≠ .submit) :
    (p.exec act).answers = p.answers := by
  cases act with
  | run k throws =>
      simp only [exec, run]
      split <;> rfl
  | _ => exact (p.exec_frame other (by simp)).1

/-- Only a worker with a task runs one. -/
theorem exec_ran (p : ThreadPool) {act : PoolAction} (other : ∀ k throws, act ≠ .run k throws) :
    (p.exec act).ran = p.ran := by
  cases act with
  | submit =>
      simp only [exec, submit]
      split
      · rfl
      · split <;> rfl
  | _ => exact (p.exec_frame (by simp) other).2

theorem run_ran {p : ThreadPool} {k task : ℕ} (working : p.workers[k]? = some (.running task)) (throws : Bool) :
    (p.exec (.run k throws)).ran = p.ran ++ [task] := by
  simp only [exec, run, working]

def system (numThreads maxQueueSize : ℕ) : System ThreadPool :=
  .guarded exec (fun _ _ => True) (create numThreads maxQueueSize)

/-- The tasks whose submitters were told Ok, in submission order. -/
def accepted (p : ThreadPool) : List ℕ :=
  (List.range p.answers.length).filter fun task => p.answers[task]? = some .success

theorem accepted_nodup (p : ThreadPool) : p.accepted.Nodup := List.nodup_range.filter _

theorem mem_accepted {p : ThreadPool} {task : ℕ} :
    task ∈ p.accepted ↔ p.answers[task]? = some .success := by
  simp only [accepted, List.mem_filter, List.mem_range, decide_eq_true_eq, and_iff_right_iff_imp]
  intro found
  exact (List.getElem?_eq_some_iff.mp found).1

/-- A new answer decides about the newest task alone. -/
theorem accepted_answer {p q : ThreadPool} {status : Status} (answers : q.answers = p.answers ++ [status]) :
    q.accepted = p.accepted ++ if status = .success then [p.answers.length] else [] := by
  unfold accepted
  rw [answers, List.length_append, List.length_singleton, List.range_succ, List.filter_append]
  congr 1
  · apply List.filter_congr
    intro task below
    rw [List.getElem?_append_left (List.mem_range.mp below)]
  · by_cases ok : status = .success <;> simp [ok]

/-! ## The accounts -/

/-- Every accepted task is queued, running or done, and each of these is known
to exactly one of the parties. -/
structure Accounted (limit : ℕ) (p : ThreadPool) : Prop where
  limit : p.maxQueueSize = limit
  bounded : p.queue.length ≤ p.maxQueueSize
  fifo : p.accepted = p.started ++ p.queue
  inFlight : p.started.Perm (p.ran ++ p.workers.filterMap Worker.task)
  counted : p.completed + p.failed = p.ran.length
  staffed : p.workers ≠ []
  drained : .exited ∈ p.workers → p.stopping = true ∧ p.queue = []
  joinless : p.shutdowns = [] ↔ p.stopping = false
  joined : ∀ call, p.shutdowns[0]? = some call → call.Joined p.workers

section Steps
variable {limit : ℕ} {p : ThreadPool}

theorem Accounted.create (numThreads maxQueueSize : ℕ) :
    Accounted (max 1 maxQueueSize) (create numThreads maxQueueSize) where
  limit := rfl
  bounded := Nat.zero_le _
  fifo := rfl
  inFlight := by
    have none : (List.replicate (max 1 numThreads) Worker.idle).filterMap Worker.task = [] := by
      simp [List.filterMap_replicate, Worker.task]
    simp [ThreadPool.create, none]
  counted := rfl
  staffed := by
    simp only [ThreadPool.create, ne_eq, List.replicate_eq_nil_iff]
    omega
  drained := by
    intro member
    cases List.eq_of_mem_replicate member
  joinless := Iff.of_eq (by simp [ThreadPool.create])
  joined := by
    intro call none
    cases none

variable (h : p.Accounted limit)
include h

/-- A refusal changes nothing but the counter. -/
theorem Accounted.refuse {status : Status} (refused : status ≠ .success) (n : ℕ) :
    Accounted limit { p with rejected := n, answers := p.answers ++ [status] } :=
  { h with
    fifo := by
      rw [accepted_answer (p := p) rfl, if_neg refused, List.append_nil]
      exact h.fifo }

theorem Accounted.submit : (p.exec .submit).Accounted limit := by
  unfold exec ThreadPool.submit
  by_cases stopping : p.stopping = true
  · simp only [if_pos stopping]
    exact h.refuse (by decide) _
  · simp only [if_neg stopping]
    by_cases full : p.maxQueueSize ≤ p.queue.length
    · simp only [if_pos full]
      exact h.refuse (by decide) _
    · simp only [if_neg full]
      have bounded : (p.queue ++ [p.answers.length]).length ≤ p.maxQueueSize := by
        rw [List.length_append, List.length_singleton]
        exact Nat.lt_of_not_le full
      have fifo {q : ThreadPool} (answers : q.answers = p.answers ++ [.success]) :
          q.accepted = p.started ++ (p.queue ++ [p.answers.length]) := by
        rw [accepted_answer answers, if_pos rfl, h.fifo, List.append_assoc]
      exact { h with
        bounded := bounded
        fifo := fifo rfl
        drained := fun out => absurd (h.drained out).1 stopping }

/-- A worker that leaves its loop had nothing left to take. -/
theorem Accounted.leave {k : ℕ} (found : p.workers[k]? = some .idle)
    (empty : p.queue = []) (stopping : p.stopping = true) :
    Accounted limit { p with workers := p.workers.set k .exited } := by
  have same := Worker.tasks_set found .exited
  simp only [Worker.task, Option.toList_none, List.append_nil] at same
  exact { h with
    inFlight := h.inFlight.trans (same.symm.append_left _)
    staffed := by simpa using h.staffed
    drained := fun _ => ⟨stopping, empty⟩
    joined := fun call first => (h.joined call first).set found (by decide) .exited }

theorem Accounted.take {k : ℕ} (found : p.workers[k]? = some .idle) {task : ℕ}
    {rest : List ℕ} (queued : p.queue = task :: rest) :
    Accounted limit { p with
      queue := rest
      workers := p.workers.set k (.running task)
      started := p.started ++ [task] } := by
  have bounded := h.bounded
  have fifo := h.fifo
  rw [queued] at bounded fifo
  have taken := Worker.tasks_set found (.running task)
  simp only [Worker.task, Option.toList_none, Option.toList_some, List.append_nil] at taken
  have inFlight : (p.started ++ [task]).Perm
      (p.ran ++ (p.workers.set k (.running task)).filterMap Worker.task) := by
    refine (h.inFlight.append_right [task]).trans ?_
    rw [List.append_assoc]
    exact taken.symm.append_left _
  exact { h with
    bounded := Nat.le_of_succ_le bounded
    fifo := by
      change p.accepted = _
      rw [fifo, List.append_assoc, List.singleton_append]
    inFlight := inFlight
    staffed := by simpa using h.staffed
    drained := by
      intro out
      have drained := h.drained (Worker.exited_of_mem_set (by simp) out)
      rw [queued] at drained
      cases drained.2
    joined := fun call first => (h.joined call first).set found (by decide) (.running task) }

theorem Accounted.fetch (k : ℕ) : (p.fetch k).Accounted limit := by
  unfold ThreadPool.fetch
  split
  · next found =>
      split
      · next empty =>
          split
          · next stopping => exact h.leave found empty stopping
          · exact h
      · next queued => exact h.take found queued
  · exact h

theorem Accounted.run (k : ℕ) (throws : Bool) : (p.run k throws).Accounted limit := by
  unfold ThreadPool.run
  split
  · next task found =>
      have done := Worker.tasks_set found .idle
      simp only [Worker.task, Option.toList_none, Option.toList_some, List.append_nil] at done
      have inFlight : p.started.Perm (p.ran ++ [task] ++ (p.workers.set k .idle).filterMap Worker.task) := by
        refine (h.inFlight.trans (done.symm.append_left _)).trans ?_
        rw [List.append_assoc]
        exact List.perm_append_comm.append_left _
      exact { h with
        inFlight := inFlight
        counted := by
          have counted := h.counted
          rw [List.length_append, List.length_singleton]
          cases throws <;> simp <;> omega
        staffed := by simpa using h.staffed
        drained := fun out => h.drained (Worker.exited_of_mem_set (by decide) out)
        joined := fun call first => (h.joined call first).set found (by simp) .idle }
  · exact h

theorem Accounted.shutdown : p.shutdown.Accounted limit := by
  unfold ThreadPool.shutdown
  split
  · next stopping =>
      -- The first call is an earlier one.
      have earlier : p.shutdowns ≠ [] := by
        intro none
        cases stopping.symm.trans (h.joinless.mp none)
      exact { h with
        joinless := by simp [stopping]
        joined := by
          intro call first
          rw [List.getElem?_append_left (List.length_pos_iff.mpr earlier)] at first
          exact h.joined call first }
  · next running =>
      have none := h.joinless.mpr (Bool.eq_false_iff.mpr running)
      exact { h with
        drained := fun out => absurd (h.drained out).1 running
        joinless := by simp
        joined := by
          intro call first
          rw [none] at first
          cases first
          intro worker member
          cases member }

/-- A call of `Shutdown` goes on when it has joined as many workers as it says. -/
theorem Accounted.advance {k : ℕ} {before after : ShutdownCall}
    (found : p.shutdowns[k]? = some before) (next : before.Joined p.workers → after.Joined p.workers) :
    Accounted limit { p with shutdowns := p.shutdowns.set k after } :=
  { h with
    joinless := by simpa using h.joinless
    joined := by
      intro call first
      cases k with
      | zero =>
          rw [List.getElem?_set_self (List.getElem?_eq_some_iff.mp found).1, Option.some.injEq] at first
          rw [← first]
          exact next (h.joined before found)
      | succ k =>
          rw [List.getElem?_set_ne (Nat.succ_ne_zero k)] at first
          exact h.joined call first }

theorem Accounted.join (k : ℕ) : (p.join k).Accounted limit := by
  unfold ThreadPool.join
  split
  · next joined found =>
      split
      · next past =>
          apply h.advance found
          intro all worker member
          apply all
          rwa [List.take_of_length_le (List.getElem?_eq_none_iff.mp past)]
      · next out =>
          apply h.advance found
          intro all worker member
          rw [List.take_add_one, out, Option.toList_some, List.mem_append, List.mem_singleton] at member
          rcases member with earlier | last
          · exact all worker earlier
          · exact last
      · exact h
  · exact h

theorem Accounted.exec (act : PoolAction) : (p.exec act).Accounted limit := by
  cases act with
  | submit => exact h.submit
  | fetch k => exact h.fetch k
  | run k throws => exact h.run k throws
  | shutdown => exact h.shutdown
  | join k => exact h.join k

end Steps

section Runs
variable {numThreads maxQueueSize limit : ℕ} {p : ThreadPool}

theorem Accounted.of_reachable (reachable : (system numThreads maxQueueSize).Reachable p) :
    p.Accounted (max 1 maxQueueSize) := by
  apply reachable.invariant
  · intro p initial
    rw [show p = ThreadPool.create numThreads maxQueueSize from initial]
    exact .create numThreads maxQueueSize
  · intro p p' _ h step
    obtain ⟨act, _, rfl⟩ := step
    exact h.exec act

section Settled
variable (h : p.Accounted limit)
include h

/-- What was accepted is queued, running, completed or failed. -/
theorem Accounted.balance :
    p.queue.length + (p.workers.filterMap Worker.task).length + p.completed + p.failed =
      p.accepted.length := by
  have started := h.inFlight.length_eq
  have counted := h.counted
  rw [h.fifo]
  simp only [List.length_append] at started ⊢
  omega

theorem Accounted.started_nodup : p.started.Nodup := by
  have all := p.accepted_nodup
  rw [h.fifo] at all
  exact (List.nodup_append.mp all).1

theorem Accounted.ran_subperm : p.ran.Subperm p.started :=
  (List.sublist_append_left ..).subperm.trans h.inFlight.symm.subperm

/-- A task that was started was accepted. -/
theorem Accounted.answer_of_started {task : ℕ} (started : task ∈ p.started) :
    p.answers[task]? = some .success := by
  apply mem_accepted.mp
  rw [h.fifo]
  exact List.mem_append_left _ started

/-- After the last join no task is queued and none is running. -/
theorem Accounted.drained_of_returned (first : p.shutdowns[0]? = some .returned) :
    p.queue = [] ∧ p.workers.filterMap Worker.task = [] := by
  have out : ∀ worker ∈ p.workers, worker = .exited := h.joined .returned first
  constructor
  · obtain ⟨worker, member⟩ := List.exists_mem_of_ne_nil _ h.staffed
    rw [out worker member] at member
    exact (h.drained member).2
  · apply List.filterMap_eq_nil_iff.mpr
    intro worker member
    rw [out worker member]
    rfl

end Settled

/-- The queue stays within its bound. Tasks are started in submission order,
each at most once, and none that was refused. Once the first `Shutdown` has
returned, every accepted task has run exactly once and is counted. -/
theorem accepted_run_once (reachable : (system numThreads maxQueueSize).Reachable p) :
    p.queue.length ≤ max 1 maxQueueSize ∧
      p.started <+: p.accepted ∧ p.started.Nodup ∧ p.ran.Subperm p.started ∧
      (∀ (task : ℕ) (status : Status), p.answers[task]? = some status → status.code = .unavailable →
        task ∉ p.started ∧ task ∉ p.ran) ∧
      (p.shutdowns[0]? = some .returned →
        p.ran.Perm p.accepted ∧ p.ran.Nodup ∧ p.completed + p.failed = p.accepted.length) := by
  have h := Accounted.of_reachable reachable
  refine ⟨h.limit ▸ h.bounded, ⟨p.queue, h.fifo.symm⟩, h.started_nodup, h.ran_subperm, ?_, ?_⟩
  · intro task status answer refused
    have idle : task ∉ p.started := by
      intro started
      have ok := h.answer_of_started started
      rw [answer, Option.some.injEq] at ok
      rw [ok] at refused
      cases refused
    exact ⟨idle, fun ran => idle (h.ran_subperm.subset ran)⟩
  · intro first
    obtain ⟨empty, quiet⟩ := h.drained_of_returned first
    have all : p.ran.Perm p.accepted := by
      have started := h.inFlight
      rw [quiet, List.append_nil] at started
      rw [h.fifo, empty, List.append_nil]
      exact started.symm
    have balance := h.balance
    simp only [empty, quiet, List.length_nil, Nat.zero_add] at balance
    exact ⟨all, all.nodup_iff.mpr p.accepted_nodup, balance⟩

/-- Two workers and a queue of two: the third task finds it full, the first one
throws and a fourth comes after `Shutdown`. -/
def draining : List PoolAction :=
  [.submit, .submit, .submit, .fetch 1, .fetch 0, .run 1 true, .fetch 1, .shutdown, .submit, .fetch 1,
    .join 0, .run 0 false, .fetch 0, .join 0, .join 0, .join 0]

theorem accepted_run_once_draining :
    (draining.foldl exec (create 2 2)).ran = [0, 1] ∧
      (draining.foldl exec (create 2 2)).ran.Perm (draining.foldl exec (create 2 2)).accepted ∧
      2 ∉ (draining.foldl exec (create 2 2)).ran := by
  have reachable : (system 2 2).Reachable (draining.foldl exec (create 2 2)) :=
    System.Reachable.along (.start rfl) (.of_forall (fun _ _ _ => trivial) _)
  obtain ⟨_, _, _, _, refused, returned⟩ := accepted_run_once reachable
  exact ⟨by decide, (returned (by decide)).1, (refused 2 _ rfl rfl).2⟩

end Runs
end ThreadPool
end Dos
