import DistributedObjectStorage.Consensus.RaftCluster

/-!
# Schedules

An action names the next critical section or failure; a message is named by its
place among those sent, the newest first. An action that the state does not
allow changes nothing, so every list of actions is a run.
-/
namespace Dos.Consensus

/-- The steps of the election thread of one node. -/
inductive ElectionAction where
  | start
  | receive (reply : ℕ)
  | lose (peer : Bytes)
  | finishRound
  | vote (contacted : Bool)
  | finish
  deriving DecidableEq, Repr

inductive Action where
  | restart (n : Bytes)
  | election (n : Bytes) (act : ElectionAction)
  | deliverVote (call : ℕ) (leaderless : Bool)
  | deliverAppend (call : ℕ)
  | propose (n command : Bytes)
  | replicate (n peer : Bytes) (term : ℕ)
  | receiveAppend (reply : ℕ)
  | loseAppend (n peer : Bytes)
  deriving DecidableEq, Repr

namespace Cluster

/-- Take the reply if it answers a request thread that still waits. -/
def acceptVote (c : Cluster) (n : Bytes) (round : VoteRound)
    (reply : VoteCall × RequestVoteResponse) : Cluster :=
  if reply.1 = ⟨round.id, n, reply.1.dst, round.req⟩ ∧ reply.1.dst ∈ round.waiting then
    c.receiveVote n reply.1.dst round reply.2
  else c

def electionStep (c : Cluster) (n : Bytes) : ElectionAction → Election → Cluster
  | .start, .idle => c.startElection n
  | .receive k, .voting round => (c.voteReplies[k]?).elim c (c.acceptVote n round)
  | .lose peer, .voting round => if peer ∈ round.waiting then c.loseVote n peer round else c
  | .finishRound, .voting round => if round.waiting = [] then c.finishRound n round else c
  | .vote contacted, .preVoteWon wouldBeTerm => c.startVote n wouldBeTerm contacted
  | .finish, .voteWon term => c.finishElection n term
  | _, _ => c

/-- Take the reply if the replication thread that called still waits. -/
def acceptAppend (g : Group) (c : Cluster) (reply : AppendCall × AppendEntriesResponse) :
    Cluster :=
  if reply.1.src ∈ g.members ∧ (c.nodes reply.1.src).sending reply.1.dst = some reply.1 then
    c.receiveAppend reply.1 reply.2
  else c

def exec (g : Group) (c : Cluster) : Action → Cluster
  | .restart n => if n ∈ g.members then c.restart n else c
  | .election n act => if n ∈ g.members then c.electionStep n act (c.nodes n).election else c
  | .deliverVote k leaderless => (c.voteCalls[k]?).elim c (c.deliverVote · leaderless)
  | .deliverAppend k => (c.appendCalls[k]?).elim c c.deliverAppend
  | .propose n command => if n ∈ g.members then c.propose n command else c
  | .replicate n peer term =>
      if n ∈ g.members ∧ peer ∈ g.peers n ∧ (c.nodes n).sending peer = none then
        c.replicate n peer term
      else c
  | .receiveAppend k => (c.appendReplies[k]?).elim c (acceptAppend g c)
  | .loseAppend n peer => if n ∈ g.members then c.loseAppend n peer else c

def run (g : Group) (acts : List Action) : Cluster := acts.foldl (exec g) (initial g)

variable {g : Group} {c c' : Cluster}

/-- What an action does. It does nothing when the state does not allow it. -/
inductive Performs (g : Group) (c : Cluster) : Action → Cluster → Prop
  | skip (act) : Performs g c act c
  | restart {n} : n ∈ g.members → Performs g c (.restart n) (c.restart n)
  | start {n} : n ∈ g.members → (c.nodes n).election = .idle →
      Performs g c (.election n .start) (c.startElection n)
  | receive {n k round peer resp} : n ∈ g.members → (c.nodes n).election = .voting round →
      peer ∈ round.waiting → (⟨round.id, n, peer, round.req⟩, resp) ∈ c.voteReplies →
      Performs g c (.election n (.receive k)) (c.receiveVote n peer round resp)
  | lose {n peer round} : n ∈ g.members → (c.nodes n).election = .voting round →
      peer ∈ round.waiting → Performs g c (.election n (.lose peer)) (c.loseVote n peer round)
  | finishRound {n round} : n ∈ g.members → (c.nodes n).election = .voting round →
      round.waiting = [] → Performs g c (.election n .finishRound) (c.finishRound n round)
  | vote {n wouldBeTerm} (contacted) : n ∈ g.members →
      (c.nodes n).election = .preVoteWon wouldBeTerm →
      Performs g c (.election n (.vote contacted)) (c.startVote n wouldBeTerm contacted)
  | finish {n term} : n ∈ g.members → (c.nodes n).election = .voteWon term →
      Performs g c (.election n .finish) (c.finishElection n term)
  | deliverVote {k call} (leaderless) : c.voteCalls[k]? = some call →
      Performs g c (.deliverVote k leaderless) (c.deliverVote call leaderless)
  | deliverAppend {k call} : c.appendCalls[k]? = some call →
      Performs g c (.deliverAppend k) (c.deliverAppend call)
  | propose {n} (command) : n ∈ g.members → Performs g c (.propose n command) (c.propose n command)
  | replicate {n peer} (term) : n ∈ g.members → peer ∈ g.peers n →
      (c.nodes n).sending peer = none → Performs g c (.replicate n peer term) (c.replicate n peer term)
  | receiveAppend {k call resp} : call.src ∈ g.members →
      (c.nodes call.src).sending call.dst = some call → c.appendReplies[k]? = some (call, resp) →
      Performs g c (.receiveAppend k) (c.receiveAppend call resp)
  | loseAppend {n} (peer) : n ∈ g.members → Performs g c (.loseAppend n peer) (c.loseAppend n peer)

theorem Performs.guard {act : Action} {p : Prop} [Decidable p] (step : p → Performs g c act c') :
    Performs g c act (if p then c' else c) := by
  by_cases h : p
  · rw [if_pos h]
    exact step h
  · rw [if_neg h]
    exact .skip act

theorem Performs.pick {act : Action} {α : Type} {xs : List α} {k : ℕ} {f : α → Cluster}
    (step : ∀ x, xs[k]? = some x → Performs g c act (f x)) :
    Performs g c act ((xs[k]?).elim c f) := by
  cases found : xs[k]? with
  | none => exact .skip act
  | some x => exact step x found

theorem electionStep_performs {n : Bytes} (hn : n ∈ g.members) (act : ElectionAction) :
    Performs g c (.election n act) (c.electionStep n act (c.nodes n).election) := by
  cases phase : (c.nodes n).election with
  | idle =>
      cases act with
      | start => exact .start hn phase
      | _ => exact .skip _
  | voting round =>
      cases act with
      | receive k =>
          refine .pick (fun reply found => .guard (fun ok => ?_))
          obtain ⟨call, resp⟩ := reply
          have sent := List.mem_of_getElem? found
          exact .receive hn phase ok.2 (ok.1 ▸ sent)
      | lose peer => exact .guard (fun waits => .lose hn phase waits)
      | finishRound => exact .guard (fun done => .finishRound hn phase done)
      | _ => exact .skip _
  | preVoteWon wouldBeTerm =>
      cases act with
      | vote contacted => exact .vote contacted hn phase
      | _ => exact .skip _
  | voteWon term =>
      cases act with
      | finish => exact .finish hn phase
      | _ => exact .skip _

theorem exec_performs (g : Group) (c : Cluster) (act : Action) : Performs g c act (exec g c act) := by
  cases act with
  | restart n => exact .guard (fun hn => .restart hn)
  | election n act => exact .guard (fun hn => electionStep_performs hn act)
  | deliverVote k leaderless => exact .pick (fun call found => .deliverVote leaderless found)
  | deliverAppend k => exact .pick (fun call found => .deliverAppend found)
  | propose n command => exact .guard (fun hn => .propose command hn)
  | replicate n peer term => exact .guard (fun ok => .replicate term ok.1 ok.2.1 ok.2.2)
  | receiveAppend k =>
      exact .pick (fun reply found => .guard (fun ok => .receiveAppend ok.1 ok.2 found))
  | loseAppend n peer => exact .guard (fun hn => .loseAppend peer hn)

/-- An action is a step of the group, or it was not allowed. -/
def Allowed (g : Group) (c c' : Cluster) : Prop := c' = c ∨ Step g c c'

theorem Performs.allowed {act : Action} (h : Performs g c act c') : Allowed g c c' := by
  cases h with
  | skip => exact .inl rfl
  | restart hn => exact .inr (.restart hn)
  | start hn idle => exact .inr (.startElection hn idle)
  | receive hn running waits sent => exact .inr (.receiveVote hn running waits sent)
  | lose hn running waits => exact .inr (.loseVote hn running waits)
  | finishRound hn running done => exact .inr (.finishRound hn running done)
  | vote contacted hn won => exact .inr (.startVote contacted hn won)
  | finish hn won => exact .inr (.finishElection hn won)
  | deliverVote leaderless found => exact .inr (.deliverVote leaderless (List.mem_of_getElem? found))
  | deliverAppend found => exact .inr (.deliverAppend (List.mem_of_getElem? found))
  | propose command hn => exact .inr (.propose command hn)
  | replicate term hn hp free => exact .inr (.replicate term hn hp free)
  | receiveAppend hn waits found => exact .inr (.receiveAppend hn waits (List.mem_of_getElem? found))
  | loseAppend peer hn => exact .inr (.loseAppend hn)

theorem exec_allowed (g : Group) (c : Cluster) (act : Action) : Allowed g c (exec g c act) :=
  (exec_performs g c act).allowed

theorem Reachable.exec (h : Reachable g c) (act : Action) : Reachable g (c.exec g act) := by
  rcases exec_allowed g c act with same | step
  · rw [same]
    exact h
  · exact h.next step

theorem steps_foldl (g : Group) (c : Cluster) (acts : List Action) :
    Relation.ReflTransGen (Step g) c (acts.foldl (exec g) c) := by
  induction acts generalizing c with
  | nil => exact .refl
  | cons act rest ih =>
      rcases exec_allowed g c act with same | step
      · rw [List.foldl_cons, same]
        exact ih c
      · exact .head step (ih _)

theorem run_steps (g : Group) (acts more : List Action) :
    Relation.ReflTransGen (Step g) (run g acts) (run g (acts ++ more)) := by
  rw [run, run, List.foldl_append]
  exact steps_foldl g _ more

theorem run_reachable (g : Group) (acts : List Action) : Reachable g (run g acts) :=
  Transition.System.Reachable.many (.start rfl) (steps_foldl g (initial g) acts)

end Cluster

/-! ## Building blocks of schedules for three nodes -/

def alpha : Bytes := [97]
def beta : Bytes := [98]
def gamma : Bytes := [99]

def trio : Group where
  members := [alpha, beta, gamma]
  peers := fun n => [alpha, beta, gamma].filter (· ≠ n)
  nodup := by decide
  named := by decide
  peers_nodup := fun n _ => List.Pairwise.filter _ (by decide)
  mem_peers := fun n _ p => by simp

/-- A whole election of `n`: in both rounds the peer at place `voter` answers
and the request to `other` is lost. -/
def campaign (n : Bytes) (voter : ℕ) (other : Bytes) : List Action :=
  let round := [.deliverVote voter true, .election n (.receive 0), .election n (.lose other),
    .election n .finishRound]
  .election n .start :: round ++ .election n (.vote false) :: round ++ [.election n .finish]

/-- One exchange of the replication thread of `n` for one peer. -/
def ship (n peer : Bytes) (term : ℕ) : List Action :=
  [.replicate n peer term, .deliverAppend 0, .receiveAppend 0]

end Dos.Consensus
