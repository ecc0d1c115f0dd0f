import DistributedObjectStorage.Consensus.RaftNode
import DistributedObjectStorage.Library.Transition

/-!
# A Raft group under an asynchronous network

Requests and replies are never removed once sent, so a delivery may be late,
out of order or repeated, and a message that is never delivered is lost. A
reply answers one particular call and reaches only the thread that made it.
Crashing and restarting is one step: between the two a node does nothing.
-/
namespace Dos.Consensus
open Transition

structure VoteCall where
  id : ℕ
  src : Bytes
  dst : Bytes
  req : RequestVoteRequest
  deriving DecidableEq, Repr

structure AppendCall where
  id : ℕ
  src : Bytes
  dst : Bytes
  req : AppendEntriesRequest
  deriving DecidableEq, Repr

/-- A running `WinVoteRound`: the peers whose threads have not finished, and
the peers counted. The source's `votes` is one more than the latter. -/
structure VoteRound where
  id : ℕ
  req : RequestVoteRequest
  waiting : List Bytes
  granted : List Bytes
  deriving DecidableEq, Repr

def VoteRound.votes (r : VoteRound) : ℕ := 1 + r.granted.length

/-- Where the election thread stands inside `StartElection`. -/
inductive Election where
  | idle
  | voting (round : VoteRound)
  | preVoteWon (wouldBeTerm : ℕ)
  | voteWon (term : ℕ)
  deriving DecidableEq, Repr

/-- A running node with the locals of its threads: the election thread, and for
each peer the call its replication thread is waiting on. -/
structure Process where
  node : RaftNode
  election : Election
  sending : Bytes → Option AppendCall

def Process.boot (config : RaftConfig) (storage : DurableState) : Process where
  node := RaftNode.create config storage
  election := .idle
  sending := fun _ => none

/-- What a run shows to an observer. Steps write it and never read it. -/
inductive Event where
  | becameLeader (node : Bytes) (term : ℕ) (log : List LogEntry)
  | advancedCommit (node : Bytes) (term commitIndex : ℕ) (log : List LogEntry)
  | crashed (node : Bytes) (applied : List LogEntry)
  deriving DecidableEq, Repr

structure Cluster where
  nodes : Bytes → Process
  voteCalls : List VoteCall
  voteReplies : List (VoteCall × RequestVoteResponse)
  appendCalls : List AppendCall
  appendReplies : List (AppendCall × AppendEntriesResponse)
  nextId : ℕ
  history : List Event

/-- Distinct non-empty ids, and every node's peers are the rest of the group. -/
structure Group where
  members : List Bytes
  peers : Bytes → List Bytes
  nodup : members.Nodup
  named : [] ∉ members
  peers_nodup : ∀ n ∈ members, (peers n).Nodup
  mem_peers : ∀ n ∈ members, ∀ p, p ∈ peers n ↔ p ∈ members ∧ p ≠ n

def Group.config (g : Group) (n : Bytes) : RaftConfig := ⟨n, g.peers n⟩

namespace Cluster

def initial (g : Group) : Cluster where
  nodes := fun n => Process.boot (g.config n) .empty
  voteCalls := []
  voteReplies := []
  appendCalls := []
  appendReplies := []
  nextId := 0
  history := []

def setProcess (c : Cluster) (n : Bytes) (p : Process) : Cluster :=
  { c with nodes := Function.update c.nodes n p }

def setNode (c : Cluster) (n : Bytes) (node : RaftNode) : Cluster :=
  c.setProcess n { c.nodes n with node := node }

def setElection (c : Cluster) (n : Bytes) (e : Election) : Cluster :=
  c.setProcess n { c.nodes n with election := e }

/-- The commit advance of a leader, when the section made one. -/
def commitEvents (n : Bytes) (before after : RaftNode) : List Event :=
  if before.commitIndex < after.commitIndex then
    [.advancedCommit n after.currentTerm after.commitIndex after.log]
  else []

def restart (c : Cluster) (n : Bytes) : Cluster :=
  let p := c.nodes n
  { c.setProcess n (Process.boot p.node.config p.node.storage) with
    history := .crashed n p.node.applied :: c.history }

/-- Enter `WinVoteRound`: one request thread for each peer. -/
def openRound (c : Cluster) (n : Bytes) (node : RaftNode) (req : RequestVoteRequest) : Cluster :=
  let p := c.nodes n
  let round : VoteRound := ⟨c.nextId, req, node.config.peers, []⟩
  { c.setProcess n { p with node := node, election := .voting round } with
    voteCalls := (node.config.peers.map fun peer => ⟨c.nextId, n, peer, req⟩) ++ c.voteCalls
    nextId := c.nextId + 1 }

/-- Phase one of `StartElection`: a trial round at the next term. -/
def startElection (c : Cluster) (n : Bytes) : Cluster :=
  let node := (c.nodes n).node
  if node.role = .leader then c
  else c.openRound n node (node.voteRequest (node.currentTerm + 1) true)

/-- A request thread of `WinVoteRound` received its reply. -/
def receiveVote (c : Cluster) (n peer : Bytes) (round : VoteRound) (resp : RequestVoteResponse) :
    Cluster :=
  let p := c.nodes n
  let (node, counted) := p.node.countVote round.req resp
  c.setProcess n
    { p with
      node := node
      election := .voting
        { round with
          waiting := round.waiting.erase peer
          granted := if counted then peer :: round.granted else round.granted } }

/-- A request thread of `WinVoteRound` gave up on its peer. -/
def loseVote (c : Cluster) (n peer : Bytes) (round : VoteRound) : Cluster :=
  c.setElection n (.voting { round with waiting := round.waiting.erase peer })

/-- All request threads joined: the round is won or the election is over. -/
def finishRound (c : Cluster) (n : Bytes) (round : VoteRound) : Cluster :=
  c.setElection n <|
    if (c.nodes n).node.majorityLocked ≤ round.votes then
      if round.req.preVote then .preVoteWon round.req.term else .voteWon round.req.term
    else .idle

/-- Phase two of `StartElection`. `contacted` says that a leader made contact
within the election window. -/
def startVote (c : Cluster) (n : Bytes) (wouldBeTerm : ℕ) (contacted : Bool) : Cluster :=
  let node := (c.nodes n).node
  if node.role = .leader ∨ node.currentTerm + 1 ≠ wouldBeTerm ∨ contacted then
    c.setElection n .idle
  else
    let node := node.becomeCandidate
    c.openRound n node (node.voteRequest node.currentTerm false)

/-- The end of `StartElection` after a won round. -/
def finishElection (c : Cluster) (n : Bytes) (term : ℕ) : Cluster :=
  let p := c.nodes n
  if p.node.role = .candidate ∧ p.node.currentTerm = term then
    { c.setProcess n { p with node := p.node.becomeLeaderLocked, election := .idle } with
      history := .becameLeader n p.node.currentTerm p.node.log :: c.history }
  else c.setElection n .idle

def deliverVote (c : Cluster) (call : VoteCall) (leaderless : Bool) : Cluster :=
  let (node, resp) := (c.nodes call.dst).node.handleRequestVote call.req leaderless
  { c.setNode call.dst node with voteReplies := (call, resp) :: c.voteReplies }

def deliverAppend (c : Cluster) (call : AppendCall) : Cluster :=
  let (node, resp) := (c.nodes call.dst).node.handleAppendEntries call.req
  { c.setNode call.dst node with appendReplies := (call, resp) :: c.appendReplies }

def propose (c : Cluster) (n command : Bytes) : Cluster :=
  let before := (c.nodes n).node
  let after := (before.propose command).1
  { c.setNode n after with history := commitEvents n before after ++ c.history }

/-- The send half of `ReplicateTo`, for a term its loop read earlier. -/
def replicate (c : Cluster) (n peer : Bytes) (term : ℕ) : Cluster :=
  let p := c.nodes n
  match p.node.replicateRequest peer term with
  | none => c
  | some req =>
      let call : AppendCall := ⟨c.nextId, n, peer, req⟩
      { c.setProcess n { p with sending := Function.update p.sending peer (some call) } with
        appendCalls := call :: c.appendCalls
        nextId := c.nextId + 1 }

/-- The reply half of `ReplicateTo`. -/
def receiveAppend (c : Cluster) (call : AppendCall) (resp : AppendEntriesResponse) : Cluster :=
  let p := c.nodes call.src
  let after := p.node.replicateReply call.dst call.req resp
  { c.setProcess call.src
      { p with node := after, sending := Function.update p.sending call.dst none } with
    history := commitEvents call.src p.node after ++ c.history }

/-- The transport gave up on the call of one replication thread. -/
def loseAppend (c : Cluster) (n peer : Bytes) : Cluster :=
  let p := c.nodes n
  c.setProcess n { p with sending := Function.update p.sending peer none }

/-- One critical section of one node, or one failure. -/
inductive Step (g : Group) : Cluster → Cluster → Prop
  | restart {c n} : n ∈ g.members → Step g c (c.restart n)
  | startElection {c n} : n ∈ g.members → (c.nodes n).election = .idle →
      Step g c (c.startElection n)
  | receiveVote {c n peer round resp} : n ∈ g.members → (c.nodes n).election = .voting round →
      peer ∈ round.waiting → (⟨round.id, n, peer, round.req⟩, resp) ∈ c.voteReplies →
      Step g c (c.receiveVote n peer round resp)
  | loseVote {c n peer round} : n ∈ g.members → (c.nodes n).election = .voting round →
      peer ∈ round.waiting → Step g c (c.loseVote n peer round)
  | finishRound {c n round} : n ∈ g.members → (c.nodes n).election = .voting round →
      round.waiting = [] → Step g c (c.finishRound n round)
  | startVote {c n wouldBeTerm} (contacted : Bool) : n ∈ g.members →
      (c.nodes n).election = .preVoteWon wouldBeTerm → Step g c (c.startVote n wouldBeTerm contacted)
  | finishElection {c n term} : n ∈ g.members → (c.nodes n).election = .voteWon term →
      Step g c (c.finishElection n term)
  | deliverVote {c call} (leaderless : Bool) : call ∈ c.voteCalls →
      Step g c (c.deliverVote call leaderless)
  | deliverAppend {c call} : call ∈ c.appendCalls → Step g c (c.deliverAppend call)
  | propose {c n} (command : Bytes) : n ∈ g.members → Step g c (c.propose n command)
  | replicate {c n peer} (term : ℕ) : n ∈ g.members → peer ∈ g.peers n →
      (c.nodes n).sending peer = none → Step g c (c.replicate n peer term)
  | receiveAppend {c call resp} : call.src ∈ g.members →
      (c.nodes call.src).sending call.dst = some call → (call, resp) ∈ c.appendReplies →
      Step g c (c.receiveAppend call resp)
  | loseAppend {c n peer} : n ∈ g.members → Step g c (c.loseAppend n peer)

def system (g : Group) : System Cluster where
  init := fun c => c = initial g
  step := Step g

/-- The states of all runs of the group. -/
abbrev Reachable (g : Group) (c : Cluster) : Prop := (system g).Reachable c

/-! ## One node through a step -/

/-- What a step can leave of a node: the outcome of one of its critical sections,
or the node as it was. -/
inductive Ran (c : Cluster) (n : Bytes) : RaftNode → Prop
  | nothing : Ran c n (c.nodes n).node
  | restart : Ran c n (RaftNode.create (c.nodes n).node.config (c.nodes n).node.storage)
  | countVote (req : RequestVoteRequest) (resp : RequestVoteResponse) :
      Ran c n ((c.nodes n).node.countVote req resp).1
  | becomeCandidate : Ran c n (c.nodes n).node.becomeCandidate
  | becomeLeader : (c.nodes n).node.role = .candidate → Ran c n (c.nodes n).node.becomeLeaderLocked
  | handleRequestVote (req : RequestVoteRequest) (leaderless : Bool) :
      Ran c n ((c.nodes n).node.handleRequestVote req leaderless).1
  | handleAppendEntries (req : AppendEntriesRequest) : Ran c n ((c.nodes n).node.handleAppendEntries req).1
  | propose (command : Bytes) : Ran c n ((c.nodes n).node.propose command).1
  | replicateReply (peer : Bytes) (req : AppendEntriesRequest) (resp : AppendEntriesResponse) :
      Ran c n ((c.nodes n).node.replicateReply peer req resp)

/-- Seen from one node, a step is a section of its own or of another one. -/
theorem Ran.update {c c' : Cluster} {v : Bytes} {p : Process} (nodes : c'.nodes = Function.update c.nodes v p)
    (ran : Ran c v p.node) (n : Bytes) : Ran c n (c'.nodes n).node := by
  rw [nodes]
  by_cases same : n = v
  · subst same
    rw [Function.update_self]
    exact ran
  · rw [Function.update_of_ne same]
    exact .nothing

/-- Only the locals of a thread have changed. -/
theorem Ran.locals {c c' : Cluster} {v : Bytes} {e : Election} {sending : Bytes → Option AppendCall}
    (nodes : c'.nodes = Function.update c.nodes v ⟨(c.nodes v).node, e, sending⟩) (n : Bytes) :
    Ran c n (c'.nodes n).node :=
  .update nodes .nothing n

theorem Step.ran {g : Group} {c c' : Cluster} (step : Step g c c') (n : Bytes) : Ran c n (c'.nodes n).node := by
  cases step with
  | restart hv => exact .update rfl .restart n
  | startElection hv idle =>
      unfold Cluster.startElection
      dsimp only
      split
      · exact .nothing
      · exact .locals rfl n
  | @receiveVote v peer round resp hv => exact .update rfl (.countVote round.req resp) n
  | loseVote hv => exact .locals rfl n
  | finishRound hv => exact .locals rfl n
  | startVote contacted hv =>
      unfold Cluster.startVote
      dsimp only
      split
      · exact .locals rfl n
      · exact .update rfl .becomeCandidate n
  | finishElection hv won =>
      unfold Cluster.finishElection
      dsimp only
      split
      · next stands => exact .update rfl (.becomeLeader stands.1) n
      · exact .locals rfl n
  | @deliverVote call leaderless sent => exact .update rfl (.handleRequestVote call.req leaderless) n
  | @deliverAppend call sent => exact .update rfl (.handleAppendEntries call.req) n
  | propose command hv => exact .update rfl (.propose command) n
  | replicate term hv hp free =>
      unfold Cluster.replicate
      dsimp only
      split
      · exact .nothing
      · exact .locals rfl n
  | @receiveAppend call resp hv waits sent => exact .update rfl (.replicateReply call.dst call.req resp) n
  | loseAppend hv => exact .locals rfl n

end Cluster
end Dos.Consensus
