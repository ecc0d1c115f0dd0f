import DistributedObjectStorage.Cluster.MetadataRepository
import DistributedObjectStorage.Consensus.RaftSchedule

/-!
# The replicated control plane

Mutations are encoded as log entries and proposed; a call returns once its
entry is applied on the node that proposed it. Reading the term, `Propose` and
each pass of `WaitApplied` take the node's mutex separately, so anything may
happen in between.
-/
namespace Dos.ControlPlane
open Consensus Transition

inductive MetadataCommand where
  | registerObject (loc : ObjectLocation)
  | removeObject (key : Bytes)
  | addNode (id address : Bytes)
  | notSet
  deriving DecidableEq, Repr

/-- The generated protobuf code: `SerializeAsString` and `ParseFromString`. -/
structure CommandCodec where
  serialize : MetadataCommand → Bytes
  parse : Bytes → Option MetadataCommand

/-- The effect of a command on the underlying repository. -/
def MetadataCommand.perform (r : MetadataRepository) : MetadataCommand → MetadataRepository
  | .registerObject loc => (r.registerObject loc).1
  | .removeObject key => (r.removeObject key).1
  | .addNode id address => r.addNode ⟨id, address, .healthy, 0, 0⟩
  | .notSet => r

/-- The apply callback; an entry that does not parse is skipped. -/
def apply (codec : CommandCodec) (r : MetadataRepository) (entry : LogEntry) :
    MetadataRepository :=
  match codec.parse entry.command with
  | none => r
  | some cmd => cmd.perform r

/-- What a replica serves reads from: its bootstrap state and what it applied. -/
def repository (codec : CommandCodec) (boot : MetadataRepository) (applied : List LogEntry) :
    MetadataRepository := applied.foldl (apply codec) boot

inductive Leadership where
  | leader | follower | noLeader
  deriving DecidableEq, Repr

/-- The node as `is_leader` and then as `leader_id` see it: each takes the mutex
on its own. Nothing is there before `AttachRaft`. -/
def leadership : Option (RaftNode × RaftNode) → Leadership
  | none => .leader
  | some (first, second) =>
      if first.role = .leader then .leader
      else if second.leaderId = [] then .noLeader else .follower

/-- `peerMetaAddr` is filled by `SetPeerMetadataAddress`. -/
def leaderForwardAddress (peerMetaAddr : Bytes → Option Bytes) : Option RaftNode → Bytes
  | none => []
  | some node => (peerMetaAddr node.leaderId).getD []

/-! ## A call with nothing else going on -/

/-- The repository and the node it is attached to. The node runs the apply
callback, so `inner_` is the bootstrap state and what the node applied. -/
structure RaftMetadataRepository where
  boot : MetadataRepository
  raft : Option RaftNode

namespace RaftMetadataRepository

def inner (codec : CommandCodec) (s : RaftMetadataRepository) : MetadataRepository :=
  repository codec s.boot (s.raft.elim [] (·.applied))

/-- With nobody to wake it a `WaitApplied` that blocks runs into its deadline. -/
def proposeAndWait (s : RaftMetadataRepository) (command : Bytes) : RaftMetadataRepository × Status :=
  match s.raft with
  | none => (s, .unavailable (text "raft not attached"))
  | some node =>
      let (next, index) := node.propose command
      let s := { s with raft := some next }
      match index with
      | .error status => (s, status)
      | .ok index =>
          (s, (next.waitApplied index node.currentTerm).getD
            (.unavailable (text "timed out waiting for commit")))

def addNode (codec : CommandCodec) (s : RaftMetadataRepository) (node : NodeInfo) :
    RaftMetadataRepository :=
  (s.proposeAndWait (codec.serialize (.addNode node.id node.address))).1

def registerObject (codec : CommandCodec) (s : RaftMetadataRepository) (loc : ObjectLocation) :
    RaftMetadataRepository × Status :=
  s.proposeAndWait (codec.serialize (.registerObject loc))

def removeObject (codec : CommandCodec) (s : RaftMetadataRepository) (key : Bytes) :
    RaftMetadataRepository × Status :=
  s.proposeAndWait (codec.serialize (.removeObject key))

/-- Reads are served from locally applied state. -/
def serve (codec : CommandCodec) (s : RaftMetadataRepository) :
    ControlRequest → RaftMetadataRepository × ControlAnswer
  | .addNode node => (s.addNode codec node, .done)
  | .registerObject loc => ((s.registerObject codec loc).1, .status (s.registerObject codec loc).2)
  | .removeObject key => ((s.removeObject codec key).1, .status (s.removeObject codec key).2)
  | .lookupObject key => (s, .location ((s.inner codec).lookupObject key))
  | .listObjects pre => (s, .locations ((s.inner codec).listObjects pre))
  | .placementFor key rf => (s, .nodes ((s.inner codec).placementFor key rf))

end RaftMetadataRepository

/-! ## Calls in steps -/

/-- Where a call of `ProposeAndWait` stands. `ranIn` records the node's term at
the moment `Propose` ran; the source does not keep it. -/
inductive CallPhase where
  | termRead (term : ℕ)
  | proposed (term ranIn index : ℕ)
  | returned (status : Status)
  | lost
  deriving DecidableEq, Repr

structure Call where
  node : Bytes
  command : Bytes
  phase : CallPhase
  deriving DecidableEq, Repr

/-- A call that returned Ok, with the history up to its return. -/
structure Ack where
  node : Bytes
  command : Bytes
  term : ℕ
  ranIn : ℕ
  index : ℕ
  history : List Event
  deriving DecidableEq, Repr

structure Service where
  cluster : Consensus.Cluster
  calls : List Call
  acks : List Ack

inductive ServiceAction where
  | raft (act : Action)
  | readTerm (n command : Bytes)
  | propose (call : ℕ)
  | wait (call : ℕ)
  | timeout (call : ℕ)
  deriving DecidableEq, Repr

/-- A crash of the node ends its running calls without an answer. -/
def Call.crash (n : Bytes) (call : Call) : Call :=
  match call.phase with
  | .returned _ => call
  | _ => if call.node = n then { call with phase := .lost } else call

namespace Service

def initial (g : Group) : Service := ⟨.initial g, [], []⟩

def setPhase (s : Service) (k : ℕ) (call : Call) (phase : CallPhase) : Service :=
  { s with calls := s.calls.set k { call with phase := phase } }

def raft (g : Group) (s : Service) (act : Action) : Service :=
  { s with
    cluster := s.cluster.exec g act
    calls := match act with
      | .restart n => s.calls.map (Call.crash n)
      | _ => s.calls }

def readTerm (g : Group) (s : Service) (n command : Bytes) : Service :=
  if n ∈ g.members then
    { s with calls := s.calls ++ [⟨n, command, .termRead (s.cluster.nodes n).node.currentTerm⟩] }
  else s

def propose (g : Group) (s : Service) (k : ℕ) (call : Call) : Service :=
  match call.phase with
  | .termRead term =>
      let before := (s.cluster.nodes call.node).node
      let next := { s with cluster := s.cluster.exec g (.propose call.node call.command) }
      match (before.propose call.command).2 with
      | .error status => next.setPhase k call (.returned status)
      | .ok index => next.setPhase k call (.proposed term before.currentTerm index)
  | _ => s

/-- One pass of `WaitApplied`; it returns or blocks. -/
def wait (s : Service) (k : ℕ) (call : Call) : Service :=
  match call.phase with
  | .proposed term ranIn index =>
      match (s.cluster.nodes call.node).node.waitApplied index term with
      | none => s
      | some status =>
          let next := s.setPhase k call (.returned status)
          if status.isOk then
            { next with acks :=
                ⟨call.node, call.command, term, ranIn, index, s.cluster.history⟩ :: s.acks }
          else next
  | _ => s

/-- The deadline ends a call that waits. `WaitApplied` then returns without a second
look at `last_applied_`, so the entry may have been applied by now. -/
def timeout (s : Service) (k : ℕ) (call : Call) : Service :=
  match call.phase with
  | .proposed _ _ _ => s.setPhase k call (.returned (.unavailable (text "timed out waiting for commit")))
  | _ => s

def exec (g : Group) (s : Service) : ServiceAction → Service
  | .raft act => s.raft g act
  | .readTerm n command => s.readTerm g n command
  | .propose k => (s.calls[k]?).elim s (s.propose g k)
  | .wait k => (s.calls[k]?).elim s (s.wait k)
  | .timeout k => (s.calls[k]?).elim s (s.timeout k)

def run (g : Group) (acts : List ServiceAction) : Service := acts.foldl (exec g) (initial g)

def system (g : Group) : System Service where
  init := fun s => s = initial g
  step := fun s s' => ∃ act, s' = exec g s act

abbrev Reachable (g : Group) (s : Service) : Prop := (system g).Reachable s

theorem run_steps (g : Group) (acts more : List ServiceAction) :
    Relation.ReflTransGen (system g).step (run g acts) (run g (acts ++ more)) := by
  induction more generalizing acts with
  | nil => rw [List.append_nil]
  | cons act more ih =>
      have next : (system g).step (run g acts) (run g (acts ++ [act])) := ⟨act, by simp [run]⟩
      have rest := ih (acts ++ [act])
      rw [List.append_assoc, List.singleton_append] at rest
      exact .head next rest

theorem run_reachable (g : Group) (acts : List ServiceAction) : Reachable g (run g acts) :=
  System.Reachable.many (.start rfl) (run_steps g [] acts)

end Service
end Dos.ControlPlane
