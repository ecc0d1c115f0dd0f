import DistributedObjectStorage.Network.Interleaving
import DistributedObjectStorage.Storage.StoreMachine

/-!
# Conditional writes in flight

Coordinators call `PutConditional` side by side. A request that was sent may
reach its node at any later time, more than once or never, and so may the
answer; a node runs it one disk step at a time and may crash between any two. Of
`Delete` only the effects are kept: its RPCs and its `RemoveObject`, at any time.
-/
namespace Dos.Network
open ControlPlane Storage Transition

structure ConditionalRequest where
  key : Bytes
  data : Bytes
  expectedVersion : ℕ
  requestId : Bytes
  deriving DecidableEq, Repr

def ConditionalRequest.mutation (req : ConditionalRequest) : Mutation :=
  .putConditional req.key req.data req.expectedVersion req.requestId

/-- A call of `Coordinator::PutConditional`. A future holds the code of its
replica once it is ready; the result is set when the call returns. -/
structure ConditionalCall where
  caller : Caller
  request : ConditionalRequest
  futures : List (Bytes × Option StatusCode)
  result : Option (StatusOr ObjectMetadata)
  deriving DecidableEq

/-! ## A node -/

section Node
variable (shard : Bytes → ℕ)

def nextSeqOf (s : Machine) : ℕ :=
  match s.mode with
  | .running nextSeq _ => nextSeq
  | _ => 0

/-- The answer of a write that needs no disk step, if it gets the lock. -/
def answerOf (s : Machine) (m : Mutation) (now : Int) : Option StatusCode :=
  match s.mode with
  | .running _ jobs =>
      if jobs.any (fun job => shard job.key = shard m.key) then none
      else
        match m.request with
        | none => some .invalidArgument
        | some req =>
            match planPut s.disk req now with
            | .answer result => some (codeOf result)
            | .write _ => none
  | _ => none

/-- The write that the action completes. -/
def writeEnded (s : Machine) : StoreAction → Option ℕ
  | .step k =>
      match s.mode with
      | .running _ jobs =>
          match jobs[k]? with
          | some (.put .commit seq _ _) => some seq
          | _ => none
      | _ => none
  | _ => none

/-- A node process: its store, the call that each of its writes is for, and the
answers it has sent. -/
structure Server where
  machine : Machine
  owner : ℕ → Option ℕ
  answers : List (ℕ × StatusCode)

/-- The request of a call arrives. -/
def Server.serve (n : Server) (c : ℕ) (m : Mutation) (now : Int) : Server where
  machine := n.machine.exec shard (.start m now)
  owner := Function.update n.owner (nextSeqOf n.machine) (some c)
  answers := n.answers ++ ((answerOf shard n.machine m now).map (c, ·)).toList

/-- Something else happens to the node. A write that completes answers its call. -/
def Server.move (n : Server) (act : StoreAction) : Server where
  machine := n.machine.exec shard act
  owner := n.owner
  answers := n.answers ++ (((writeEnded n.machine act).bind n.owner).map (·, .ok)).toList

/-- What happens to a node besides conditional writes. -/
def spontaneous : StoreAction → Bool
  | .start (.delete _) _ => true
  | .start _ _ => false
  | _ => true

end Node

/-! ## The system -/

structure Race where
  metadata : MetadataRepository
  nodes : Bytes → Server
  calls : List ConditionalCall

inductive RaceAction where
  | invoke (caller : Caller) (request : ConditionalRequest)
  | serve (c : ℕ) (id : Bytes) (now : Int)
  | receive (c i : ℕ) (code : StatusCode)
  | giveUp (c i : ℕ)
  | finish (c : ℕ)
  | removeObject (key : Bytes)
  | node (id : Bytes) (act : StoreAction)
  deriving DecidableEq, Repr

namespace Race

/-- The nodes start from what is on their disks. -/
def start (metadata : MetadataRepository) (disks : Bytes → Disk) : Race where
  metadata := metadata
  nodes := fun id =>
    { machine := ⟨disks id, .down, ⟨(disks id).view, fun _ => none, fun _ => none⟩⟩
      owner := fun _ => none
      answers := [] }
  calls := []

def updateCall (s : Race) (c : ℕ) (f : ConditionalCall → ConditionalCall) : Race :=
  match s.calls[c]? with
  | none => s
  | some call => { s with calls := s.calls.set c (f call) }

/-- A future that is not ready takes its code. -/
def ready (i : ℕ) (code : StatusCode) (accept : Bytes → Bool) (call : ConditionalCall) : ConditionalCall :=
  match call.futures[i]? with
  | some (id, none) =>
      if accept id then { call with futures := call.futures.set i (id, some code) } else call
  | _ => call

/-- The end of `PutConditional`, once all futures are ready. -/
def conclude (metadata : MetadataRepository) (call : ConditionalCall) :
    MetadataRepository × StatusOr ObjectMetadata :=
  let req := call.request
  let acked := Traffic.ackedFutures call.futures
  if call.caller.opts.writeQuorum ≤ acked.length then
    let row : ObjectMetadata :=
      ⟨req.key, req.data.length, sha256Hex req.data, increment req.expectedVersion, 0, false, req.requestId⟩
    let (metadata, status) :=
      metadata.registerObject ⟨row.key, row.version, row.checksum, row.size, false, acked⟩
    (metadata, if status.isOk then .ok row else .error status)
  else if call.futures.any (·.2 = some .conflict) then
    (metadata, .error (.conflict (text "conditional write rejected: expected version " ++
      text (toString req.expectedVersion))))
  else (metadata, .error (.unavailable (text "write quorum not met for conditional put")))

/-- `PutConditional` up to the fan-out. -/
def invoked (metadata : MetadataRepository) (caller : Caller) (req : ConditionalRequest) : ConditionalCall :=
  let replicas := metadata.placementFor req.key caller.opts.replicationFactor
  if replicas.length < caller.opts.writeQuorum then ⟨caller, req, [], some (.error Coordinator.tooSmall)⟩
  else ⟨caller, req, replicas.map (·, none), none⟩

def exec (shard : Bytes → ℕ) (s : Race) : RaceAction → Race
  | .invoke caller req => { s with calls := s.calls ++ [invoked s.metadata caller req] }
  | .serve c id now =>
      match s.calls[c]? with
      | none => s
      | some call =>
          if id ∈ call.caller.clients ∧ id ∈ call.futures.map (·.1) then
            { s with
              nodes := Function.update s.nodes id
                ((s.nodes id).serve shard c call.request.mutation now) }
          else s
  | .receive c i code => s.updateCall c (ready i code fun id => (c, code) ∈ (s.nodes id).answers)
  | .giveUp c i => s.updateCall c (ready i .unavailable fun _ => true)
  | .finish c =>
      match s.calls[c]? with
      | none => s
      | some call =>
          if call.result.isNone ∧ call.futures.all (·.2.isSome) then
            let (metadata, result) := conclude s.metadata call
            { s with metadata := metadata, calls := s.calls.set c { call with result := some result } }
          else s
  | .removeObject key => { s with metadata := (s.metadata.removeObject key).1 }
  | .node id act =>
      if spontaneous act then
        { s with nodes := Function.update s.nodes id ((s.nodes id).move shard act) }
      else s

def system (shard : Bytes → ℕ) (metadata : MetadataRepository) (disks : Bytes → Disk)
    (allowed : Race → RaceAction → Prop) : System Race :=
  .guarded (exec shard) allowed (start metadata disks)

/-- What a call concludes from its futures is what the coordinator concludes from
the codes of its fan-out. -/
theorem conclude_eq_putConditional (c : Coordinator) (clients : List Bytes) (req : ConditionalRequest)
    (net : Bytes → Delivery) (now : Int)
    (enough : ¬(c.metadata.placementFor req.key c.opts.replicationFactor).length < c.opts.writeQuorum) :
    conclude c.metadata ⟨⟨clients, c.opts⟩, req,
        (c.fanOut (fun id n => n.putConditional (net id) req.key req.data req.expectedVersion req.requestId now)
          (c.metadata.placementFor req.key c.opts.replicationFactor)).2.map
            fun result => (result.1, some result.2), none⟩ =
      ((c.putConditional req.key req.data req.expectedVersion req.requestId net now).1.metadata,
        (c.putConditional req.key req.data req.expectedVersion req.requestId net now).2) := by
  simp only [conclude, Coordinator.putConditional, if_neg enough, Traffic.ackedFutures_codes,
    (c.fannedOut_frame _ _ _ _).2.1]
  split
  · simp only [Coordinator.register, (c.fannedOut_frame _ _ _ _).1]
  · simp only [List.any_map, Function.comp_def, Option.some.injEq]
    split
    · simp only [(c.fannedOut_frame _ _ _ _).1]
    · simp only [(c.fannedOut_frame _ _ _ _).1]

end Race
end Dos.Network
