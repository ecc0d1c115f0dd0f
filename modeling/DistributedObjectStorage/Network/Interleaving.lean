import DistributedObjectStorage.Network.FailedPut

/-!
# Calls that run side by side

Coordinators and one repair share the control plane and the storage nodes. Each
access to the control plane and each RPC is one step; the futures of a fan-out
finish in any order. Health is written by these calls and never read, so it is
left out.
-/
namespace Dos.Network
open ControlPlane Storage Transition

/-- What a call uses of its coordinator. -/
structure Caller where
  clients : List Bytes
  opts : Options
  deriving DecidableEq, Repr

/-- A call in progress, by the step it takes next. -/
inductive Call where
  | lookup (caller : Caller) (key data : Bytes) (replicas : List Bytes)
  | write (caller : Caller) (key data : Bytes) (version : ℕ) (futures : List (Bytes × Option StatusCode))
  | publish (key data : Bytes) (version : ℕ) (acked : List Bytes)
  | remove (caller : Caller) (key : Bytes) (rest : List Bytes) (acks : ℕ)
  | unpublish (key : Bytes)
  deriving DecidableEq, Repr

/-! ## Repair -/

structure Repairer where
  clients : List Bytes
  replicationFactor : ℕ
  deriving DecidableEq, Repr

structure Report where
  copied : ℕ
  alreadyCurrent : ℕ
  failed : ℕ
  deriving DecidableEq, Repr

/-- `RepairNode`, by the step it takes next. -/
inductive RepairStage where
  | list
  | place (todo : List ObjectLocation)
  | fetch (loc : ObjectLocation) (sources : List Bytes) (todo : List ObjectLocation)
  | copy (loc : ObjectLocation) (data : Bytes) (todo : List ObjectLocation)
  | publish (loc : ObjectLocation) (todo : List ObjectLocation)
  deriving DecidableEq, Repr

structure Repair where
  repairer : Repairer
  target : Bytes
  stage : RepairStage
  report : Report
  deriving DecidableEq, Repr

/-! ## The system -/

inductive Reply where
  | put (key : Bytes) (result : StatusOr ObjectMetadata)
  | delete (key : Bytes) (status : Status)
  | repair (target : Bytes) (result : StatusOr Report)
  deriving DecidableEq

structure Traffic where
  metadata : MetadataRepository
  nodes : OrderedMap Bytes StorageNode
  calls : List Call
  replies : List Reply
  repair : Option Repair

namespace Traffic

def start (metadata : MetadataRepository) (nodes : OrderedMap Bytes StorageNode) : Traffic :=
  ⟨metadata, nodes, [], [], none⟩

def reply (s : Traffic) (r : Reply) : Traffic := { s with replies := s.replies ++ [r] }

/-- An RPC through a client that may be missing. -/
def callNode {α : Type} (s : Traffic) (clients : List Bytes) (id : Bytes)
    (rpc : StorageNode → StorageNode × StatusOr α) : Traffic × StatusCode :=
  if id ∈ clients then
    match s.nodes[id]? with
    | none => (s, .unavailable)
    | some n => ({ s with nodes := s.nodes.insert id (rpc n).1 }, codeOf (rpc n).2)
  else (s, .unavailable)

def nextVersion (s : Traffic) (key : Bytes) : ℕ :=
  match s.metadata.lookupObject key with
  | .ok loc => increment loc.version
  | .error _ => 1

/-! ### Coordinator calls -/

def quorumNotMet (acked : List Bytes) (opts : Options) : Status :=
  .unavailable (text "write quorum not met: " ++ text (toString acked.length) ++ text "/" ++
    text (toString opts.writeQuorum) ++ text " acks")

/-- The nodes that acknowledged, in placement order. -/
def ackedFutures (futures : List (Bytes × Option StatusCode)) : List Bytes :=
  (futures.filter (·.2 = some .ok)).map (·.1)

/-- One step of a call. `i` picks the future that finishes, `delivery` says what
the network does to the RPC. -/
def stepCall (s : Traffic) (i : ℕ) (delivery : Delivery) (now : Int) : Call → Traffic × Option Call
  | .lookup caller key data replicas =>
      (s, some (.write caller key data (s.nextVersion key) (replicas.map (·, none))))
  | .write caller key data version futures =>
      if futures.all (·.2.isSome) then
        let acked := ackedFutures futures
        if acked.length < caller.opts.writeQuorum then
          (s.reply (.put key (.error (quorumNotMet acked caller.opts))), none)
        else (s, some (.publish key data version acked))
      else
        match futures[i]? with
        | some (id, none) =>
            let (s, code) := s.callNode caller.clients id fun n => n.put delivery key data version now
            (s, some (.write caller key data version (futures.set i (id, some code))))
        | _ => (s, some (.write caller key data version futures))
  | .publish key data version acked =>
      let loc : ObjectLocation := ⟨key, version, sha256Hex data, data.length, false, acked⟩
      let (metadata, status) := s.metadata.registerObject loc
      let row : ObjectMetadata := ⟨key, data.length, sha256Hex data, version, 0, false, []⟩
      (({ s with metadata := metadata } : Traffic).reply
        (.put key (if status.isOk then .ok row else .error status)), none)
  | .remove caller key [] acks =>
      if acks < caller.opts.writeQuorum then
        (s.reply (.delete key (.unavailable (text "delete quorum not met"))), none)
      else (s, some (.unpublish key))
  | .remove caller key (id :: rest) acks =>
      let (s, code) := s.callNode caller.clients id fun n => n.delete delivery key
      (s, some (.remove caller key rest (if code = .ok ∨ code = .notFound then acks + 1 else acks)))
  | .unpublish key =>
      let (metadata, status) := s.metadata.removeObject key
      (({ s with metadata := metadata } : Traffic).reply (.delete key status), none)

/-- `Put` up to its first access to the control plane after the placement. -/
def startPut (s : Traffic) (caller : Caller) (key data : Bytes) : Traffic :=
  let replicas := s.metadata.placementFor key caller.opts.replicationFactor
  if replicas.length < caller.opts.writeQuorum then s.reply (.put key (.error Coordinator.tooSmall))
  else { s with calls := s.calls ++ [.lookup caller key data replicas] }

/-- `Delete` skips replicas without a client. -/
def startDelete (s : Traffic) (caller : Caller) (key : Bytes) : Traffic :=
  let replicas := s.metadata.placementFor key caller.opts.replicationFactor
  { s with calls := s.calls ++ [.remove caller key (replicas.filter (· ∈ caller.clients)) 0] }

/-! ### Steps of a repair -/

/-- The read of a source, when it has a client and answers with the right bytes. -/
def fetchFrom (s : Traffic) (r : Repairer) (loc : ObjectLocation) (source : Bytes) : Option Bytes :=
  if source ∈ r.clients then
    match s.nodes[source]? with
    | none => none
    | some n =>
        match n.get loc.key with
        | .error _ => none
        | .ok data => if sha256Hex data = loc.checksum then some data else none
  else none

def stepRepair (s : Traffic) (delivery : Delivery) (now : Int) (r : Repair) : Traffic × Option Repair :=
  match r.stage with
  | .list =>
      match s.metadata.listObjects [] with
      | .error status => (s.reply (.repair r.target (.error status)), none)
      | .ok objects => (s, some { r with stage := .place objects })
  | .place [] => (s.reply (.repair r.target (.ok r.report)), none)
  | .place (loc :: todo) =>
      if r.target ∉ s.metadata.placementFor loc.key r.repairer.replicationFactor then
        (s, some { r with stage := .place todo })
      else if r.target ∈ loc.replicas then
        (s, some { r with
          stage := .place todo
          report := { r.report with alreadyCurrent := r.report.alreadyCurrent + 1 } })
      else (s, some { r with stage := .fetch loc loc.replicas todo })
  | .fetch _ [] todo =>
      (s, some { r with
        stage := .place todo
        report := { r.report with failed := r.report.failed + 1 } })
  | .fetch loc (source :: rest) todo =>
      match s.fetchFrom r.repairer loc source with
      | none => (s, some { r with stage := .fetch loc rest todo })
      | some data => (s, some { r with stage := .copy loc data todo })
  | .copy loc data todo =>
      let (s, code) := s.callNode r.repairer.clients r.target fun n =>
        n.put delivery loc.key data loc.version now
      if code = .ok then (s, some { r with stage := .publish loc todo })
      else
        (s, some { r with
          stage := .place todo
          report := { r.report with failed := r.report.failed + 1 } })
  | .publish loc todo =>
      -- the status is not looked at
      let (metadata, _) :=
        s.metadata.registerObject { loc with replicas := loc.replicas ++ [r.target] }
      ({ s with metadata := metadata }, some { r with
        stage := .place todo
        report := { r.report with copied := r.report.copied + 1 } })

end Traffic

inductive TrafficAction where
  | put (caller : Caller) (key data : Bytes)
  | delete (caller : Caller) (key : Bytes)
  | step (t i : ℕ) (delivery : Delivery) (now : Int)
  | repair (repairer : Repairer) (target : Bytes)
  | repairStep (delivery : Delivery) (now : Int)
  | setFault (id : Bytes) (fault : Option Bytes)
  deriving DecidableEq, Repr

namespace Traffic

/-- A step of one of the calls. -/
def advance (s : Traffic) (t i : ℕ) (delivery : Delivery) (now : Int) (call : Call) : Traffic :=
  let (s', next) := s.stepCall i delivery now call
  { s' with calls := next.toList ++ s.calls.eraseIdx t }

def exec (s : Traffic) : TrafficAction → Traffic
  | .put caller key data => s.startPut caller key data
  | .delete caller key => s.startDelete caller key
  | .step t i delivery now => (s.calls[t]?).elim s (s.advance t i delivery now)
  | .repair repairer target =>
      if target ∉ repairer.clients then
        s.reply (.repair target (.error (.invalidArgument (text "unknown target node: " ++ target))))
      else if s.repair.isSome then s
      else { s with repair := some ⟨repairer, target, .list, ⟨0, 0, 0⟩⟩ }
  | .repairStep delivery now =>
      match s.repair with
      | none => s
      | some r =>
          let (s', next) := s.stepRepair delivery now r
          { s' with repair := next }
  | .setFault id fault =>
      match s.nodes[id]? with
      | none => s
      | some n => { s with nodes := s.nodes.insert id { n with fault := fault } }

def system (metadata : MetadataRepository) (nodes : OrderedMap Bytes StorageNode)
    (allowed : Traffic → TrafficAction → Prop) : System Traffic :=
  .guarded exec allowed (start metadata nodes)

/-! ## A put that nothing interrupts is the whole operation -/

section Alone

/-- The steps of the futures of a fan-out, in placement order. -/
def futureSteps (net : Bytes → Delivery) (now : Int) (first : ℕ) (replicas : List Bytes) :
    List TrafficAction :=
  (replicas.zipIdx first).map fun f => .step 0 f.2 (net f.1) now

def putAlone (caller : Caller) (key data : Bytes) (replicas : List Bytes) (net : Bytes → Delivery)
    (now : Int) : List TrafficAction :=
  .put caller key data :: .step 0 0 .acknowledged now ::
    (futureSteps net now 0 replicas ++ [.step 0 0 .acknowledged now, .step 0 0 .acknowledged now])

variable {s : Traffic} {c : Coordinator} {caller : Caller} {key data : Bytes} {version : ℕ}
  {net : Bytes → Delivery} {now : Int}

theorem callNode_eq_callReplica {α : Type} (nodes : s.nodes = c.clients)
    (clients : ∀ id, id ∈ caller.clients ↔ (c.clients[id]?).isSome) (id : Bytes)
    (rpc : StorageNode → StorageNode × StatusOr α) :
    s.callNode caller.clients id rpc =
      ({ s with nodes := (c.callReplica id rpc).1.clients }, (c.callReplica id rpc).2) := by
  have unchanged : s = { s with nodes := c.clients } := by rw [← nodes]
  unfold callNode Coordinator.callReplica
  cases found : c.clients[id]? with
  | none =>
      have missing : id ∉ caller.clients := by simp [clients, found]
      rw [if_neg missing, ← unchanged]
  | some n =>
      have present : id ∈ caller.clients := by simp [clients, found]
      simp only [if_pos present, nodes, found]

/-- The step of the next future. -/
theorem step_future {id : Bytes} {rest : List Bytes} {done : List (Bytes × Option StatusCode)}
    (calls : s.calls = [.write caller key data version (done ++ (id :: rest).map (·, none))])
    (nodes : s.nodes = c.clients) (clients : ∀ id, id ∈ caller.clients ↔ (c.clients[id]?).isSome) :
    s.exec (.step 0 done.length (net id) now) =
      { s with
        nodes := (c.callReplica id fun n => n.put (net id) key data version now).1.clients
        calls := [.write caller key data version
          (done ++ [(id, some (c.callReplica id fun n => n.put (net id) key data version now).2)] ++
            rest.map (·, none))] } := by
  have waiting : (done ++ (id :: rest).map (·, none)).all (·.2.isSome) = false := by simp
  have future : (done ++ (id :: rest).map fun id => (id, (none : Option StatusCode)))[done.length]? =
      some (id, none) := by simp
  simp only [exec, calls, List.getElem?_cons_zero, Option.elim_some, advance, stepCall, waiting, future,
    callNode_eq_callReplica nodes clients, Bool.false_eq_true, if_false]
  simp

theorem run_futures {rest : List Bytes} {done : List (Bytes × Option StatusCode)} {first : ℕ}
    (count : done.length = first)
    (calls : s.calls = [.write caller key data version (done ++ rest.map (·, none))])
    (nodes : s.nodes = c.clients) (clients : ∀ id, id ∈ caller.clients ↔ (c.clients[id]?).isSome) :
    (futureSteps net now first rest).foldl exec s =
      { s with
        nodes := (c.fanOut (fun id n => n.put (net id) key data version now) rest).1.clients
        calls := [.write caller key data version
          (done ++ (c.fanOut (fun id n => n.put (net id) key data version now) rest).2.map
            fun result => (result.1, some result.2))] } := by
  induction rest generalizing done first s c with
  | nil =>
      obtain ⟨metadata, _, _, replies, repair⟩ := s
      cases calls
      cases nodes
      rfl
  | cons id rest ih =>
      have known (other : Bytes) : other ∈ caller.clients ↔
          ((c.callReplica id fun n => n.put (net id) key data version now).1.clients[other]?).isSome := by
        rw [clients, Coordinator.callReplica_clients]
        split
        · next same =>
            subst same
            simp
        · rfl
      subst count
      have stepped : s.exec (.step 0 done.length (net id) now) = _ := step_future calls nodes clients
      rcases called : c.callReplica id (fun n => n.put (net id) key data version now) with ⟨c', code⟩
      rw [called] at known stepped
      have later : (futureSteps net now (done.length + 1) rest).foldl exec
          { s with
            nodes := c'.clients
            calls := [.write caller key data version
              (done ++ [(id, some code)] ++ rest.map (·, none))] } = _ := ih (by simp) rfl rfl known
      simp only [futureSteps, List.zipIdx_cons, List.map_cons, List.foldl_cons, stepped]
      refine later.trans ?_
      simp [Coordinator.fanOut, called]

/-- Without a call there is nothing to step. -/
theorem run_idle (idle : s.calls = []) (first : ℕ) (replicas : List Bytes) :
    (futureSteps net now first replicas).foldl exec s = s := by
  induction replicas generalizing first with
  | nil => rfl
  | cons id rest ih =>
      have stays : s.exec (.step 0 first (net id) now) = s := by simp [exec, idle]
      simp only [futureSteps, List.zipIdx_cons, List.map_cons, List.foldl_cons, stays]
      exact ih (first + 1)

theorem ackedFutures_codes (codes : List (Bytes × StatusCode)) :
    ackedFutures (codes.map fun result => (result.1, some result.2)) = Coordinator.ackedOf codes := by
  simp [ackedFutures, Coordinator.ackedOf, List.filter_map, Function.comp_def]

/-- The join of the futures and what follows it, as `Coordinator.put` has it for
a coordinator with this control plane. -/
theorem run_join {codes : List (Bytes × StatusCode)}
    (calls : s.calls = [.write caller key data version (codes.map fun result => (result.1, some result.2))])
    (metadata : s.metadata = c.metadata) :
    [TrafficAction.step 0 0 .acknowledged now, .step 0 0 .acknowledged now].foldl exec s =
      if (Coordinator.ackedOf codes).length < caller.opts.writeQuorum then
        { s with
          calls := []
          replies := s.replies ++ [.put key (.error (quorumNotMet (Coordinator.ackedOf codes) caller.opts))] }
      else
        { s with
          metadata := (c.register ⟨key, data.length, sha256Hex data, version, 0, false, []⟩
            (Coordinator.ackedOf codes)).1.metadata
          calls := []
          replies := s.replies ++ [.put key (c.register ⟨key, data.length, sha256Hex data, version, 0, false, []⟩
            (Coordinator.ackedOf codes)).2] } := by
  have finished : (codes.map fun result => (result.1, some result.2)).all (·.2.isSome) = true := by
    simp [List.all_map]
  have joined : s.exec (.step 0 0 .acknowledged now) =
      if (Coordinator.ackedOf codes).length < caller.opts.writeQuorum then
        { s with
          calls := []
          replies := s.replies ++ [.put key (.error (quorumNotMet (Coordinator.ackedOf codes) caller.opts))] }
      else { s with calls := [.publish key data version (Coordinator.ackedOf codes)] } := by
    simp only [exec, calls, List.getElem?_cons_zero, Option.elim_some, advance, stepCall, finished, if_true,
      ackedFutures_codes]
    split <;> simp [reply]
  simp only [List.foldl_cons, List.foldl_nil, joined]
  split
  · simp [exec]
  · simp [exec, advance, stepCall, reply, metadata, Coordinator.register]

/-- The version, the fan-out, the quorum and the registration of a put, step by
step, are those of the coordinator. -/
theorem run_put (metadata : s.metadata = c.metadata) (nodes : s.nodes = c.clients) (idle : s.calls = [])
    (opts : caller.opts = c.opts) (clients : ∀ id, id ∈ caller.clients ↔ (c.clients[id]?).isSome) :
    (putAlone caller key data (c.metadata.placementFor key c.opts.replicationFactor) net now).foldl exec s =
      { s with
        metadata := (c.put key data net now).1.metadata
        nodes := (c.put key data net now).1.clients
        replies := s.replies ++ [.put key (c.put key data net now).2] } := by
  obtain ⟨_, _, _, replies, repair⟩ := s
  cases metadata
  cases nodes
  cases idle
  simp only [putAlone, List.foldl_cons, List.foldl_append, Coordinator.put]
  by_cases small : (c.metadata.placementFor key c.opts.replicationFactor).length < c.opts.writeQuorum
  · simp only [exec, startPut, opts, if_pos small, reply, List.getElem?_nil, Option.elim_none]
    rw [run_idle rfl]
    rfl
  · have looked : exec (exec ⟨c.metadata, c.clients, [], replies, repair⟩ (.put caller key data))
        (.step 0 0 .acknowledged now) =
        ⟨c.metadata, c.clients, [.write caller key data (c.nextVersion key)
          ([] ++ (c.metadata.placementFor key c.opts.replicationFactor).map (·, none))], replies, repair⟩ := by
      simp only [exec, startPut, opts, if_neg small]
      rfl
    have fanned : (futureSteps net now 0 (c.metadata.placementFor key c.opts.replicationFactor)).foldl exec
        ⟨c.metadata, c.clients, [.write caller key data (c.nextVersion key)
          ([] ++ (c.metadata.placementFor key c.opts.replicationFactor).map (·, none))], replies, repair⟩ = _ :=
      run_futures rfl rfl rfl clients
    rw [looked, fanned, if_neg small]
    rcases out : c.fanOut (fun id n => n.put (net id) key data (c.nextVersion key) now)
      (c.metadata.placementFor key c.opts.replicationFactor) with ⟨c', codes⟩
    have frame (health : StatusCode → ReplicaHealth) : (c'.markAll health codes).metadata = c.metadata ∧
        (c'.markAll health codes).opts = c.opts ∧ (c'.markAll health codes).clients = c'.clients := by
      have kept := c.fannedOut_frame (fun id n => n.put (net id) key data (c.nextVersion key) now)
        (c.metadata.placementFor key c.opts.replicationFactor) health codes
      rwa [out] at kept
    refine (run_join rfl (frame fun code => if code = .ok then .healthy else .lagging).1.symm).trans ?_
    simp only [opts, (frame _).2.1]
    split
    · simp only [(frame _).1, (frame _).2.2]
      rfl
    · simp [Coordinator.register, (frame _).2.2]

end Alone
/-! A key, and two nodes `a` and `b`. -/
section Sample

def objectKey : Bytes := text "k"

def pair : MetadataRepository × OrderedMap Bytes StorageNode :=
  [text "a", text "b"].foldl Coordinator.addMember (.create 1, ∅)

def next (t i : ℕ) : TrafficAction := .step t i .acknowledged 0

def after (acts : List TrafficAction) : Traffic := acts.foldl exec (start pair.1 pair.2)

end Sample

end Traffic
end Dos.Network
